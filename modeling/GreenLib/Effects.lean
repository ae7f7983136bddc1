import GreenLib.Machine

/-!
# What a call can change

Most calls of the library only schedule: they move threads between the processor, the ready queue
and the waiting queues, and set locks and counters. `Schedules s s'` says that `s'` is `s` up to the
fields such a call writes, so whatever reads other fields (the registry of primitives, the records
and their joins) can be framed over all of these calls at once.

`Mach.Effect` lists what a step of the machine does to the memory: it schedules, or it is one of the
few functions that do more.
-/

namespace GreenLib

/-- `s'` is `s` up to the fields that scheduling writes: who runs, the queues with their counters,
the status of the threads, and the data of locks and semaphores. -/
def Schedules (s s' : State) : Prop :=
  ∃ co run rn rq wn st nx w hd hl ct, s' = { s with
    coCurrentId := co, tRunning := run, readyNum := rn, tReady := rq, waitingNum := wn
    status := st, next := nx, waiting := w, helder := hd, held := hl, count := ct }

namespace Schedules

variable {s s₁ s₂ s' : State} {l p t : Addr}

theorem refl (s : State) : Schedules s s := ⟨_, _, _, _, _, _, _, _, _, _, _, rfl⟩

theorem trans (h : Schedules s s₁) (h' : Schedules s₁ s₂) : Schedules s s₂ := by
  obtain ⟨_, _, _, _, _, _, _, _, _, _, _, rfl⟩ := h
  obtain ⟨_, _, _, _, _, _, _, _, _, _, _, rfl⟩ := h'
  exact ⟨_, _, _, _, _, _, _, _, _, _, _, rfl⟩

/-! ## The edits -/

theorem setStatus (s : State) (t : Addr) (st : Status) : Schedules s (s.setStatus t st) :=
  ⟨_, _, _, _, _, _, _, _, _, _, _, rfl⟩

theorem setCurrent (s : State) (id : ℕ) : Schedules s { s with coCurrentId := id } :=
  ⟨_, _, _, _, _, _, _, _, _, _, _, rfl⟩

theorem setLock (s : State) (l : Addr) (x y : ℤ) : Schedules s (s.setLock l x y) :=
  ⟨_, _, _, _, _, _, _, _, _, _, _, rfl⟩

theorem setCount (s : State) (l : Addr) (x : ℤ) : Schedules s (s.setCount l x) :=
  ⟨_, _, _, _, _, _, _, _, _, _, _, rfl⟩

theorem popWaiting (s : State) (p l : Addr) : Schedules s (s.popWaiting p l) :=
  ⟨_, _, _, _, _, _, _, _, _, _, _, rfl⟩

theorem popReady (s : State) (l : Addr) : Schedules s (s.popReady l) :=
  ⟨_, _, _, _, _, _, _, _, _, _, _, rfl⟩

theorem runningToReady (s : State) (l : Addr) : Schedules s (s.runningToReady l) :=
  ⟨_, _, _, _, _, _, _, _, _, _, _, rfl⟩

theorem runningToLockWaiting (s : State) (l p : Addr) : Schedules s (s.runningToLockWaiting l p) :=
  ⟨_, _, _, _, _, _, _, _, _, _, _, rfl⟩

theorem extractThread {q : Ptr} (h : s.extractThread t = .ok (s', q)) : Schedules s s' := by
  obtain ⟨_, _, h⟩ := bind_eq_ok h
  obtain ⟨_, _, h⟩ := bind_eq_ok h
  split at h
  · cases h
  · obtain ⟨rfl, -⟩ := Prod.mk.inj (Except.ok.inj h)
    exact refl _
  · split at h
    · cases h
    · obtain ⟨rfl, -⟩ := Prod.mk.inj (Except.ok.inj h)
      exact ⟨_, _, _, _, _, _, _, _, _, _, _, rfl⟩

theorem extractFirstWaiting {q : Ptr} (h : s.extractFirstWaiting p = .ok (s', q)) :
    Schedules s s' := by
  simp only [State.extractFirstWaiting] at h
  split at h
  · obtain ⟨rfl, -⟩ := Prod.mk.inj (Except.ok.inj h)
    exact refl _
  · obtain ⟨_, _, h⟩ := bind_eq_ok h
    obtain ⟨rfl, -⟩ := Prod.mk.inj (Except.ok.inj h)
    exact popWaiting ..

theorem waitingToRunning (h : s.waitingToRunning l = .ok s') : Schedules s s' := by
  obtain ⟨_, _, h⟩ := bind_eq_ok h
  obtain rfl := Except.ok.inj h
  exact ⟨_, _, _, _, _, _, _, _, _, _, _, rfl⟩

theorem readyToRunning {b : Bool} (h : s.readyToRunning t = .ok (s', b)) : Schedules s s' := by
  obtain ⟨_, _, h⟩ := bind_eq_ok h
  obtain ⟨⟨s₁, q⟩, hs₁, h⟩ := bind_eq_ok h
  have h₁ := (setStatus s t .running).trans (extractThread hs₁)
  rcases q with _ | q
  · obtain ⟨rfl, -⟩ := Prod.mk.inj (Except.ok.inj h)
    exact h₁
  · obtain ⟨rfl, -⟩ := Prod.mk.inj (Except.ok.inj h)
    exact h₁.trans ⟨_, _, _, _, _, _, _, _, _, _, _, rfl⟩

/-! ## The calls -/

variable {tr : Transfer} {tu : Turn}

theorem threadSleep (h : s.threadSleep p = .ok (s', tr)) : Schedules s s' := by
  simp only [State.threadSleep] at h
  split at h
  · obtain ⟨rfl, -⟩ := Prod.mk.inj (Except.ok.inj h)
    exact refl _
  · obtain ⟨cur, _, h⟩ := bind_eq_ok h
    obtain ⟨_, _, h⟩ := bind_eq_ok h
    obtain ⟨new, _, h⟩ := bind_eq_ok h
    obtain ⟨_, _, h⟩ := bind_eq_ok h
    obtain ⟨rfl, -⟩ := Prod.mk.inj (Except.ok.inj h)
    exact (runningToLockWaiting ..).trans (popReady ..)

theorem wakeSwitch {cur new : Addr} (h : s.wakeSwitch cur new = .ok (s', tr)) : Schedules s s' := by
  obtain ⟨s₁, hs₁, h⟩ := bind_eq_ok h
  obtain ⟨rfl, -⟩ := Prod.mk.inj (Except.ok.inj h)
  exact (waitingToRunning hs₁).trans (setCurrent ..)

theorem threadWakeup (h : s.threadWakeup p = .ok (s', tr)) : Schedules s s' := by
  obtain ⟨_, _, h⟩ := bind_eq_ok h
  obtain ⟨⟨s₁, q⟩, hs₁, h⟩ := bind_eq_ok h
  have h₁ := extractFirstWaiting hs₁
  rcases q with _ | new
  · obtain ⟨rfl, -⟩ := Prod.mk.inj (Except.ok.inj h)
    exact h₁
  · obtain ⟨cur, _, h⟩ := bind_eq_ok h
    exact (h₁.trans (runningToReady ..)).trans (wakeSwitch h)

theorem threadWakeupWait (h : s.threadWakeupWait p = .ok (s', tr)) : Schedules s s' := by
  obtain ⟨cur, _, h⟩ := bind_eq_ok h
  obtain ⟨_, _, h⟩ := bind_eq_ok h
  obtain ⟨⟨s₁, q⟩, hs₁, h⟩ := bind_eq_ok h
  have h₁ := extractFirstWaiting hs₁
  rcases q with _ | new
  · obtain ⟨rfl, -⟩ := Prod.mk.inj (Except.ok.inj h)
    exact h₁
  · exact (h₁.trans (runningToLockWaiting ..)).trans (wakeSwitch h)

theorem threadResume {id : ℕ} (h : s.threadResume id = .ok (s', tr)) : Schedules s s' := by
  obtain ⟨run, _, h⟩ := bind_eq_ok h
  obtain ⟨_, _, h⟩ := bind_eq_ok h
  obtain ⟨_, _, h⟩ := bind_eq_ok h
  obtain ⟨new, _, h⟩ := bind_eq_ok h
  have h₁ : Schedules s (if s.tId (s.thread run) ≠ 0 then s.runningToReady run
      else s.setStatus (s.thread run) .ready) := by
    split
    · exact runningToReady ..
    · exact setStatus ..
  simp only at h
  split at h
  · obtain ⟨⟨s₂, found⟩, hs₂, h⟩ := bind_eq_ok h
    obtain ⟨_, _, h⟩ := bind_eq_ok h
    obtain ⟨rfl, -⟩ := Prod.mk.inj (Except.ok.inj h)
    exact (h₁.trans (setCurrent ..)).trans (readyToRunning hs₂)
  · obtain ⟨rfl, -⟩ := Prod.mk.inj (Except.ok.inj h)
    exact (h₁.trans (setCurrent ..)).trans (setStatus ..)

theorem threadYield (h : s.threadYield = .ok (s', tr)) : Schedules s s' := by
  simp only [State.threadYield] at h
  split at h
  · exact threadResume h
  · obtain ⟨head, _, h⟩ := bind_eq_ok h
    exact threadResume h

theorem exitSwitch (h : s.exitSwitch = .ok (s', tr)) : Schedules s s' := by
  simp only [State.exitSwitch] at h
  split at h
  · obtain ⟨_, _, h⟩ := bind_eq_ok h
    obtain ⟨new, _, h⟩ := bind_eq_ok h
    obtain ⟨rfl, -⟩ := Prod.mk.inj (Except.ok.inj h)
    exact (setCurrent ..).trans (setStatus ..)
  · obtain ⟨head, _, h⟩ := bind_eq_ok h
    obtain ⟨_, _, h⟩ := bind_eq_ok h
    obtain ⟨new, _, h⟩ := bind_eq_ok h
    obtain ⟨⟨s₂, _⟩, hs₂, h⟩ := bind_eq_ok h
    obtain ⟨rfl, -⟩ := Prod.mk.inj (Except.ok.inj h)
    exact (setCurrent ..).trans (readyToRunning hs₂)

theorem threadLockAcquireTurn (h : s.threadLockAcquireTurn l = .ok (s', tu)) : Schedules s s' := by
  obtain ⟨_, _, h⟩ := bind_eq_ok h
  split at h
  · obtain ⟨⟨s₁, tr⟩, hs₁, h⟩ := bind_eq_ok h
    obtain ⟨rfl, -⟩ := Prod.mk.inj (Except.ok.inj h)
    exact threadSleep hs₁
  · obtain ⟨run, _, h⟩ := bind_eq_ok h
    obtain ⟨rfl, -⟩ := Prod.mk.inj (Except.ok.inj h)
    exact setLock ..

theorem threadLockReleaseIntern (h : s.threadLockReleaseIntern l = .ok (s', tr)) :
    Schedules s s' := by
  obtain ⟨_, _, h⟩ := bind_eq_ok h
  exact (setLock ..).trans (threadWakeup h)

theorem threadLockReleaseAcquire (h : s.threadLockReleaseAcquire l = .ok (s', tr)) :
    Schedules s s' := by
  obtain ⟨_, _, h⟩ := bind_eq_ok h
  exact (setLock ..).trans (threadWakeupWait h)

theorem threadSemaphorePTurn (h : s.threadSemaphorePTurn l = .ok (s', tu)) : Schedules s s' := by
  obtain ⟨_, _, h⟩ := bind_eq_ok h
  split at h
  · obtain ⟨⟨s₁, tr⟩, hs₁, h⟩ := bind_eq_ok h
    obtain ⟨rfl, -⟩ := Prod.mk.inj (Except.ok.inj h)
    exact threadSleep hs₁
  · obtain ⟨_, _, h⟩ := bind_eq_ok h
    obtain ⟨rfl, -⟩ := Prod.mk.inj (Except.ok.inj h)
    exact setCount ..

theorem threadSemaphoreV (h : s.threadSemaphoreV l = .ok (s', tr)) : Schedules s s' := by
  obtain ⟨_, _, h⟩ := bind_eq_ok h
  obtain ⟨_, _, h⟩ := bind_eq_ok h
  exact (setCount ..).trans (threadWakeup h)

end Schedules

/-! ## The walk of `thread_exit` -/

/-- `thread_exit` marks join blocks, frees its caller and schedules, in this order. -/
theorem State.threadExit_eq {s s' : State} {tr : Transfer} (he : s.threadExit = .ok (s', tr)) :
    ∃ cur j, Schedules ({ s with joinable := j }.removeThread cur) s' := by
  obtain ⟨_, _, he⟩ := bind_eq_ok he
  obtain ⟨cur, _, he⟩ := bind_eq_ok he
  obtain ⟨s₁, hmark, he⟩ := bind_eq_ok he
  obtain ⟨j, rfl⟩ := markJoinable_eq hmark
  split at he
  · cases he
  · exact ⟨cur, j, .exitSwitch he⟩

/-! ## The outcomes of `thread_create` -/

/-- How far `thread_create` got, what it left behind and what it returned. A call that fails late
leaves an id used up, or even a registered record that no queue has. -/
inductive State.Creates (s : State) (al : Alloc) : State → ℕ → Prop where
  | off (h : s.initialised = false) : Creates s al s 0
  | noRecord (h : al.thread = none) : Creates s al s 0
  | noId {t : Addr} (h : s.newId = 0) : Creates s al (s.newThread t) 0
  | noStack {sl : ℕ} {t : Addr} (ht : al.thread = some t)
    (hfail : al.context = false ∨ al.stack = false) :
    Creates s al ((s.newThread t).fillThread t s.newId sl) 0
  | noLink {sl : ℕ} {t : Addr} (ht : al.thread = some t) (hc : al.context = true)
    (hs : al.stack = true) (hcap : s.newId < maxCapacity) (hl : al.link = none) :
    Creates s al (((s.newThread t).fillThread t s.newId sl).registerThread s.newId t) 0
  | linked {sl : ℕ} {t l : Addr} (ht : al.thread = some t) (hlive : s.threadLive t = false)
    (hid : s.newId ≠ 0) (hcap : s.newId < maxCapacity) (hl : s.linkLive l = false) :
    Creates s al
      ((((s.newThread t).fillThread t s.newId sl).registerThread s.newId t).linkThread t l)
      s.newId

theorem State.threadCreate_creates {s s' : State} {al : Alloc} {id : ℕ}
    (he : s.threadCreate al = .ok (s', id)) : s.Creates al s' id := by
  rw [State.threadCreate] at he
  split at he
  · rename_i hoff
    obtain ⟨rfl, rfl⟩ := Prod.mk.inj (Except.ok.inj he)
    exact .off hoff
  obtain ⟨q, hq, he⟩ := bind_eq_ok he
  rcases q with _ | t
  · obtain ⟨rfl, rfl⟩ := Prod.mk.inj (Except.ok.inj he)
    exact .noRecord (malloc_eq_none hq)
  obtain ⟨ht, hlive⟩ := malloc_eq_some hq
  simp only at he
  split at he
  · rename_i hid
    obtain ⟨rfl, rfl⟩ := Prod.mk.inj (Except.ok.inj he)
    exact .noId hid
  rename_i hid
  obtain ⟨sl, -, he⟩ := bind_eq_ok he
  split at he
  · cases he
  split at he
  · rename_i hc
    obtain ⟨rfl, rfl⟩ := Prod.mk.inj (Except.ok.inj he)
    exact .noStack ht (.inl hc)
  rename_i hc
  split at he
  · rename_i hs
    obtain ⟨rfl, rfl⟩ := Prod.mk.inj (Except.ok.inj he)
    exact .noStack ht (.inr hs)
  rename_i hs
  split at he
  · cases he
  rename_i hcap
  obtain ⟨q, hq, he⟩ := bind_eq_ok he
  rcases q with _ | l
  · obtain ⟨rfl, rfl⟩ := Prod.mk.inj (Except.ok.inj he)
    exact .noLink ht (by simpa using hc) (by simpa using hs) (Nat.lt_of_not_le hcap)
      (malloc_eq_none hq)
  · obtain ⟨rfl, rfl⟩ := Prod.mk.inj (Except.ok.inj he)
    exact .linked ht hlive hid (Nat.lt_of_not_le hcap) (malloc_eq_some hq).2

/-! ## Steps of the machine -/

variable {U G A E : Type}

/-- **What a step does to the memory**, forgetting who made it. Invariants of a part of the memory
are proved by cases on this and need not look at the calls. -/
inductive Mach.Effect (m : Mach U G) : Label A E → State → Prop where
  | schedules {l : Label A E} {s : State} (h : Schedules m.st s) : Effect m l s
  | create {act : A} {al : Alloc} {s : State} {id : ℕ} (h : m.st.threadCreate al = .ok (s, id)) :
    Effect m (.call act al) s
  | exit {act : A} {al : Alloc} {s : State} {tr : Transfer} (h : m.st.threadExit = .ok (s, tr)) :
    Effect m (.call act al) s
  | made {act : A} {al : Alloc} {k : PrimKind} {s₁ s : State} {q : Ptr}
    (h : m.st.createPrim k al = .ok (s₁, q)) (hs : Schedules s₁ s) : Effect m (.call act al) s
  | gone {act : A} {al : Alloc} {k : PrimKind} {p : Addr} {s : State}
    (h : m.st.destroyPrim k p = .ok s) : Effect m (.call act al) s
  | joinEnter {act : A} {al : Alloc} {id : ℕ} {s : State} {q : Option (Addr × Addr)}
    (h : m.st.threadJoinEnter al id = .ok (s, q)) : Effect m (.call act al) s
  | joinTurn {cur new : Addr} {id : ℕ} {u : U} {s : State} {tu : Turn}
    (hcpu : m.cpu = .join cur new id u) (h : m.st.threadJoinTurn cur new id = .ok (s, tu)) :
    Effect m .turn s
  | cspaceAlloc {act : A} {al : Alloc} {s : State} (h : m.st.cspaceAlloc al = .ok s) :
    Effect m (.call act al) s
  | scribble {t : Addr} {junk : State} (h : m.st.threadLive t = false) :
    Effect m (.scribble t junk) (m.st.scribble t junk)

namespace Mach

variable {P : Program U G A E} {m m' : Mach U G} {l : Label A E}

/-- A call that ends in a transfer and only schedules, whatever its transfer is. -/
theorem effect_of_finish {fr : Frame U} {r : Except Fault (State × Transfer)} {m₀ : Mach U G}
    (he : m₀.finish fr r = .ok m') (h : ∀ s tr, r = .ok (s, tr) → Schedules m.st s) :
    m.Effect l m'.st := by
  obtain ⟨s, tr, hr, rfl⟩ := finish_eq_ok he
  rw [transfer_st]
  exact .schedules (h s tr hr)

theorem call_effect {act : A} {al : Alloc} {ret : Option ℕ → U} {c : Call U} {g : G}
    (he : { m with g := g }.call al ret c = .ok m') :
    m.Effect (.call act al : Label A E) m'.st := by
  cases c with
  | pause =>
    obtain rfl := Except.ok.inj he
    exact .schedules (.refl _)
  | create u =>
    obtain ⟨⟨s, id⟩, hs, he⟩ := bind_eq_ok he
    obtain rfl := Except.ok.inj he
    exact .create hs
  | yield => exact effect_of_finish he fun _ _ => .threadYield
  | resume id => exact effect_of_finish he fun _ _ => .threadResume
  | exit =>
    obtain ⟨s, tr, hs, rfl⟩ := finish_eq_ok he
    rw [transfer_st]
    exact .exit hs
  | sleep p => exact effect_of_finish he fun _ _ => .threadSleep
  | wakeup p => exact effect_of_finish he fun _ _ => .threadWakeup
  | wakeupWait p => exact effect_of_finish he fun _ _ => .threadWakeupWait
  | primInit =>
    obtain ⟨⟨s, q⟩, hs, he⟩ := bind_eq_ok he
    obtain rfl := Except.ok.inj he
    rw [forget_st]
    exact .made hs (.refl _)
  | lockCreate =>
    obtain ⟨⟨s, q⟩, hs, he⟩ := bind_eq_ok he
    obtain rfl := Except.ok.inj he
    rw [forget_st]
    obtain ⟨⟨s₁, q'⟩, hs₁, hs⟩ := bind_eq_ok hs
    cases q' with
    | none =>
      obtain ⟨rfl, -⟩ := Prod.mk.inj (Except.ok.inj hs)
      exact .made hs₁ (.refl _)
    | some p =>
      obtain ⟨rfl, -⟩ := Prod.mk.inj (Except.ok.inj hs)
      exact .made hs₁ (.setLock ..)
  | lockDestory p =>
    obtain ⟨s, hs, he⟩ := bind_eq_ok he
    obtain rfl := Except.ok.inj he
    exact .gone hs
  | acquire p =>
    obtain ⟨_, _, he⟩ := bind_eq_ok he
    obtain rfl := Except.ok.inj he
    exact .schedules (.refl _)
  | release p => exact effect_of_finish he fun _ _ => .threadLockReleaseIntern
  | releaseAcquire p => exact effect_of_finish he fun _ _ => .threadLockReleaseAcquire
  | semCreate =>
    obtain ⟨⟨s, q⟩, hs, he⟩ := bind_eq_ok he
    obtain rfl := Except.ok.inj he
    rw [forget_st]
    obtain ⟨⟨s₁, q'⟩, hs₁, hs⟩ := bind_eq_ok hs
    cases q' with
    | none =>
      obtain ⟨rfl, -⟩ := Prod.mk.inj (Except.ok.inj hs)
      exact .made hs₁ (.refl _)
    | some p =>
      obtain ⟨rfl, -⟩ := Prod.mk.inj (Except.ok.inj hs)
      exact .made hs₁ (.setCount ..)
  | semDestory p =>
    obtain ⟨s, hs, he⟩ := bind_eq_ok he
    obtain rfl := Except.ok.inj he
    exact .gone hs
  | semP p =>
    obtain rfl := Except.ok.inj he
    exact .schedules (.refl _)
  | semV p => exact effect_of_finish he fun _ _ => .threadSemaphoreV
  | cvWait cv p => exact effect_of_finish he fun _ _ => .threadLockReleaseIntern
  | cvSignal cv => exact effect_of_finish he fun _ _ => .threadWakeup
  | join id =>
    obtain ⟨⟨s, q⟩, hs, he⟩ := bind_eq_ok he
    rcases q with _ | ⟨cur, new⟩
    · obtain rfl := Except.ok.inj he
      exact .joinEnter hs
    · obtain rfl := Except.ok.inj he
      exact .joinEnter hs
  | cspaceAlloc =>
    obtain ⟨s, hs, he⟩ := bind_eq_ok he
    obtain rfl := Except.ok.inj he
    exact .cspaceAlloc hs

theorem turn_effect (he : m.turn = .ok m') : m.Effect (.turn : Label A E) m'.st := by
  simp only [turn] at he
  rcases hcpu : m.cpu with u | ⟨b, p, u⟩ | ⟨p, u⟩ | ⟨b, p, u⟩ | ⟨cv, p, u⟩ | ⟨cv, p, u⟩ |
    ⟨cur, new, id, u⟩ <;> simp only [hcpu] at he
  · cases he
  · obtain ⟨⟨s, tu⟩, hs, he⟩ := bind_eq_ok he
    obtain rfl := Except.ok.inj he
    rw [loop_st]
    exact .schedules (.threadLockAcquireTurn hs)
  · obtain rfl := Except.ok.inj he
    exact .schedules (.refl _)
  · obtain ⟨⟨s, tu⟩, hs, he⟩ := bind_eq_ok he
    have hst : m'.st = s := by
      obtain rfl := Except.ok.inj he
      cases tu <;> simp only [loop_st]
    rw [hst]
    exact .schedules (.threadSemaphorePTurn hs)
  · exact effect_of_finish he fun _ _ => .threadSleep
  · obtain ⟨_, _, he⟩ := bind_eq_ok he
    obtain rfl := Except.ok.inj he
    exact .schedules (.refl _)
  · obtain ⟨⟨s, tu⟩, hs, he⟩ := bind_eq_ok he
    have hst : m'.st = s := by
      cases tu with
      | again tr =>
        obtain rfl := Except.ok.inj he
        exact transfer_st ..
      | done =>
        obtain rfl := Except.ok.inj he
        rfl
    rw [hst]
    exact .joinTurn hcpu hs

/-- **Every step has one of these effects.** -/
theorem step_effect (he : m.step P l = .ok m') : m.Effect l m'.st := by
  cases l with
  | call act al =>
    simp only [step] at he
    split at he
    · split at he
      · cases he
      · exact call_effect he
    · cases he
  | turn => exact turn_effect he
  | env e =>
    simp only [step] at he
    split at he
    · cases he
    · obtain rfl := Except.ok.inj he
      exact .schedules (.refl _)
  | scribble t junk =>
    simp only [step] at he
    split at he
    · cases he
    · rename_i ht
      obtain rfl := Except.ok.inj he
      exact .scribble (by simpa using ht)

end Mach

end GreenLib
