import GreenLib.Task

/-!
# Locks

The correctness of `thread_lock_acquire` and `thread_lock_release` (`lock_correct`), from
the invariant of the waiting loops and the one about owners: mutual exclusion, fields
that name the holder, and first come, first served with direct hand-off. When a release
finds waiters, the one that waits longest gets the processor inside its acquire, and
nothing but its acquire can go on until that has returned.
-/

namespace GreenLib

open Sched

variable {U G A E : Type}

/-! ## Correctness -/

/-- Thread `j` is between the return of its acquire and its release of `l`. It is a statement about
the program's own account, not about the lock's fields. -/
def Mach.Holds (held : U → Finset Addr) (m : Mach U G) (j : ℕ) (l : Addr) : Prop :=
  m.Live j ∧ ∃ fr ∈ m.frameOf j, l ∈ fr.holds held

/-- The running thread, if it has been woken in the loop of `p`: it will leave the loop with its
next test. -/
def Mach.granted (m : Mach U G) (p : Addr) (k : PrimKind) : List ℕ :=
  if m.cpu.waitsOn = some (p, k) then [m.st.coCurrentId] else []

/-- **Locks do what they are for**: exclusion, fields that name the holder, and service in the order
of arrival with direct hand-off. Every field speaks about the machine. -/
structure LocksCorrect (P : Program U G A E) (held : U → Finset Addr) (m : Mach U G) : Prop where
  exclusive : ∀ l i j, m.Holds held i l → m.Holds held j l → i = j
  holder : ∀ l j, m.Holds held j l → m.st.held l = 1 ∧ m.st.helder l = j
  free : ∀ l, m.st.kind l = some .lock → (∀ j, ¬ m.Holds held j l) →
    m.st.held l = 0 ∧ m.st.helder l = -1
  /-- those who went to sleep in acquire: the ones that have the lock behind them, the one that
  has been woken, the ones that wait, in the order in which they went to sleep -/
  fifo : ∀ l, m.st.kind l = some .lock →
    m.blocked l = m.served l ++ m.granted l .lock ++ m.st.waitingIds l
  /-- a release with waiters switches to the one that waits longest -/
  release : ∀ lab l j tl m', m.Calls P lab (.release l) → m.st.waitingIds l = j :: tl →
    m.step P lab = .ok m' → m'.st.coCurrentId = j ∧ ∃ u, m'.cpu = .acquire true l u
  /-- whatever happens next, the woken thread runs on and its acquire returns -/
  woken : ∀ l u, m.cpu = .acquire true l u → ∀ lab m', m.step P lab = .ok m' →
    m'.st.coCurrentId = m.st.coCurrentId ∧
      (m'.cpu = m.cpu ∨
        m'.cpu = .user u ∧ m'.st.held l = 1 ∧ m'.st.helder l = m.st.coCurrentId)

section Correct

variable {P : Program U G A E} {main idle : U → Prop} {held : U → Finset Addr} {m m' : Mach U G}
  {a : AMach U G} {lab : Label A E} {l : Addr} {i j : ℕ}

/-- A thread 0 that only sets up never holds a lock, since none of the setup calls takes one. -/
theorem Program.Handover.holding (hP : P.Handover main idle) (hB : P.Balanced held) :
    P.Handover (fun u => main u ∧ held u = ∅) (fun u => idle u ∧ held u = ∅) := by
  refine ⟨⟨hP.start, hB.main⟩, ?_, fun hu => hP.stop hu.1⟩
  rintro act v u g c ret g' ⟨hu, hh⟩ hn
  have hbal := hB.next hn
  rcases hP.next hu hn with ⟨hs, hmain⟩ | ⟨⟨id, rfl⟩, hidle⟩
  · refine .inl ⟨hs, fun r => ⟨hmain r, ?_⟩⟩
    cases c <;> first | exact hs.elim | exact (hbal r).trans hh | exact (hbal.2 r).trans hh
  · exact .inr ⟨⟨id, rfl⟩, hidle, (hbal none).trans hh⟩

namespace Sim

theorem holds_iff (h : Sim P False m a) (hok : a.Ok) :
    m.Holds held j l ↔ j ≠ 0 ∧ a.sched.place j ≠ .nowhere ∧ l ∈ (a.frame j).holds held := by
  unfold Mach.Holds
  rw [h.live_iff hok]
  constructor
  · rintro ⟨⟨h0, hp⟩, fr, hf, hl⟩
    rw [h.frameOf h0 hp] at hf
    exact ⟨h0, hp, Option.some.inj hf ▸ hl⟩
  · rintro ⟨h0, hp, hl⟩
    exact ⟨⟨h0, hp⟩, _, h.frameOf h0 hp, hl⟩

/-- The lock names its holder: `held` is 1 and `helder` the id. -/
theorem holder (h : Sim P False m a) (hok : a.Ok) (ho : Owners held a) (hj : m.Holds held j l) :
    m.st.held l = 1 ∧ m.st.helder l = j := by
  obtain ⟨_, hp, hl⟩ := (h.holds_iff hok).mp hj
  rw [h.held, h.helder]
  exact (ho.owner j l hp hl).2

/-- **Mutual exclusion.** Two holders would both be the thread that the lock names. -/
theorem exclusive (h : Sim P False m a) (hok : a.Ok) (ho : Owners held a) (hi : m.Holds held i l)
    (hj : m.Holds held j l) : i = j := by
  have h₁ := (h.holder hok ho hi).2
  have h₂ := (h.holder hok ho hj).2
  exact_mod_cast h₁.symm.trans h₂

theorem granted (h : Sim P False m a) (p : Addr) (k : PrimKind) :
    m.granted p k = a.granted p k := by
  unfold Mach.granted AMach.granted
  rcases hr : a.sched.running with _ | i
  · obtain ⟨_, _, u, hu, _⟩ := h.idle hr
    rw [hu]
    rfl
  · rw [h.cpu i hr, h.coCurrentId hr]

/-- A thread inside the library runs on the abstract machine too; with nobody running it would be
thread 0, which is in user code. -/
theorem running_of_cpu (h : Sim P False m a) (hcpu : ∀ u, m.cpu ≠ .user u) :
    ∃ i, a.sched.running = some i := by
  rcases hr : a.sched.running with _ | i
  · obtain ⟨_, _, u, hu, _⟩ := h.idle hr
    exact absurd hu (hcpu u)
  · exact ⟨i, rfl⟩

/-- The thread that makes a call runs, also on the abstract machine. -/
theorem running_of_calls (h : Sim P False m a) {c : Call U} (hc : m.Calls P lab c) :
    ∃ i, a.sched.running = some i := by
  obtain ⟨act, al, u, ret, g, rfl, hcpu, hn⟩ := hc
  rcases hr : a.sched.running with _ | i
  · obtain ⟨_, _, u', hu', hno⟩ := h.idle hr
    obtain rfl : u = u' := Frame.user.inj (hcpu.symm.trans hu')
    cases hn.symm.trans (hno act m.st.view m.g)
  · exact ⟨i, rfl⟩

/-- **Wakeup switches at once** to the head of the queue, which continues where it has gone to
sleep. -/
theorem wakes (h : Sim P False m a) (hi : a.sched.running = some i) {p : Addr} {tl : List ℕ}
    (hq : a.sched.waiting p = j :: tl) {s' : State} {tr : Transfer}
    (hs : m.st.threadWakeup p = .ok (s', tr)) (fr : Frame U)
    (hm : m' = { m with st := s' }.transfer fr tr) :
    m'.st.coCurrentId = j ∧ m'.cpu = a.frame j ∧ m'.st.waitingIds p = tl ∧ m'.g = m.g := by
  subst hm
  obtain ⟨hp, sched, hd⟩ := h.repr.threadWakeup hi hs
  have hstep := hd.step
  cases hstep with
  | wakeupNone hnil => cases hnil.symm.trans hq
  | wakeup hcons hb =>
    obtain ⟨rfl, rfl⟩ := List.cons.inj (hq.symm.trans hcons)
    have hji : j ≠ i :=
      ne_running_of_place hi (place_waiting (hq ▸ List.mem_cons_self)) (by simp)
    have h' := h.perform hi hd (fun hnone => by cases hb.running.symm.trans hnone) fr
    refine ⟨h'.coCurrentId hb.running, ?_, ?_, h'.g.trans h.g.symm⟩
    · exact (h'.cpu j hb.running).trans (Function.update_of_ne hji ..)
    · have hp' : p ∈ sched.prims := by
        rw [hb.prims]
        exact hp
      rw [h'.repr.waitingIds hp']
      change sched.waiting p = _
      rw [hb.waiting, Function.update_self]

/-- **Direct hand-off.** Release switches to the head of the queue, which is inside acquire. -/
theorem release (h : Sim P False m a) (hw : Waiters .locks a)
    (hc : m.Calls P lab (.release l)) {tl : List ℕ} (hq : m.st.waitingIds l = j :: tl)
    (he : m.step P lab = .ok m') : m'.st.coCurrentId = j ∧ ∃ u, m'.cpu = .acquire true l u := by
  obtain ⟨i, hi⟩ := h.running_of_calls hc
  obtain ⟨act, al, u, ret, g, rfl, hcpu, hn⟩ := hc
  rw [Mach.step_call hcpu hn] at he
  obtain ⟨s', tr, hs, hm⟩ := Mach.finish_eq_ok he
  obtain ⟨_, hk, hs⟩ := bind_eq_ok hs
  have hk' : a.kind l = some .lock := h.kind ▸ checkKind_eq_ok hk
  obtain ⟨link, c⟩ := h.repr.core
  have hprim : l ∈ a.sched.prims := (c.prims l).mpr (by simp [h.kind, hk'])
  rw [h.repr.waitingIds hprim] at hq
  obtain ⟨hco, hcpu', -, -⟩ := ((h.setG g).setLock l (-1) 0).wakes hi hq hs (.user (ret none)) hm
  refine ⟨hco, ?_⟩
  -- the head of the queue is asleep in the loop
  have hwait := (hw.loop l .lock hk' rfl).queued j (hq ▸ List.mem_cons_self)
  rw [hcpu']
  change ∃ u, a.frame j = _
  revert hwait
  cases a.frame j with
  | acquire b l' u' => cases b <;> simp [Frame.waitsOn]
  | semP b p' u' => cases b <;> simp [Frame.waitsOn]
  | _ => simp [Frame.waitsOn]

/-- **The woken thread gets the lock.** Its next turn finds the lock free and takes it, before any
other thread has run. -/
theorem woken (h : Sim P False m a) (hw : Waiters .locks a) {u : U}
    (hcpu : m.cpu = .acquire true l u) (he : m.step P lab = .ok m') :
    m'.st.coCurrentId = m.st.coCurrentId ∧
      (m'.cpu = m.cpu ∨
        m'.cpu = .user u ∧ m'.st.held l = 1 ∧ m'.st.helder l = m.st.coCurrentId) := by
  obtain ⟨i, hi⟩ := h.running_of_cpu (by simp [hcpu])
  have hpi := place_running hi
  obtain ⟨link, c⟩ := h.repr.core
  rcases lab with ⟨act, al⟩ | _ | e | ⟨t, junk⟩
  · simp only [Mach.step, hcpu] at he
    cases he
  · -- the loop finds the lock free
    have hfree : m.st.held l = 0 := by
      have hf : (a.frame i).waitsOn = some (l, .lock) := by
        rw [← h.cpu i hi, hcpu]
        rfl
      have hl := hw.loop l .lock (hw.static i l .lock (by simp [hpi]) hf rfl) rfl
      rw [h.held]
      by_contra hne
      exact hl.not_woken hi (if_neg hne) hf
    simp only [Mach.step, Mach.turn, hcpu] at he
    obtain ⟨r, hs, he⟩ := bind_eq_ok he
    obtain rfl := Except.ok.inj he
    obtain ⟨_, _, hs⟩ := bind_eq_ok hs
    rw [if_neg (by simp [hfree]), (c.running i hi).1] at hs
    obtain ⟨_, hrun, hs⟩ := bind_eq_ok hs
    obtain rfl := Except.ok.inj hrun
    obtain rfl := Except.ok.inj hs
    refine ⟨rfl, .inr ⟨rfl, Function.update_self .., ?_⟩⟩
    change Function.update m.st.helder l _ l = _
    rw [Function.update_self, c.tId (by simp [hpi]), h.coCurrentId hi]
  · simp only [Mach.step] at he
    split at he
    · cases he
    · obtain rfl := Except.ok.inj he
      exact ⟨rfl, .inl rfl⟩
  · simp only [Mach.step] at he
    split at he
    · cases he
    · obtain rfl := Except.ok.inj he
      exact ⟨rfl, .inl rfl⟩

end Sim

/-- **Locks are correct.** In every run of a program whose thread 0 only sets up, whose threads
release only locks they hold and acquire only locks they do not hold, and which leaves the queues
of locks to acquire: at most one thread holds a lock, the lock's fields say which, and locks are
granted in the order of arrival with direct hand-off. -/
theorem lock_correct (hP : P.Handover main idle) (hL : P.Leaves .locks) (hB : P.Balanced held)
    (hm : Reach (P.runs.guard (ResumesReady P)) m) : LocksCorrect P held m := by
  obtain ⟨a, ha, h⟩ := hP.reach hm
  have hok := ha.ok
  have hw := Waiters.reach hL ha
  have ho := Owners.reach hB (hL.guard_relAcq ha)
  refine ⟨fun _ _ _ => h.exclusive hok ho, fun _ _ => h.holder hok ho, ?_, ?_,
    fun _ _ _ _ _ hc hq => h.release hw hc hq, fun _ _ hcpu _ _ => h.woken hw hcpu⟩
  · intro l hl hnone
    rw [h.held, h.helder]
    refine (ho.owned l (h.kind ▸ hl)).resolve_right ?_
    rintro ⟨j, hp, hjl⟩
    by_cases h0 : j = 0
    · subst h0
      rcases (hP.holding hB).zero ha with ⟨u, _, hf, _, hu⟩ | ⟨_, u, hf, _, hu⟩
      all_goals
        rw [hf] at hjl
        change l ∈ held u at hjl
        rw [hu] at hjl
        cases hjl
    · exact hnone j ((h.holds_iff hok).mpr ⟨h0, hp, hjl⟩)
  · intro l hl
    obtain ⟨link, c⟩ := h.repr.core
    have hprim : l ∈ a.sched.prims := (c.prims l).mpr (by simp [hl])
    rw [h.blocked, h.served, h.granted, h.repr.waitingIds hprim]
    exact (hw.loop l .lock (h.kind ▸ hl) rfl).fifo

/-- Three threads go through the same critical section, in which they yield. -/
def Script.critical : Script :=
  .call .lockCreate <|
  .call (.create worker) <|
  .call (.create worker) <|
  .call (.create worker) <|
  .call (.resume 1) .done
where
  worker : Script := .call (.acquire 5) <| .call .yield <| .call (.release 5) <| .call .exit .done

/-- Thread 1 is inside, the other two wait in the order in which they came. -/
theorem lock_correct_critical : ∃ m : Mach Task Unit,
    (m.st.coCurrentId = 1 ∧ m.st.helder 5 = 1 ∧ m.st.waitingIds 5 = [2, 3]) ∧
      LocksCorrect (Task.program false Script.critical) Task.held m := by
  obtain ⟨m, hm, hq⟩ := Mach.exists_of_reaches
    (T := (Task.program false Script.critical).runs.guard (ResumesReady _))
    (ResumesReady (Task.program false Script.critical))
    (fun _ _ _ hok hs => ⟨hok, hs⟩) (.init Task.boot_init)
    [.go 5, .go 1, .go 2, .go 3, .go 0, .go 0, .turn, .go 0, .go 0, .turn, .go 0, .turn]
    (fun m => m.st.coCurrentId = 1 ∧ m.st.helder 5 = 1 ∧ m.st.waitingIds 5 = [2, 3]) (by decide)
  have hmain : Script.critical.HandsOver := ⟨trivial, trivial, trivial, trivial, rfl⟩
  exact ⟨m, hq, lock_correct (Task.handover hmain) (Task.leaves _) Task.balanced hm⟩

end Correct

end GreenLib
