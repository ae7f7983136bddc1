import GreenLib.CurrentThread
import GreenLib.Joins

/-!
# Joins

The law of `thread_join` and `thread_exit`: an exiting thread walks over the blocks of the threads
that are joined on it and over no others, a join returns only after that, and it returns without a
failed assertion (`JoinLaw`).

The law does not hold in all runs (`joins_break`). The `next` field of the first block of a list is
whatever `malloc` left there, so the walk may go on into the list of another thread, whose joiners
then return too early. And a joiner leaves the list of a record that has been freed: if the record
is used again before that, `delete_join_block` fails. It holds in every run whose steps are
`Orderly` (`join_law`).
-/

namespace GreenLib

variable {U G A E : Type}

/-- The locals `cur`, `new` and `thread_id` of a thread inside `thread_join`. The thread goes on
with them even if the records have changed. -/
def Frame.waits : Frame U → Option (Addr × Addr × ℕ)
  | .join cur new id _ => some (cur, new, id)
  | _ => none

theorem Frame.waits_eq_some {fr : Frame U} {cur new : Addr} {id : ℕ} :
    fr.waits = some (cur, new, id) ↔ ∃ u, fr = .join cur new id u := by
  cases fr <;> simp [waits]

/-- A call that works on records or join blocks. All others leave the memory of joins alone. -/
def Call.worksOnJoins : Call U → Bool
  | .create _ | .exit | .join _ => true
  | _ => false

/-- A call that makes or destroys a primitive. It moves nobody and works on no record. -/
def Call.worksOnPrims : Call U → Bool
  | .primInit | .lockCreate | .semCreate | .lockDestory _ | .semDestory _ => true
  | _ => false

/-- A call that comes back to its caller, or goes to the loop of `thread_join`, without moving
`t_running`: these are safe also when `t_running` does not name the caller. -/
def Call.keepsControl : Call U → Bool
  | .pause | .create _ | .join _ => true
  | c => c.worksOnPrims

namespace Mach

/-- Thread `i` has been created and has not exited, thread 0 included. -/
def Alive (m : Mach U G) (i : ℕ) : Prop := m.created i = true ∧ m.exited i = false

instance (m : Mach U G) (i : ℕ) : Decidable (m.Alive i) := inferInstanceAs (Decidable (_ ∧ _))

/-- The machine, as joins see it: who is alive, who is gone, and who is inside `thread_join`. -/
def joinView (m : Mach U G) : JoinView where
  alive := m.Alive
  gone i := m.exited i = true
  waits i := if m.Alive i then (m.frameOf i).bind Frame.waits else none
  st := m.st

/-! ## The memory -/

/-- A call that ends in a transfer and only schedules leaves joins alone. -/
theorem keepsJoins_of_finish {m m' m₀ : Mach U G} {fr : Frame U}
    {r : Except Fault (State × Transfer)} (he : m₀.finish fr r = .ok m')
    (h : ∀ s tr, r = .ok (s, tr) → Schedules m.st s) : KeepsJoins m.st m'.st := by
  obtain ⟨s, tr, hr, rfl⟩ := finish_eq_ok he
  rw [transfer_st]
  exact (h s tr hr).keepsJoins

end Mach

/-- Nothing but primitives differs: the calls that make and destroy them. -/
def PrimsOnly (s s' : State) : Prop :=
  ∃ k w x y q h h' c, s' = { s with
    kind := k
    waiting := w
    primPre := x
    primNext := y
    syncPrim := q
    held := h
    helder := h'
    count := c }

namespace PrimsOnly

variable {s s' : State} {al : Alloc} {q : Ptr}

theorem keepsJoins (h : PrimsOnly s s') : KeepsJoins s s' := by
  obtain ⟨_, _, _, _, _, _, _, _, rfl⟩ := h
  exact ⟨rfl, rfl, rfl, rfl, rfl, rfl, rfl, rfl, rfl, rfl⟩

/-- A primitive is created, which writes the table and the registry, -/
theorem createPrim {k : PrimKind} (he : s.createPrim k al = .ok (s', q)) : PrimsOnly s s' := by
  obtain ⟨q', -, he⟩ := bind_eq_ok he
  cases q' with
  | none =>
    obtain ⟨rfl, -⟩ := Prod.mk.inj (Except.ok.inj he)
    exact ⟨_, _, _, _, _, _, _, _, rfl⟩
  | some p =>
    obtain ⟨s₁, hs₁, he⟩ := bind_eq_ok he
    obtain ⟨rfl, -⟩ := Prod.mk.inj (Except.ok.inj he)
    obtain ⟨_, _, _, rfl⟩ := Repr.syncPrimInitial_eq hs₁
    exact ⟨_, _, _, _, _, _, _, _, rfl⟩

/-- as a lock, whose two fields are set, -/
theorem threadLockCreate (he : s.threadLockCreate al = .ok (s', q)) : PrimsOnly s s' := by
  obtain ⟨⟨s₁, q'⟩, hs₁, he⟩ := bind_eq_ok he
  obtain ⟨_, _, _, _, _, _, _, _, rfl⟩ := PrimsOnly.createPrim hs₁
  cases q' <;> obtain ⟨rfl, -⟩ := Prod.mk.inj (Except.ok.inj he) <;>
    exact ⟨_, _, _, _, _, _, _, _, rfl⟩

/-- or as a semaphore, whose counter is set, -/
theorem threadSemaphoreCreate (he : s.threadSemaphoreCreate al = .ok (s', q)) :
    PrimsOnly s s' := by
  obtain ⟨⟨s₁, q'⟩, hs₁, he⟩ := bind_eq_ok he
  obtain ⟨_, _, _, _, _, _, _, _, rfl⟩ := PrimsOnly.createPrim hs₁
  cases q' <;> obtain ⟨rfl, -⟩ := Prod.mk.inj (Except.ok.inj he) <;>
    exact ⟨_, _, _, _, _, _, _, _, rfl⟩

/-- or it is destroyed, and disappears from the registry. -/
theorem destroyPrim {k : PrimKind} {p : Addr} (he : s.destroyPrim k p = .ok s') :
    PrimsOnly s s' := by
  rw [State.destroyPrim] at he
  split at he
  · cases he
  obtain ⟨_, -, he⟩ := bind_eq_ok he
  obtain ⟨s₁, hs₁, he⟩ := bind_eq_ok he
  obtain rfl := Except.ok.inj he
  obtain ⟨_, _, _, rfl⟩ := Repr.syncPrimDestroy_eq hs₁
  exact ⟨_, _, _, _, _, _, _, _, rfl⟩

end PrimsOnly

theorem KeepsJoins.cspaceAlloc {s s' : State} {al : Alloc} (he : s.cspaceAlloc al = .ok s') :
    KeepsJoins s s' := by
  obtain ⟨_, -, he⟩ := bind_eq_ok he
  obtain ⟨_, -, he⟩ := bind_eq_ok he
  split at he
  · cases he
  obtain rfl := Except.ok.inj he
  exact ⟨rfl, rfl, rfl, rfl, rfl, rfl, rfl, rfl, rfl, rfl⟩

namespace Mach

variable {P : Program U G A E} {m m' : Mach U G}

theorem call_primsOnly {al : Alloc} {ret : Option ℕ → U} {c : Call U}
    (hc : c.worksOnPrims = true) (he : m.call al ret c = .ok m') :
    PrimsOnly m.st m'.st ∧ (∃ u, m'.cpu = .user u) ∧ m'.ctx = m.ctx ∧ m'.created = m.created ∧
      m'.exited = m.exited := by
  cases c with
  | primInit =>
    obtain ⟨⟨s, q⟩, hs, he⟩ := bind_eq_ok he
    obtain rfl := Except.ok.inj he
    rw [forget_st]
    cases q <;> exact ⟨.createPrim hs, ⟨_, rfl⟩, rfl, rfl, rfl⟩
  | lockCreate =>
    obtain ⟨⟨s, q⟩, hs, he⟩ := bind_eq_ok he
    obtain rfl := Except.ok.inj he
    rw [forget_st]
    cases q <;> exact ⟨.threadLockCreate hs, ⟨_, rfl⟩, rfl, rfl, rfl⟩
  | semCreate =>
    obtain ⟨⟨s, q⟩, hs, he⟩ := bind_eq_ok he
    obtain rfl := Except.ok.inj he
    rw [forget_st]
    cases q <;> exact ⟨.threadSemaphoreCreate hs, ⟨_, rfl⟩, rfl, rfl, rfl⟩
  | lockDestory p | semDestory p =>
    obtain ⟨s, hs, he⟩ := bind_eq_ok he
    obtain rfl := Except.ok.inj he
    exact ⟨.destroyPrim hs, ⟨_, rfl⟩, rfl, rfl, rfl⟩
  | _ => cases hc

/-- The other calls do not work on joins, whichever they are. -/
theorem call_keepsJoins {al : Alloc} {ret : Option ℕ → U} {c : Call U} {g : G}
    (hc : c.worksOnJoins = false) (he : { m with g := g }.call al ret c = .ok m') :
    KeepsJoins m.st m'.st := by
  cases c with
  | create u => cases hc
  | exit => cases hc
  | join id => cases hc
  | pause =>
    obtain rfl := Except.ok.inj he
    exact .refl _
  | yield => exact keepsJoins_of_finish he fun _ _ => .threadYield
  | resume id => exact keepsJoins_of_finish he fun _ _ => .threadResume
  | sleep p => exact keepsJoins_of_finish he fun _ _ => .threadSleep
  | wakeup p => exact keepsJoins_of_finish he fun _ _ => .threadWakeup
  | wakeupWait p => exact keepsJoins_of_finish he fun _ _ => .threadWakeupWait
  | release p => exact keepsJoins_of_finish he fun _ _ => .threadLockReleaseIntern
  | releaseAcquire p => exact keepsJoins_of_finish he fun _ _ => .threadLockReleaseAcquire
  | semV p => exact keepsJoins_of_finish he fun _ _ => .threadSemaphoreV
  | cvWait cv p => exact keepsJoins_of_finish he fun _ _ => .threadLockReleaseIntern
  | cvSignal cv => exact keepsJoins_of_finish he fun _ _ => .threadWakeup
  | primInit | lockCreate | semCreate | lockDestory p | semDestory p =>
    exact (call_primsOnly rfl he).1.keepsJoins
  | acquire p =>
    obtain ⟨_, _, he⟩ := bind_eq_ok he
    obtain rfl := Except.ok.inj he
    exact .refl _
  | semP p =>
    obtain rfl := Except.ok.inj he
    exact .refl _
  | cspaceAlloc =>
    obtain ⟨s, hs, he⟩ := bind_eq_ok he
    obtain rfl := Except.ok.inj he
    exact .cspaceAlloc hs

/-- A turn of another loop does not work on joins either. -/
theorem turn_keepsJoins (hcpu : m.cpu.waits = none) (he : m.turn = .ok m') :
    KeepsJoins m.st m'.st := by
  have heff : m.Effect (.turn : Label Unit Unit) m'.st := turn_effect he
  cases heff with
  | schedules h => exact h.keepsJoins
  | joinTurn hjoin => rw [hjoin] at hcpu; cases hcpu

/-! ## Orderly runs -/

/-- `t_running` names the running thread. After a thread has exited with nobody ready it does not:
thread 0 goes on, and `t_running` is left as it was. -/
def Named (m : Mach U G) : Prop := m.st.tRunning.map m.st.thread = m.st.addrs m.st.coCurrentId

instance (m : Mach U G) : Decidable m.Named := inferInstanceAs (Decidable (_ = _))

/-- The step is a call that keeps control, the end of a join, or none of the running thread's. -/
def keepsControl (P : Program U G A E) (m : Mach U G) (l : Label A E) : Bool :=
  match l with
  | .call _ _ => (m.callOf P l).any Call.keepsControl
  | .turn =>
    match m.cpu with
    | .join cur _ _ _ => (m.st.join cur).any m.st.joinable
    | _ => false
  | .env _ | .scribble _ _ => true

/-- A `thread_join` gets its block, and one that becomes the only block of a list has a null
`next`. -/
def hasBlock (P : Program U G A E) (m : Mach U G) (l : Label A E) : Bool :=
  match l, m.callOf P l with
  | .call _ al, some (.join id) =>
    match m.st.addrs id, al.block with
    | none, _ => true
    | some _, none => false
    | some new, some b => (m.st.joined new).stop.isSome || (m.st.joinNext b).isNone
  | _, _ => true

/-- The record that the step allocates, or whose `joined_start` or `joined_end` it changes after the
record has been freed. -/
def takes (P : Program U G A E) (m : Mach U G) (l : Label A E) : Ptr :=
  match l, m.callOf P l with
  | .call _ al, some (.create _) => al.thread
  | .scribble t junk, _ => if junk.joined t = m.st.joined t then none else some t
  | _, _ => none

/-- Somebody inside `thread_join` works with the record `t`. -/
def awaits (m : Mach U G) (t : Addr) : Bool :=
  (List.range m.st.newId).any fun i => (m.joinView.waits i).any fun x => x.2.1 == t

end Mach

/-- **The conditions under which joins work.** All of them are about the step at hand; together they
keep the lists and the names in order. -/
structure Orderly (P : Program U G A E) (m : Mach U G) (l : Label A E) : Prop where
  /-- control is passed to threads of the ready queue only -/
  resumes : ∀ id ∈ m.target P l, id ≠ 0 ∧ id ∈ m.st.readyIds
  /-- when thread 0 goes on because the last ready thread has exited, so that `t_running` does not
  name it, it creates and joins threads and makes and destroys primitives only -/
  named : m.Named ∨ m.keepsControl P l = true
  block : m.hasBlock P l = true
  /-- until the joiners of a thread that has exited have returned, its record is not allocated
  again and its `joined_start` and `joined_end` are left alone -/
  spares : ∀ t ∈ m.takes P l, m.awaits t = false

instance (P : Program U G A E) (m : Mach U G) (l : Label A E) : Decidable (Orderly P m l) :=
  decidable_of_iff ((∀ id ∈ m.target P l, id ≠ 0 ∧ id ∈ m.st.readyIds) ∧
      (m.Named ∨ m.keepsControl P l = true) ∧ m.hasBlock P l = true ∧
      ∀ t ∈ m.takes P l, m.awaits t = false)
    ⟨fun h => ⟨h.1, h.2.1, h.2.2.1, h.2.2.2⟩, fun h => ⟨h.resumes, h.named, h.block, h.spares⟩⟩

/-- What `malloc` gave thread 0 reads as a running thread that nobody joins; `thread_initial`
does not write these fields. -/
def Mach.CleanStart (m : Mach U G) : Prop :=
  ∀ t, m.st.addrs 0 = some t → m.st.status t = .running ∧ m.st.joined t = ⟨none, none⟩

/-- The runs from a clean start whose steps all meet a condition, which is a parameter: the
counterexamples below meet a weaker one. -/
def Program.clean (P : Program U G A E) (ok : Program U G A E → Mach U G → Label A E → Prop) :
    Lts (Mach U G) (Label A E) where
  init m := P.runs.init m ∧ m.CleanStart
  step m l m' := ok P m l ∧ P.runs.step m l m'

/-- The runs of orderly steps from a clean start. -/
def Program.orderly (P : Program U G A E) : Lts (Mach U G) (Label A E) := P.clean Orderly

/-! ## Steps that keep control -/

section Stay

variable {P : Program U G A E} {m m' : Mach U G} {l : Label A E}

/-- Control stays with the running thread, which may go on elsewhere. Nobody is created and nobody
exits. -/
structure Mach.Stays (m m' : Mach U G) : Prop where
  current : m'.st.coCurrentId = m.st.coCurrentId
  running : m'.st.tRunning = m.st.tRunning
  thread : m'.st.thread = m.st.thread
  addrs : m'.st.addrs = m.st.addrs
  ctx : m'.ctx = m.ctx
  created : m'.created = m.created
  exited : m'.exited = m.exited

/-- The running thread goes on and nobody exits; a thread may have been created. -/
structure Mach.KeepsControl (m m' : Mach U G) : Prop where
  current : m'.st.coCurrentId = m.st.coCurrentId
  exited : m'.exited = m.exited
  created : ∀ i, m.created i = true → m'.created i = true
  cap : ∀ i, m'.created i = true → m.created i = true ∨ i < maxCapacity
  unnamed : ¬ m.Named → ¬ m'.Named

namespace Mach

theorem Stays.keepsControl (h : Stays m m') : KeepsControl m m' := by
  refine ⟨h.current, h.exited, fun i hi => h.created ▸ hi, fun i hi => .inl (h.created ▸ hi), ?_⟩
  rw [Named, Named, h.running, h.thread, h.addrs, h.current]
  exact fun hnot => hnot

theorem Stays.alive (h : Stays m m') (i : ℕ) : m'.Alive i ↔ m.Alive i := by
  rw [Alive, Alive, h.created, h.exited]

/-- The frames of the others are the same, so only the running thread can have entered or left
`thread_join`. -/
theorem Stays.waits (h : Stays m m') (ha : m.Alive m.st.coCurrentId) :
    m'.joinView.waits = Function.update m.joinView.waits m.st.coCurrentId m'.cpu.waits := by
  funext j
  simp only [joinView, h.alive j]
  rcases eq_or_ne j m.st.coCurrentId with rfl | hne
  · rw [Function.update_self, if_pos ha, frameOf, if_pos h.current]
    rfl
  · rw [Function.update_of_ne hne, frameOf, frameOf, h.current, h.addrs, h.ctx, if_neg hne.symm,
      if_neg hne.symm]

theorem Stays.view (h : Stays m m') :
    m'.joinView.alive = m.joinView.alive ∧ m'.joinView.gone = m.joinView.gone := by
  refine ⟨funext fun i => propext (h.alive i), funext fun i => ?_⟩
  simp only [joinView, h.exited]

/-- The running thread is inside `thread_join` if its frame says so, on the processor and not in its
saved context. -/
theorem waits_current (ha : m.Alive m.st.coCurrentId) :
    m.joinView.waits m.st.coCurrentId = m.cpu.waits := by
  simp only [joinView, if_pos ha, frameOf]
  rfl

/-- A step that changes the running thread's frame and no joins. -/
theorem Stays.quiet (h : Stays m m') (ha : m.Alive m.st.coCurrentId)
    (hcpu : m'.cpu.waits = m.cpu.waits) (hst : KeepsJoins m.st m'.st) :
    JoinStep m.joinView m'.joinView := by
  refine .quiet h.view.1 h.view.2 ?_ hst
  rw [h.waits ha, hcpu, ← waits_current ha, Function.update_eq_self]

/-- Whoever awaits a record is found, since registered ids are below `new_id`. -/
theorem awaits_of_awaited (hinv : m.joinView.Inv) {t : Addr} (h : m.joinView.Awaited t) :
    m.awaits t = true := by
  obtain ⟨i, cur, id, hw⟩ := h
  have hcur := (hinv.waits i cur t id hw).2.1
  rw [awaits, List.any_eq_true]
  refine ⟨i, List.mem_range.mpr (hinv.record i cur hcur).2.2, ?_⟩
  rw [hw]
  simp

/-- `thread_join` up to its loop, or at once back. If the block becomes the only one of its list,
its `next` field is null by `hasBlock`. -/
theorem joinStep_enter {al : Alloc} {ret : Option ℕ → U} {g : G} {id : ℕ} {act : A} {u : U}
    (ha : m.Alive m.st.coCurrentId) (hcpu : m.cpu = .user u)
    (hn : P.next act m.st.view u m.g = some (.join id, ret, g))
    (hblock : m.hasBlock P (.call act al) = true)
    (he : { m with g := g }.call al ret (.join id) = .ok m') :
    JoinStep m.joinView m'.joinView ∧ Stays m m' := by
  obtain ⟨⟨s, q⟩, hs, he⟩ := bind_eq_ok he
  change m.st.threadJoinEnter al id = .ok (s, q) at hs
  have hw : m.joinView.waits m.st.coCurrentId = none := by rw [waits_current ha, hcpu]; rfl
  obtain ⟨cur, hcur, ⟨rfl, rfl, -⟩ | ⟨new, b, caller, hnew, hb, hlive, rfl, happ⟩⟩ :=
    State.threadJoinEnter_cases hs
  · obtain rfl := Except.ok.inj he
    have hst : Stays m { m with g := g, cpu := .user (ret none) } :=
      ⟨rfl, rfl, rfl, rfl, rfl, rfl, rfl⟩
    exact ⟨hst.quiet ha (by rw [hcpu]; rfl) (.refl _), hst⟩
  · obtain rfl := Except.ok.inj he
    have hjoins := Repr.threadJoinEnter_joinsOnly hs
    have hst : Stays m { m with g := g, st := s, cpu := .join cur new id (ret none) } := by
      obtain ⟨_, _, _, _, _, _, _, _, rfl⟩ := hjoins
      exact ⟨rfl, rfl, rfl, rfl, rfl, rfl, rfl⟩
    have hnull : (m.st.joined new).stop = none → m.st.joinNext b = none := by
      intro hstop
      have hcall : m.callOf P (.call act al) = some (.join id) := by simp [callOf, hcpu, hn]
      simpa [hasBlock, hcall, hnew, hb, hstop] using hblock
    have hwaits := hst.waits ha
    obtain rfl := State.appendJoinBlock_eq happ
    have henters : m.joinView.Enters _ m.st.coCurrentId cur new b id :=
      ⟨ha, hcur, hw, hnew, hlive, hnull, hst.view.1, hst.view.2, hwaits, rfl, rfl, rfl, rfl,
        rfl, rfl, rfl, rfl, rfl, rfl⟩
    exact ⟨.enter henters, hst⟩

/-- The last turn of `thread_join`, after which the thread is back in user code. -/
theorem joinStep_leave {cur new : Addr} {id : ℕ} {u : U} (ha : m.Alive m.st.coCurrentId)
    (hcpu : m.cpu = .join cur new id u) (hj : (m.st.join cur).any m.st.joinable = true)
    (he : m.turn = .ok m') : JoinStep m.joinView m'.joinView ∧ Stays m m' := by
  simp only [turn, hcpu] at he
  obtain ⟨⟨s, tu⟩, hs, he⟩ := bind_eq_ok he
  obtain ⟨b, hb, ⟨-, rfl, s₁, hs₁, rfl⟩ | ⟨hjb, -⟩⟩ := State.threadJoinTurn_cases hs
  · obtain rfl := Except.ok.inj he
    have hst : Stays m { m with
        st := { s₁ with join := Function.update s₁.join cur none }
        cpu := .user u } := by
      obtain ⟨_, _, _, _, _, _, _, _, rfl⟩ := Repr.deleteJoinBlock_joinsOnly hs₁
      exact ⟨rfl, rfl, rfl, rfl, rfl, rfl, rfl⟩
    have hw : m.joinView.waits m.st.coCurrentId = some (cur, new, id) := by
      rw [waits_current ha, hcpu]
      rfl
    exact ⟨.leave (v := m.joinView) hw hb hs₁ rfl hst.view.1 hst.view.2 (hst.waits ha), hst⟩
  · rw [hb] at hj
    cases hjb.symm.trans hj

/-- A freed record changes. If somebody is inside `thread_join` with it, its list has to stay. -/
theorem joinStep_scribble {t : Addr} {junk : State} (hinv : m.joinView.Inv)
    (ha : m.Alive m.st.coCurrentId) (hlive : m.st.threadLive t = false)
    (hspare : m.awaits t = true → junk.joined t = m.st.joined t) :
    JoinStep m.joinView { m with st := m.st.scribble t junk }.joinView ∧
      Stays m { m with st := m.st.scribble t junk } := by
  have hst : Stays m { m with st := m.st.scribble t junk } := ⟨rfl, rfl, rfl, rfl, rfl, rfl, rfl⟩
  refine ⟨.rewrite (v := m.joinView) hlive (fun hw => ⟨rfl, rfl, ?_⟩) hst.view.2 ?_
    (State.scribble_rewrites m.st t junk) (fun i hi => hi) (fun i hi => .inl hi), hst⟩
  · change Function.update m.st.joined t (junk.joined t) t = m.st.joined t
    rw [Function.update_self]
    exact hspare (awaits_of_awaited hinv hw)
  · rw [hst.waits ha]
    change Function.update m.joinView.waits m.st.coCurrentId m.cpu.waits = _
    rw [← waits_current ha, Function.update_eq_self]

/-- A primitive is made or destroyed, which the joins do not notice. -/
theorem joinStep_prims {al : Alloc} {ret : Option ℕ → U} {g : G} {c : Call U} {u : U}
    (ha : m.Alive m.st.coCurrentId) (hcpu : m.cpu = .user u) (hc : c.worksOnPrims = true)
    (he : { m with g := g }.call al ret c = .ok m') :
    JoinStep m.joinView m'.joinView ∧ Stays m m' := by
  obtain ⟨hprims, ⟨w, hw⟩, hctx, hcreated, hexited⟩ := call_primsOnly hc he
  have hst : Stays m m' := by
    obtain ⟨_, _, _, _, _, _, _, _, hs⟩ := hprims
    refine ⟨?_, ?_, ?_, ?_, hctx, hcreated, hexited⟩ <;> rw [hs]
  refine ⟨hst.quiet ha ?_ hprims.keepsJoins, hst⟩
  rw [hw, hcpu]
  rfl

/-- What a call of `thread_create` that returns `id` leaves: the caller goes on, and the new context
is saved under the new record. -/
structure CreateCall (m m' : Mach U G) (al : Alloc) (id : ℕ) : Prop where
  st : m.st.threadCreate al = .ok (m'.st, id)
  cpu : m'.cpu.waits = none
  exited : m'.exited = m.exited
  created : ∀ i, m'.created i = true ↔ m.created i = true ∨ id ≠ 0 ∧ i = id
  ctx : ∀ r, m'.ctx r = m.ctx r ∨ id ≠ 0 ∧ al.thread = some r
  /-- the new thread begins with the function it was given -/
  start : id ≠ 0 → ∀ t, al.thread = some t → (m'.ctx t).waits = none

theorem call_create {al : Alloc} {ret : Option ℕ → U} {g : G} {v : U}
    (he : { m with g := g }.call al ret (.create v) = .ok m') : ∃ id, CreateCall m m' al id := by
  obtain ⟨⟨s, id⟩, hs, he⟩ := bind_eq_ok he
  obtain rfl := Except.ok.inj he
  refine ⟨id, hs, rfl, rfl, fun i => ?_, fun r => ?_, fun h0 t ht => ?_⟩
  · by_cases h0 : id = 0
    · simp [h0]
    · rcases eq_or_ne i id with rfl | hne
      · simp [h0]
      · simp [h0, hne]
  · rcases ht : al.thread with _ | t
    · exact .inl rfl
    · by_cases h0 : id = 0
      · simp [h0]
      · rcases eq_or_ne r t with rfl | hne
        · exact .inr ⟨h0, rfl⟩
        · simp [h0, hne]
  · simp [ht, h0, Frame.waits]

namespace CreateCall

variable {al : Alloc} {id : ℕ} {t : Addr}

/-- The running thread goes on, under the name it had: the new record and the new link are not its
own. -/
theorem keepsControl (h : CreateCall m m' al id) (hinv : m.joinView.Inv)
    (ha : m.Alive m.st.coCurrentId) (ht : al.thread = some t) (hlive : m.st.threadLive t = false)
    (hrw : Rewrites m.st m'.st t) : KeepsControl m m' := by
  obtain ⟨hco, hrun, hcap, hthread⟩ := State.threadCreate_control h.st
  refine ⟨hco, h.exited, fun i hi => (h.created i).mpr (.inl hi), fun i hi => ?_,
    fun hnot hnamed => hnot ?_⟩
  · refine ((h.created i).mp hi).imp_right ?_
    rintro ⟨h0, rfl⟩
    exact hcap h0
  · -- the link of the new thread, if `t_running` points at it, does not name the caller
    obtain ⟨cur, hcur⟩ := hinv.alive _ ha
    change m.st.addrs m.st.coCurrentId = some cur at hcur
    obtain ⟨-, hcurLive, hlt⟩ := hinv.record _ cur hcur
    have haddr : m'.st.addrs m.st.coCurrentId = some cur :=
      (hrw.addrs_of_ne (ne_of_lt hlt)).trans hcur
    rw [Named, hrun, hco, haddr] at hnamed
    obtain ⟨run, hrun', hcur'⟩ := Option.map_eq_some_iff.mp hnamed
    rw [Named, hrun', hcur, Option.map_some]
    rcases hthread run with hsame | hnew
    · rw [← hsame, hcur']
    · obtain rfl : cur = t := Option.some.inj ((hcur' ▸ hnew).symm.trans ht)
      cases hlive.symm.trans hcurLive

/-- The new thread is not inside `thread_join`, and the others are where they were. -/
theorem waits (h : CreateCall m m' al id) (hinv : m.joinView.Inv) (hcpu : m.cpu.waits = none)
    (hco : m'.st.coCurrentId = m.st.coCurrentId) (ht : al.thread = some t)
    (hlive : m.st.threadLive t = false)
    (hold : ∀ i r, m.st.addrs i = some r → m'.st.addrs i = some r)
    (hid : id ≠ 0 → m'.st.addrs id = some t) : m'.joinView.waits = m.joinView.waits := by
  funext j
  simp only [joinView, frameOf, hco]
  by_cases hj : m.Alive j
  · have hj' : m'.Alive j := ⟨(h.created j).mpr (.inl hj.1), h.exited ▸ hj.2⟩
    obtain ⟨r, hr⟩ := hinv.alive j hj
    change m.st.addrs j = some r at hr
    have hctx : m'.ctx r = m.ctx r := by
      refine (h.ctx r).resolve_right ?_
      rintro ⟨-, hr'⟩
      obtain rfl := Option.some.inj (hr'.symm.trans ht)
      cases hlive.symm.trans (hinv.record j r hr).2.1
    rw [if_pos hj, if_pos hj', hold j r hr, hr]
    split
    · exact h.cpu.trans hcpu.symm
    · simp [hctx]
  · rw [if_neg hj]
    split
    · rename_i hj'
      obtain ⟨h0, rfl⟩ := ((h.created j).mp hj'.1).resolve_left fun hc => hj ⟨hc, h.exited ▸ hj'.2⟩
      split
      · exact h.cpu
      · rw [hid h0]
        exact h.start h0 t ht
    · rfl

end CreateCall

/-- **`thread_create`**, when it fails as well as when it succeeds. A new record is nobody's target
yet. -/
theorem joinStep_create {act : A} {al : Alloc} {ret : Option ℕ → U} {g : G} {u v : U}
    (hinv : m.joinView.Inv) (ha : m.Alive m.st.coCurrentId) (hcpu : m.cpu = .user u)
    (hn : P.next act m.st.view u m.g = some (.create v, ret, g))
    (hspare : ∀ t ∈ m.takes P (.call act al), m.awaits t = false)
    (he : { m with g := g }.call al ret (.create v) = .ok m') :
    JoinStep m.joinView m'.joinView ∧ KeepsControl m m' := by
  have htakes : m.takes P (.call act al) = al.thread := by simp [takes, callOf, hcpu, hn]
  have hwaits : m.cpu.waits = none := by rw [hcpu]; rfl
  obtain ⟨cur, hcur⟩ := hinv.alive _ ha
  obtain ⟨id, h⟩ := call_create he
  rcases State.threadCreate_rewrites h.st (Nat.zero_lt_of_lt (hinv.record _ cur hcur).2.2) with
    ⟨hst, rfl⟩ | ⟨t, ht, hlive, hrw, hid⟩
  · have hstays : Stays m m' := by
      refine ⟨by rw [hst], by rw [hst], by rw [hst], by rw [hst], funext fun r => ?_,
        funext fun i => ?_, h.exited⟩
      · exact (h.ctx r).resolve_right fun hr => hr.1 rfl
      · rw [Bool.eq_iff_iff, h.created]
        simp
    exact ⟨hstays.quiet ha (h.cpu.trans hwaits.symm) (hst ▸ .refl _), hstays.keepsControl⟩
  · have hcontrol := h.keepsControl hinv ha ht hlive hrw
    have hold : ∀ i r, m.st.addrs i = some r → m'.st.addrs i = some r := by
      intro i r hr
      exact (hrw.addrs_of_ne (ne_of_lt (hinv.record i r hr).2.2)).trans hr
    refine ⟨.rewrite (v := m.joinView) hlive (fun hw => ?_) ?_ ?_ hrw (fun j hj => ?_)
      (fun j hj => ?_), hcontrol⟩
    · cases (hspare t (htakes.trans ht)).symm.trans (awaits_of_awaited hinv hw)
    · simp only [joinView, h.exited]
    · exact h.waits hinv hwaits hcontrol.current ht hlive hold fun h0 => (hid h0).2
    · exact ⟨hcontrol.created j hj.1, h.exited ▸ hj.2⟩
    · rcases (h.created j).mp hj.1 with hj' | ⟨h0, rfl⟩
      · exact .inl ⟨hj', h.exited ▸ hj.2⟩
      · exact .inr (hid h0).2

/-- **Steps that keep control**, in any state. No queue is needed for them, so they are safe also
while thread 0 goes on without its name. -/
theorem joinStep_of_keepsControl (hinv : m.joinView.Inv) (ha : m.Alive m.st.coCurrentId)
    (ho : Orderly P m l) (hk : m.keepsControl P l = true) (he : m.step P l = .ok m') :
    JoinStep m.joinView m'.joinView ∧ KeepsControl m m' := by
  cases l with
  | call act al =>
    obtain ⟨c, hc, hkeep⟩ := (Option.any_eq_true _ _).mp hk
    obtain ⟨act', al', u, ret, g, hl, hcpu, hn⟩ := calls_iff.mpr hc
    cases hl
    rw [step_call hcpu hn] at he
    cases c with
    | pause =>
      obtain rfl := Except.ok.inj he
      have hst : Stays m { m with g := g, cpu := .user (ret none) } :=
        ⟨rfl, rfl, rfl, rfl, rfl, rfl, rfl⟩
      exact ⟨hst.quiet ha (by rw [hcpu]; rfl) (.refl _), hst.keepsControl⟩
    | create v => exact joinStep_create hinv ha hcpu hn ho.spares he
    | join id => exact (joinStep_enter ha hcpu hn ho.block he).imp_right Stays.keepsControl
    | primInit | lockCreate | semCreate | lockDestory p | semDestory p =>
      exact (joinStep_prims ha hcpu rfl he).imp_right Stays.keepsControl
    | _ => cases hkeep
  | turn =>
    simp only [keepsControl] at hk
    split at hk
    · rename_i cur new id u hcpu
      exact (joinStep_leave ha hcpu hk he).imp_right Stays.keepsControl
    · cases hk
  | env e =>
    simp only [step] at he
    split at he
    · cases he
    · rename_i g hg
      obtain rfl := Except.ok.inj he
      have hst : Stays m { m with g := g } := ⟨rfl, rfl, rfl, rfl, rfl, rfl, rfl⟩
      exact ⟨hst.quiet ha rfl (.refl _), hst.keepsControl⟩
  | scribble t junk =>
    simp only [step] at he
    split at he
    · cases he
    · rename_i hlive
      obtain rfl := Except.ok.inj he
      refine (joinStep_scribble hinv ha (Bool.eq_false_iff.mpr hlive) fun hw => ?_).imp_right
        Stays.keepsControl
      by_contra hne
      cases hw.symm.trans (ho.spares t (if_neg hne))

end Mach

end Stay

/-! ## Exits -/

/-- The last lines of `thread_exit` switch to a registered thread; with nobody ready this is
thread 0, and `t_running` is left as it is. -/
theorem State.exitSwitch_cases {s s' : State} {tr : Transfer} (he : s.exitSwitch = .ok (s', tr)) :
    ∃ new, tr = .switch new ∧ s.addrs s'.coCurrentId = some new ∧
      (s.readyNum = 0 → s'.coCurrentId = 0 ∧ s'.tRunning = s.tRunning ∧ s'.thread = s.thread) := by
  rw [exitSwitch] at he
  split at he
  · obtain ⟨q, hq, he⟩ := bind_eq_ok he
    obtain ⟨new, hnew, he⟩ := bind_eq_ok he
    obtain ⟨rfl, rfl⟩ := Prod.mk.inj (Except.ok.inj he)
    exact ⟨new, rfl, (getThread_eq_ok hq).trans (deref_eq_ok hnew), fun _ => ⟨rfl, rfl, rfl⟩⟩
  · rename_i hready
    obtain ⟨head, _, he⟩ := bind_eq_ok he
    obtain ⟨q, hq, he⟩ := bind_eq_ok he
    obtain ⟨new, hnew, he⟩ := bind_eq_ok he
    obtain ⟨⟨s₁, found⟩, hs₁, he⟩ := bind_eq_ok he
    obtain ⟨rfl, rfl⟩ := Prod.mk.inj (Except.ok.inj he)
    refine ⟨new, rfl, ?_, fun h0 => absurd h0 hready⟩
    rw [Repr.coCurrentId_of_readyToRunning hs₁]
    exact (getThread_eq_ok hq).trans (deref_eq_ok hnew)

namespace Mach

variable {m m' : Mach U G}

/-- `thread_exit`, and if nobody is ready, thread 0 goes on unnamed. The joiners of the caller are
told before its record is freed. -/
theorem joinStep_exit {al : Alloc} {ret : Option ℕ → U} {g : G} {u : U} (hinv : m.joinView.Inv)
    (ha : m.Alive m.st.coCurrentId) (hcpu : m.cpu = .user u)
    (he : { m with g := g }.call al ret .exit = .ok m') :
    JoinStep m.joinView m'.joinView ∧ m'.created = m.created ∧
      m'.exited = Function.update m.exited m.st.coCurrentId true ∧
      (m.Named → m.st.readyNum = 0 → ¬ m'.Named ∧ m'.st.coCurrentId = 0 ∧ m'.exited 0 = false) := by
  obtain ⟨s, tr, hs, rfl⟩ := finish_eq_ok he
  obtain ⟨cur, s₁, hcur, hmark, hswitch⟩ := State.threadExit_marks hs
  obtain ⟨new, rfl, hnew, hlast⟩ := State.exitSwitch_cases hswitch
  obtain ⟨bs, -, -, -, hwalk⟩ := hinv.walk hcur
  obtain rfl := Except.ok.inj (hmark.symm.trans hwalk)
  have hid : m.st.tId cur = m.st.coCurrentId := (hinv.record _ cur hcur).1
  have haddrs : s.addrs = Function.update m.st.addrs m.st.coCurrentId none := by
    rw [(Schedules.exitSwitch hswitch).keepsJoins.addrs, ← hid]
    rfl
  change Function.update m.st.addrs (m.st.tId cur) none s.coCurrentId = some new at hnew
  rw [hid] at hnew
  have hco : s.coCurrentId ≠ m.st.coCurrentId := by
    intro h
    rw [h, Function.update_self] at hnew
    cases hnew
  rw [Function.update_of_ne hco] at hnew
  have halive : ∀ j, Alive { m with
      g := g, exited := Function.update m.exited m.st.coCurrentId true, st := s,
      cpu := m.ctx new } j ↔ m.Alive j ∧ j ≠ m.st.coCurrentId := by
    intro j
    rcases eq_or_ne j m.st.coCurrentId with rfl | hne
    · simp [Alive]
    · simp [Alive, hne]
  refine ⟨.exit (v := m.joinView) ha hcur ?_ hmark (Schedules.exitSwitch hswitch).keepsJoins halive
    (fun j => ?_) (funext fun j => ?_), rfl, rfl, fun hnamed hready => ?_⟩
  · rw [waits_current ha, hcpu]
    rfl
  · rcases eq_or_ne j m.st.coCurrentId with rfl | hne
    · simp [joinView, transfer]
    · simp [joinView, transfer, hne]
  · rcases eq_or_ne j m.st.coCurrentId with rfl | hne
    · rw [waits_current ha, hcpu]
      exact if_neg fun h => ((halive _).mp h).2 rfl
    · -- whoever goes on continues where its record says
      have hframe : (if s.coCurrentId = j then some (m.ctx new) else (s.addrs j).map m.ctx) =
          m.frameOf j := by
        rw [frameOf, if_neg hne.symm, haddrs, Function.update_of_ne hne]
        split
        · rename_i hj
          rw [← hj, hnew, Option.map_some]
        · rfl
      have hsame : Alive { m with
          g := g, exited := Function.update m.exited m.st.coCurrentId true, st := s,
          cpu := m.ctx new } j ↔ m.Alive j := by
        rw [halive, and_iff_left hne]
      exact if_congr hsame (congrArg (Option.bind · Frame.waits) hframe) rfl
  · obtain ⟨hzero, hrun, hthread⟩ := hlast hready
    change s.tRunning = m.st.tRunning at hrun
    change s.thread = m.st.thread at hthread
    rw [hzero] at hnew hco
    refine ⟨fun h => ?_, hzero, ?_⟩
    · change s.tRunning.map s.thread = s.addrs s.coCurrentId at h
      rw [hrun, hthread, hnamed, hzero, haddrs, Function.update_of_ne hco, hcur] at h
      exact hco (hinv.record_inj hnew (hcur.trans (h.trans hnew)))
    · change Function.update m.exited m.st.coCurrentId true 0 = false
      rw [Function.update_of_ne hco, Bool.eq_false_iff]
      intro hgone
      cases hnew.symm.trans (hinv.gone 0 hgone).1

end Mach

/-! ## Steps that pass control on -/

section Pass

variable {P : Program U G A E} {m m' : Mach U G} {a a' b : AMach U G} {l : Label A E} {i : ℕ}
  {fr : Frame U} {r : Req Addr}

open Sched

namespace Act

/-- A call that leaves the thread inside `thread_join` is a `thread_join`. -/
theorem call_cases {act : A} {al : Alloc} (h : Act P a i (.call act al) b fr r) :
    ∃ u c ret g, a.frame i = .user u ∧ P.next act (a.view i) u a.g = some (c, ret, g) ∧
      ((∃ id, c = .join id) ∨ c.worksOnJoins = false ∧ fr.waits = none) := by
  cases h with
  | @plain _ _ _ c _ _ _ hf hn hr =>
    refine ⟨_, c, _, _, hf, hn, .inr ⟨?_, rfl⟩⟩
    cases c <;> first | rfl | cases hr
  | @primFail _ _ _ c _ _ _ hf hn hc =>
    refine ⟨_, c, _, _, hf, hn, .inr ⟨?_, rfl⟩⟩
    cases c <;> first | rfl | cases hc
  | join hf hn => exact ⟨_, _, _, _, hf, hn, .inl ⟨_, rfl⟩⟩
  | acquire hf hn | release hf hn | releaseAcquire hf hn | semP hf hn | semV hf hn | cvWait hf hn
  | cspaceAlloc hf hn => exact ⟨_, _, _, _, hf, hn, .inr ⟨rfl, rfl⟩⟩

/-- A turn of `thread_join` goes on or ends it; turns of the other loops have nothing to do with
joins. -/
theorem turn_cases (h : Act P a i .turn b fr r) :
    (a.frame i).waits = none ∧ fr.waits = none ∨
      (∃ cur new id u, a.frame i = .join cur new id u) ∧ (fr = a.frame i ∨ r = .stay) := by
  cases h with
  | joinAgain j hf => exact .inr ⟨⟨_, _, _, _, hf⟩, .inl hf.symm⟩
  | joinDone hf => exact .inr ⟨⟨_, _, _, _, hf⟩, .inr rfl⟩
  | acquireSpin hf | acquireSleep hf | acquireDone hf | relAcq hf | semPSpin hf | semPSleep hf
  | semPDone hf | cvSleep hf | cvAcquire hf => exact .inl ⟨by rw [hf]; rfl, rfl⟩

end Act

namespace Sim

theorem running_some (h : Sim P True m a) : ∃ i, a.sched.running = some i := by
  rcases hr : a.sched.running with _ | i
  · exact absurd trivial (h.idle hr).1
  · exact ⟨i, rfl⟩

theorem alive_iff (h : Sim P True m a) (hok : a.Ok) (j : ℕ) :
    m.Alive j ↔ a.sched.place j ≠ .nowhere := by
  rw [Mach.Alive, h.created, h.exited, hok.placed j]

theorem alive_current (h : Sim P True m a) (hok : a.Ok) : m.Alive m.st.coCurrentId := by
  obtain ⟨i, hi⟩ := h.running_some
  rw [h.coCurrentId hi, h.alive_iff hok, place_running hi]
  nofun

theorem lt_maxCapacity (h : Sim P True m a) {j : ℕ} (hj : a.sched.place j ≠ .nowhere) :
    j < maxCapacity := by
  obtain ⟨link, c⟩ := h.repr.core
  exact (c.record j _ (c.addrs j hj)).2.2.1

theorem named (h : Sim P True m a) : m.Named := by
  obtain ⟨link, c⟩ := h.repr.core
  obtain ⟨i, hi⟩ := h.running_some
  obtain ⟨hrun, hco⟩ := c.running i hi
  rw [Mach.Named, hrun, hco, c.addrs i (by simp [place_running hi])]
  rfl

/-- The frames of the machine are those of the abstract machine, for the threads that are alive. -/
theorem waits_eq (h : Sim P True m a) (hok : a.Ok) (j : ℕ) (hj : m.Alive j) :
    m.joinView.waits j = (a.frame j).waits := by
  obtain ⟨link, c⟩ := h.repr.core
  have hp := (h.alive_iff hok j).mp hj
  have hframe : m.frameOf j = some (a.frame j) := by
    rw [Mach.frameOf]
    split
    · rename_i hco
      obtain ⟨i, hi⟩ := h.running_some
      obtain rfl : i = j := (c.running i hi).2.symm.trans hco
      rw [h.cpu i hi]
    · rename_i hco
      have haddr := c.addrs j hp
      rw [haddr, Option.map_some, h.ctx j _ hp (fun hr => hco (c.running j hr).2) haddr]
  simp only [Mach.joinView, if_pos hj, hframe]
  rfl

theorem waits_of_not_alive {j : ℕ} (hj : ¬ m.Alive j) : m.joinView.waits j = none := by
  simp only [Mach.joinView, if_neg hj]

/-- The same threads are inside `thread_join`, if the frames of those who stay agree about it and
those who come or go are not inside. -/
theorem waits_same (h : Sim P True m a) (hok : a.Ok) (h' : Sim P True m' a') (hok' : a'.Ok)
    (hold : ∀ j, m.Alive j → m'.Alive j → (a'.frame j).waits = (a.frame j).waits)
    (hleft : ∀ j, m.Alive j → ¬ m'.Alive j → (a.frame j).waits = none)
    (hnew : ∀ j, ¬ m.Alive j → m'.Alive j → (a'.frame j).waits = none) :
    m'.joinView.waits = m.joinView.waits := by
  funext j
  by_cases hj : m.Alive j <;> by_cases hj' : m'.Alive j
  · rw [h.waits_eq hok j hj, h'.waits_eq hok' j hj', hold j hj hj']
  · rw [h.waits_eq hok j hj, waits_of_not_alive hj', hleft j hj hj']
  · rw [waits_of_not_alive hj, h'.waits_eq hok' j hj', hnew j hj hj']
  · rw [waits_of_not_alive hj, waits_of_not_alive hj']

/-- A step of the running thread that works on no joins, while nobody is created and nobody
exits. -/
theorem joinStep_quiet (h : Sim P True m a) (hok : a.Ok) (h' : Sim P True m' a') (hok' : a'.Ok)
    (hplace : ∀ j, a'.sched.place j ≠ .nowhere ↔ a.sched.place j ≠ .nowhere)
    (hexited : a'.exited = a.exited) (hframe : a'.frame = Function.update a.frame i fr)
    (hfr : fr.waits = (a.frame i).waits) (hst : KeepsJoins m.st m'.st) :
    JoinStep m.joinView m'.joinView := by
  have halive : ∀ j, m'.Alive j ↔ m.Alive j := fun j => by
    rw [h'.alive_iff hok', h.alive_iff hok, hplace]
  refine .quiet (funext fun j => propext (halive j)) (funext fun j => ?_) ?_ hst
  · simp only [Mach.joinView, h'.exited, h.exited, hexited]
  · refine h.waits_same hok h' hok' (fun j _ _ => ?_) (fun j hj hj' => ?_) (fun j hj hj' => ?_)
    · rw [hframe]
      rcases eq_or_ne j i with rfl | hne
      · rw [Function.update_self, hfr]
      · rw [Function.update_of_ne hne]
    · exact absurd ((halive j).mpr hj) hj'
    · exact absurd ((halive j).mp hj') hj

/-- `thread_resume` does not resume the running thread, by its first assertion. -/
theorem ne_of_threadResume (h : Sim P True m a) (hi : a.sched.running = some i) {k : ℕ} {s : State}
    {tr : Transfer} (he : m.st.threadResume k = .ok (s, tr)) : k ≠ i := by
  obtain ⟨link, c⟩ := h.repr.core
  have hpi : a.sched.place i ≠ .nowhere := by simp [place_running hi]
  obtain ⟨run, hrun, he⟩ := bind_eq_ok he
  obtain ⟨_, hcheck, -⟩ := bind_eq_ok he
  rw [(c.running i hi).1, deref_some] at hrun
  obtain rfl := Except.ok.inj hrun
  have hne := check_eq_ok hcheck
  rw [c.tId hpi] at hne
  rintro rfl
  simp at hne

/-- A turn of `thread_join` that does not end it: another thread is resumed, and the caller stays
inside. -/
theorem joinStep_again (h : Sim P True m a) (hok : a.Ok) (h' : Sim P True m' a') (hok' : a'.Ok)
    {cur new : Addr} {id : ℕ} {u : U} (hi : a.sched.running = some i)
    (hf : a.frame i = .join cur new id u) (hj : (m.st.join cur).any m.st.joinable = false)
    (hplace : ∀ j, a'.sched.place j ≠ .nowhere ↔ a.sched.place j ≠ .nowhere)
    (hexited : a'.exited = a.exited) (hframe : a'.frame = Function.update a.frame i fr)
    (hfr : fr = a.frame i ∨ a'.sched = a.sched) (he : m.turn = .ok m') :
    JoinStep m.joinView m'.joinView := by
  simp only [Mach.turn, (h.cpu i hi).trans hf] at he
  obtain ⟨⟨s, tu⟩, hs, he⟩ := bind_eq_ok he
  obtain ⟨b, hb, ⟨hjb, -⟩ | ⟨-, k, tr, rfl, hk⟩⟩ := State.threadJoinTurn_cases hs
  · rw [hb] at hj
    cases hj.symm.trans hjb
  · obtain rfl := Except.ok.inj he
    rcases hfr with rfl | hsame
    · refine h.joinStep_quiet hok h' hok' hplace hexited hframe rfl ?_
      rw [Mach.transfer_st]
      exact (Schedules.threadResume hk).keepsJoins
    · -- another thread runs afterwards
      have hco := h'.coCurrentId (hsame ▸ hi)
      rw [Mach.transfer_st] at hco
      exact absurd (hco.symm.trans (Repr.coCurrentId_of_threadResume hk)).symm
        (h.ne_of_threadResume hi hk)

/-- **Steps that pass control on**, or that work on no joins. For these the abstract machine says
what happens to the frames. -/
theorem joinStep (h : Sim P True m a) (hok : a.Ok) (h' : Sim P True m' a') (hinv : m.joinView.Inv)
    (hk : m.keepsControl P l = false) (he : m.step P l = .ok m') (hs : AStep P a l a') :
    JoinStep m.joinView m'.joinView := by
  have hok' := hs.ok hok
  -- a call of the abstract machine is the call of the machine
  have hcall : ∀ {i u act al c ret g}, a.sched.running = some i → a.frame i = .user u →
      P.next act (a.view i) u a.g = some (c, ret, g) → l = .call act al →
      m.callOf P l = some c ∧ m.cpu = .user u ∧ { m with g := g }.call al ret c = .ok m' := by
    rintro i u act al c ret g hi hf hn rfl
    have hcpu : m.cpu = .user u := (h.cpu i hi).trans hf
    rw [← h.view hi, ← h.g] at hn
    refine ⟨by simp [Mach.callOf, hcpu, hn], hcpu, ?_⟩
    rwa [Mach.step_call hcpu hn] at he
  cases hs with
  | @act i _ b fr r sched hi hact hstep =>
    obtain ⟨-, -, -, -, hexited, hr⟩ := hact.data
    have hplace : ∀ j, sched.place j ≠ .nowhere ↔ a.sched.place j ≠ .nowhere := fun j => by
      rw [hstep.placed_iff hi, and_iff_left fun _ => hr]
    cases l with
    | call act al =>
      obtain ⟨u, c, ret, g, hf, hn, hc⟩ := hact.call_cases
      obtain ⟨hcallOf, -, he⟩ := hcall hi hf hn rfl
      rcases hc with ⟨id, rfl⟩ | ⟨hc, hfr⟩
      · simp [Mach.keepsControl, hcallOf, Call.keepsControl] at hk
      · refine h.joinStep_quiet hok h' hok' hplace hexited rfl ?_ (Mach.call_keepsJoins hc he)
        rw [hf, hfr]
        rfl
    | turn =>
      rcases hact.turn_cases with ⟨hw, hfr⟩ | ⟨⟨cur, new, id, u, hf⟩, hfr⟩
      · refine h.joinStep_quiet hok h' hok' hplace hexited rfl (hfr.trans hw.symm) ?_
        exact Mach.turn_keepsJoins (by rw [h.cpu i hi, hw]) he
      · refine h.joinStep_again hok h' hok' hi hf ?_ hplace hexited rfl ?_ he
        · simpa [Mach.keepsControl, h.cpu i hi, hf] using hk
        · rcases hfr with rfl | rfl
          · exact .inl rfl
          · exact .inr hstep.stay_eq
    | env e => cases hk
    | scribble t junk => cases hk
  | exit hi hf hn hstep =>
    obtain ⟨-, hcpu, he⟩ := hcall hi hf hn rfl
    exact (Mach.joinStep_exit hinv (h.alive_current hok) hcpu he).1
  | create hi hf hn => simp [Mach.keepsControl, (hcall hi hf hn rfl).1, Call.keepsControl] at hk
  | notCreated hi hf hn => simp [Mach.keepsControl, (hcall hi hf hn rfl).1, Call.keepsControl] at hk
  | @primMade i u act al c ret g k p hi hf hn hc =>
    have hc' : c.keepsControl = true := by cases c <;> first | rfl | cases hc
    simp [Mach.keepsControl, (hcall hi hf hn rfl).1, hc'] at hk
  | primGone hi hf hn hc =>
    simp only [Mach.keepsControl, (hcall hi hf hn rfl).1, Option.any_some] at hk
    rcases hc with ⟨rfl, -⟩ | ⟨rfl, -⟩ <;> cases hk
  | env => cases hk

end Sim

end Pass

/-! ## Whole runs -/

section Runs

variable {P : Program U G A E} {m m' : Mach U G} {a a' : AMach U G} {l : Label A E}

/-- The invariant of orderly runs: the joins are in order, and either the queues are too, or thread
0 goes on although `t_running` does not name it. -/
structure Mach.InOrder (P : Program U G A E) (m : Mach U G) : Prop where
  joins : m.joinView.Inv
  main : m.created 0 = true
  exited : ∀ i, m.exited i = true → m.created i = true
  cap : ∀ i, m.created i = true → i < maxCapacity
  queues : (∃ a, Reach P.aruns a ∧ Sim P True m a) ∨ ¬ m.Named ∧ m.Alive m.st.coCurrentId

namespace Mach

theorem keepsControl_of_exit (h : m.Calls P l .exit) : m.keepsControl P l = false := by
  obtain ⟨act, al, u, ret, g, rfl, hcpu, hn⟩ := h
  simp [Mach.keepsControl, callOf, hcpu, hn, Call.keepsControl, Call.worksOnPrims]

/-- A ready thread, or nobody, gets control, so the step is calm. -/
theorem calm_of_orderly (ho : Orderly P m l) (hx : m.Calls P l .exit → m.st.readyNum ≠ 0) :
    Calm P True m l :=
  ⟨fun id hid => .inl (ho.resumes id hid), fun hc h0 => absurd h0 (hx hc)⟩

theorem InOrder.alive (h : m.InOrder P) : m.Alive m.st.coCurrentId := by
  rcases h.queues with ⟨a, ha, hsim⟩ | ⟨-, halive⟩
  · exact hsim.alive_current ha.ok
  · exact halive

theorem InOrder.boot {mem : State} (hb : Blank mem) {t link : Addr} {g : G} (hg : P.init g)
    (hc : (Mach.boot P mem t link g).CleanStart) : (Mach.boot P mem t link g).InOrder P := by
  have hmain : (mem.threadInitial t link).addrs 0 = some t := rfl
  obtain ⟨hstatus, hjoined⟩ := hc t hmain
  have hzero : ∀ i r, (mem.threadInitial t link).addrs i = some r → i = 0 ∧ r = t := by
    intro i r hr
    rcases eq_or_ne i 0 with rfl | hne
    · exact ⟨rfl, Option.some.inj (hr.symm.trans hmain)⟩
    · change Function.update (fun _ => none) 0 (some t) i = some r at hr
      rw [Function.update_of_ne hne] at hr
      cases hr
  have hwaits : ∀ i, (Mach.boot P mem t link g).joinView.waits i = none := by
    intro i
    have hframe : ((Mach.boot P mem t link g).frameOf i).bind Frame.waits = none := by
      rw [frameOf]
      split
      · rfl
      · cases (Mach.boot P mem t link g).st.addrs i <;> rfl
    simp only [joinView, hframe, ite_self]
  have halone : ∀ new, ¬ (Mach.boot P mem t link g).joinView.Awaited new := by
    rintro new ⟨i, cur, id, hw⟩
    cases (hwaits i).symm.trans hw
  refine ⟨⟨?_, ?_, nofun, ?_, ?_, ?_, ?_, [], Nat.zero_le _, ?_⟩, rfl, nofun, ?_, .inl ?_⟩
  · intro i r hr
    obtain ⟨rfl, rfl⟩ := hzero i r hr
    exact ⟨Function.update_self .., Function.update_self .., Nat.one_pos⟩
  · rintro i ⟨hi, -⟩
    obtain rfl : i = 0 := by simpa [Mach.boot] using hi
    exact ⟨t, hmain⟩
  · intro i cur new id hw
    cases (hwaits i).symm.trans hw
  · intro i r _ hr _
    obtain ⟨rfl, rfl⟩ := hzero i r hr
    exact Function.update_self ..
  · rintro new (⟨i, hr⟩ | hw)
    · obtain ⟨rfl, rfl⟩ := hzero i new hr
      refine ⟨[], ?_, fun b => ⟨nofun, ?_⟩⟩
      · rw [show (Mach.boot P mem new link g).joinView.st.joined new = _ from hjoined]
        exact .nil _
      · rintro ⟨i, cur, id, hw, -⟩
        exact absurd ⟨i, cur, id, hw⟩ (halone new)
    · exact absurd hw (halone new)
  · intro i j cur new id cur' new' id' b hw
    cases (hwaits i).symm.trans hw
  · intro b hlive
    cases (hb.blockLive b).symm.trans hlive
  · intro i hi
    obtain rfl : i = 0 := by simpa [Mach.boot] using hi
    decide
  · obtain ⟨a, ha, hsim⟩ := Sim.boot hb hg fun _ : True => hstatus
    exact ⟨a, .init ha, hsim⟩

/-- A step that keeps control keeps the order, whether or not the running thread has its name. -/
theorem InOrder.keepsControl (h : m.InOrder P) (ho : Orderly P m l)
    (hk : m.keepsControl P l = true) (he : m.step P l = .ok m') : m'.InOrder P := by
  obtain ⟨hstep, hcontrol⟩ := joinStep_of_keepsControl h.joins h.alive ho hk he
  refine ⟨h.joins.next hstep, hcontrol.created 0 h.main, fun i hi => ?_, fun i hi => ?_, ?_⟩
  · exact hcontrol.created i (h.exited i (hcontrol.exited ▸ hi))
  · exact (hcontrol.cap i hi).elim (h.cap i) fun hlt => hlt
  · rcases h.queues with ⟨a, ha, hsim⟩ | ⟨hnot, halive⟩
    · left
      obtain ⟨a', hsim', rfl | hs⟩ := hsim.step (calm_of_orderly ho fun hx => by
        cases hk.symm.trans (keepsControl_of_exit hx)) he
      · exact ⟨_, ha, hsim'⟩
      · exact ⟨_, ha.step hs, hsim'⟩
    · refine .inr ⟨hcontrol.unnamed hnot, ?_⟩
      rw [hcontrol.current]
      exact ⟨hcontrol.created _ halive.1, hcontrol.exited ▸ halive.2⟩

/-- So does the `thread_exit` of the last ready thread: thread 0 goes on without its name. -/
theorem InOrder.lastExit (h : m.InOrder P) (hnamed : m.Named) (hx : m.Calls P l .exit)
    (hready : m.st.readyNum = 0) (he : m.step P l = .ok m') : m'.InOrder P := by
  obtain ⟨act, al, u, ret, g, rfl, hcpu, hn⟩ := hx
  rw [step_call hcpu hn] at he
  obtain ⟨hstep, hcreated, hexited, hzero⟩ := joinStep_exit h.joins h.alive hcpu he
  obtain ⟨hnot, hco, halive⟩ := hzero hnamed hready
  refine ⟨h.joins.next hstep, hcreated ▸ h.main, fun i hi => ?_, hcreated ▸ h.cap,
    .inr ⟨hnot, ?_⟩⟩
  · rw [hcreated]
    rw [hexited] at hi
    rcases eq_or_ne i m.st.coCurrentId with rfl | hne
    · exact h.alive.1
    · rw [Function.update_of_ne hne] at hi
      exact h.exited i hi
  · rw [hco, Alive, hcreated]
    exact ⟨h.main, halive⟩

/-- **One step** of an orderly run keeps the order. While thread 0 goes on without its name only
steps that keep control are orderly; in all other states the step is one of the abstract machine, or
the last exit. -/
theorem InOrder.step (h : m.InOrder P) (ho : Orderly P m l) (he : m.step P l = .ok m') :
    m'.InOrder P := by
  rcases hk : m.keepsControl P l with _ | _
  · obtain ⟨a, ha, hsim⟩ : ∃ a, Reach P.aruns a ∧ Sim P True m a := by
      rcases h.queues with hq | ⟨hnot, -⟩
      · exact hq
      · rcases ho.named with hn | hn
        · exact absurd hn hnot
        · cases hn.symm.trans hk
    by_cases hlast : m.Calls P l .exit ∧ m.st.readyNum = 0
    · exact h.lastExit hsim.named hlast.1 hlast.2 he
    · have hcalm : Calm P True m l := calm_of_orderly ho fun hx h0 => hlast ⟨hx, h0⟩
      obtain ⟨a', hsim', hs⟩ := hsim.step_of_ne hcalm he fun t junk hl => by
        rw [hl] at hk
        cases hk
      refine ⟨h.joins.next (hsim.joinStep ha.ok hsim' h.joins hk he hs), ?_, fun i hi => ?_,
        fun i hi => ?_, .inl ⟨a', ha.step hs, hsim'⟩⟩
      · rw [hsim'.created]
        exact hs.created_kept (hsim.created ▸ h.main)
      · rw [hsim'.exited] at hi
        rw [hsim'.created]
        exact (hs.ok ha.ok).exited i hi
      · rw [hsim'.created] at hi
        rcases hs.created_cases hi with hold | hp
        · exact h.cap i (hsim.created ▸ hold)
        · exact hsim'.lt_maxCapacity hp
  · exact h.keepsControl ho hk he

end Mach

theorem Reach.inOrder (hm : Reach P.orderly m) : m.InOrder P := by
  apply hm.invariant
  · rintro m ⟨⟨mem, t, link, g, hb, hg, rfl⟩, hc⟩
    exact .boot hb hg hc
  · intro m l m' _ h hs
    exact h.step hs.1 hs.2

/-! ## The law -/

/-- `b` is the block of a thread that is inside `thread_join` on thread `id`. -/
def Mach.JoinedOn (m : Mach U G) (id : ℕ) (b : Addr) : Prop :=
  ∃ j cur new u, m.Alive j ∧ m.frameOf j = some (.join cur new id u) ∧ m.st.join cur = some b

/-- **The law of `thread_join` and `thread_exit`**: a join returns exactly when its target has
exited, an exit tells exactly its joiners, and a join on a thread that has exited returns at
once. -/
structure JoinLaw (P : Program U G A E) (m : Mach U G) : Prop where
  /-- The walk of `thread_exit` ends. It visits the blocks of the threads that are joined on the
  caller, each of them once and no others, and makes them joinable, -/
  walk : ∀ t, m.st.addrs m.st.coCurrentId = some t →
    ∃ bs, m.st.walk (m.st.blockNum + 1) (m.st.joined t).start = bs ∧ bs.Nodup ∧
      (∀ b, b ∈ bs ↔ m.JoinedOn m.st.coCurrentId b) ∧
      m.st.markJoinable (m.st.blockNum + 1) (m.st.joined t).start =
        .ok { m.st with joinable := fun b => m.st.joinable b || decide (b ∈ bs) }
  /-- and the rest of `thread_exit` makes nothing joinable. -/
  exit : ∀ l m', m.Calls P l .exit → m.step P l = .ok m' → ∀ b, m'.st.joinable b = true ↔
    m.st.joinable b = true ∨ m.JoinedOn m.st.coCurrentId b
  /-- `thread_join` comes back before its loop if and only if the thread has exited, -/
  enter : ∀ l id m', Orderly P m l → m.Calls P l (.join id) → m.created id = true →
    m.step P l = .ok m' → (m'.cpu.waits = none ↔ m.exited id = true)
  /-- and then it does come back. -/
  gone : ∀ l id, m.Calls P l (.join id) → m.exited id = true →
    ∃ m', m.step P l = .ok m' ∧ m'.cpu.waits = none ∧ m'.st = m.st
  /-- The loop ends, and without a failed assertion, once the thread has exited, -/
  loop : ∀ cur new id u, m.cpu = .join cur new id u → m.exited id = true →
    ∃ s, m.st.threadJoinTurn cur new id = .ok (s, .done) ∧ s.join cur = none
  /-- and not before. -/
  waits : ∀ cur new id u s, m.cpu = .join cur new id u → m.exited id = false →
    m.st.threadJoinTurn cur new id ≠ .ok (s, .done)
  /-- Outside of `thread_join` a thread has no block. -/
  null : ∀ t, m.st.addrs m.st.coCurrentId = some t → m.cpu.waits = none → m.st.join t = none

namespace Mach.InOrder

variable {t cur new : Addr} {id : ℕ} {u : U}

theorem waits_iff {i : ℕ} : m.joinView.waits i = some (cur, new, id) ↔
    m.Alive i ∧ ∃ u, m.frameOf i = some (.join cur new id u) := by
  simp only [joinView]
  split
  · rename_i hi
    rw [and_iff_right hi]
    rcases m.frameOf i with _ | fr
    · simp
    · simp [Frame.waits_eq_some]
  · rename_i hi
    simp [hi]

/-- The blocks in the list of the running thread's record are those of its joiners, so its exit
tells the right ones. -/
theorem hangs_iff (h : m.InOrder P) (ht : m.st.addrs m.st.coCurrentId = some t)
    (b : Addr) : m.joinView.Hangs t b ↔ m.JoinedOn m.st.coCurrentId b := by
  constructor
  · rintro ⟨j, cur, id, hw, hb⟩
    obtain ⟨halive, u, hf⟩ := waits_iff.mp hw
    obtain ⟨-, -, c, -, -, ⟨hid, -⟩ | ⟨-, hfreed, -⟩⟩ := h.joins.waits j cur t id hw
    · obtain rfl := h.joins.record_inj hid ht
      exact ⟨j, cur, t, u, halive, hf, hb⟩
    · cases hfreed.symm.trans (h.joins.record _ t ht).2.1
  · rintro ⟨j, cur, new, u, halive, hf, hb⟩
    have hw : m.joinView.waits j = some (cur, new, m.st.coCurrentId) :=
      waits_iff.mpr ⟨halive, u, hf⟩
    obtain ⟨-, -, c, -, -, ⟨hid, -⟩ | ⟨hgone, -⟩⟩ := h.joins.waits j cur new _ hw
    · obtain rfl : new = t := Option.some.inj (hid.symm.trans ht)
      exact ⟨j, cur, _, hw, hb⟩
    · cases ht.symm.trans (h.joins.gone _ hgone).1

/-- The block of the running thread tells whether the thread it waits for has exited. -/
theorem announced (h : m.InOrder P) (hcpu : m.cpu = .join cur new id u) :
    m.joinView.waits m.st.coCurrentId = some (cur, new, id) ∧
      ∃ b, m.st.join cur = some b ∧ m.st.joinable b = m.exited id := by
  have hw : m.joinView.waits m.st.coCurrentId = some (cur, new, id) := by
    rw [waits_current h.alive, hcpu]
    rfl
  obtain ⟨-, -, b, hb, -, hann⟩ := h.joins.waits _ cur new id hw
  refine ⟨hw, b, hb, ?_⟩
  rcases hann with ⟨hid, hj⟩ | ⟨hgone, -, hj⟩
  · refine hj.trans (Eq.symm (Bool.eq_false_iff.mpr fun hx => ?_))
    cases hid.symm.trans (h.joins.gone id hx).1
  · exact hj.trans (Eq.symm hgone)

/-- A thread that has exited can be joined on at once: the call returns, and changes nothing in the
memory. -/
theorem join_gone (h : m.InOrder P) (hc : m.Calls P l (.join id)) (hx : m.exited id = true) :
    ∃ m', m.step P l = .ok m' ∧ m'.cpu.waits = none ∧ m'.st = m.st := by
  obtain ⟨act, al, u, ret, g, rfl, hcpu, hn⟩ := hc
  obtain ⟨t, ht⟩ := h.joins.alive _ h.alive
  obtain ⟨hno, hlt⟩ := h.joins.gone id hx
  change m.st.addrs _ = _ at ht hno
  have hjoin : m.st.join t = none := by
    refine h.joins.idle _ t h.alive ht ((waits_current h.alive).trans ?_)
    rw [hcpu]
    rfl
  have hcap : id < maxCapacity := h.cap id (h.exited id hx)
  have hcur : m.st.coCurrentId < maxCapacity := h.cap _ h.alive.1
  have henter : m.st.threadJoinEnter al id = .ok (m.st, none) := by
    simp only [State.threadJoinEnter, State.getThread, if_pos hcur, if_pos hcap, ht, hno,
      deref_some, bind, Except.bind, check, hjoin, beq_self_eq_true, if_true]
    exact if_neg (Nat.not_le.mpr hlt)
  refine ⟨{ m with g := g, cpu := .user (ret none) }, ?_, rfl, rfl⟩
  rw [step_call hcpu hn]
  change (m.st.threadJoinEnter al id >>= _) = _
  rw [henter]
  rfl

end Mach.InOrder

/-- **Joins of orderly runs** obey the law, in every state they reach: `thread_exit` makes exactly
those joinable who are joined on the caller, and `thread_join` comes back when the thread that it
waits for has exited, and not before. -/
theorem join_law (hm : Reach P.orderly m) : JoinLaw P m := by
  have h := hm.inOrder
  refine ⟨?_, ?_, ?_, fun l id => h.join_gone, ?_, ?_, ?_⟩
  · intro t ht
    obtain ⟨bs, hnodup, hbs, hwalk, hmark⟩ := h.joins.walk ht
    exact ⟨bs, hwalk, hnodup, fun b => (hbs b).trans (h.hangs_iff ht b), hmark⟩
  · rintro _ m' ⟨act, al, u, ret, g, rfl, hcpu, hn⟩ he b
    rw [Mach.step_call hcpu hn] at he
    obtain ⟨s, tr, hs, rfl⟩ := Mach.finish_eq_ok he
    obtain ⟨cur, s₁, hcur, hmark, hswitch⟩ := State.threadExit_marks hs
    obtain ⟨bs, -, hbs, -, hwalk⟩ := h.joins.walk hcur
    obtain rfl := Except.ok.inj (hmark.symm.trans hwalk)
    have hjoin := (Schedules.exitSwitch hswitch).keepsJoins.joinable
    rw [Mach.transfer_st, ← h.hangs_iff hcur, ← hbs, hjoin]
    change (m.st.joinable b || decide (b ∈ bs)) = true ↔ _
    rw [Bool.or_eq_true, decide_eq_true_iff]
  · rintro _ id m' ho ⟨act, al, u, ret, g, rfl, hcpu, hn⟩ hcreated he
    have hcall : m.callOf P (.call act al) = some (.join id) := by simp [Mach.callOf, hcpu, hn]
    rw [Mach.step_call hcpu hn] at he
    obtain ⟨⟨s, q⟩, hs, he⟩ := bind_eq_ok he
    obtain ⟨cur, hcur, ⟨rfl, rfl, -, ⟨hno, -⟩ | ⟨hblock, hsome⟩⟩ |
      ⟨new, b, caller, hnew, -, -, rfl, -⟩⟩ := State.threadJoinEnter_cases hs
    · -- an id that has been given to a thread, and is free again
      obtain rfl := Except.ok.inj he
      refine ⟨fun _ => ?_, fun _ => rfl⟩
      by_contra hx
      obtain ⟨t, ht⟩ := h.joins.alive id ⟨hcreated, Bool.eq_false_iff.mpr hx⟩
      cases ht.symm.trans hno
    · have hb := ho.block
      obtain ⟨new, hnew⟩ := Option.ne_none_iff_exists'.mp hsome
      change m.st.addrs id = some new at hnew
      simp [Mach.hasBlock, hcall, hnew, hblock] at hb
    · obtain rfl := Except.ok.inj he
      refine ⟨fun hw => ?_, fun hx => ?_⟩
      · cases hw
      · cases hnew.symm.trans (h.joins.gone id hx).1
  · intro cur new id u hcpu hx
    obtain ⟨hw, b, hb, hj⟩ := h.announced hcpu
    obtain ⟨ys, zs, n', q', -, -, -, -, hdel⟩ := h.joins.deleteJoinBlock_ok hw hb
    refine ⟨_, State.threadJoinTurn_done hb (hj.trans hx) hdel, Function.update_self ..⟩
  · intro cur new id u s hcpu hx hdone
    obtain ⟨-, b, hb, hj⟩ := h.announced hcpu
    obtain ⟨c, hc, ⟨hjc, -⟩ | ⟨-, k, tr, htu, -⟩⟩ := State.threadJoinTurn_cases hdone
    · obtain rfl := Option.some.inj (hb.symm.trans hc)
      cases hjc.symm.trans (hj.trans hx)
    · cases htu
  · intro t ht hw
    exact h.joins.idle _ t h.alive ht ((Mach.waits_current h.alive).trans hw)

/-- Thread 0 joins on thread 1, which joins on thread 2. -/
def Script.chain : Script :=
  .call (.create (.call (.join 2) <| .call .exit .done)) <|
  .call (.create (.call .exit .done)) <|
  .call (.join 1) <|
  .call (.join 2) .done

theorem join_law_chain : ∃ m : Mach Script Unit,
    (m.st.coCurrentId = 0 ∧ m.cpu.waits = some (0, 1, 1) ∧ m.exited 1 = true ∧
      m.exited 2 = true) ∧ JoinLaw Script.chain.program m := by
  have hinit : Script.chain.program.orderly.init Script.chain.boot :=
    ⟨Script.chain.boot_init, fun t _ => ⟨rfl, rfl⟩⟩
  obtain ⟨m, hm, hq⟩ := Mach.exists_of_reaches (T := Script.chain.program.orderly)
    (Orderly Script.chain.program) (fun _ _ _ hok hs => ⟨hok, hs⟩) (.init hinit)
    [.go 1, .go 2, .go 7, .turn, .go 8, .turn, .go 0, .turn, .go 0]
    (fun m => m.st.coCurrentId = 0 ∧ m.cpu.waits = some (0, 1, 1) ∧ m.exited 1 = true ∧
      m.exited 2 = true) (by decide)
  exact ⟨m, hq, join_law hm⟩

/-- Thread 2 joins on thread 1, thread 1 on thread 3, and thread 3 exits. -/
def Script.threaded : Script :=
  .call (.create (.call (.join 3) .done)) <|
  .call (.create (.call (.join 1) .done)) <|
  .call (.create (.call .exit .done)) <|
  .call (.resume 2) .done

/-- Memory in which the `next` field of block 7 happens to be block 8. -/
def State.dirty : State := { State.zero with joinNext := fun b => if b = 7 then some 8 else none }

/-- Thread 1 joins on thread 2, which exits; then thread 3 creates a thread. -/
def Script.recycled : Script :=
  .call (.create (.call (.join 2) .done)) <|
  .call (.create (.call .exit .done)) <|
  .call (.create (.call (.create .done) <| .call .yield .done)) <|
  .call (.resume 1) .done

/-- **Joins break**, with control passed to ready threads only. Thread 3 walks from the block of its
joiner on to that of thread 2, so that `thread_join(1)` returns to thread 2 although thread 1 has
not exited. And when the record of thread 2 is used again before thread 1 has run,
`delete_join_block` does not find the block of thread 1. -/
theorem joins_break :
    (∃ m cur new u s, Reach (Script.threaded.program.clean Careful) m ∧ m.cpu = .join cur new 1 u ∧
        m.exited 1 = false ∧ m.st.threadJoinTurn cur new 1 = .ok (s, .done) ∧
        ¬ JoinLaw Script.threaded.program m) ∧
      ∃ m cur new u, Reach (Script.recycled.program.clean Careful) m ∧ m.cpu = .join cur new 2 u ∧
        m.exited 2 = true ∧ m.fault Script.recycled.program .turn = some .assert ∧
        ¬ JoinLaw Script.recycled.program m := by
  constructor
  · have hinit : (Script.threaded.program.clean Careful).init
        (.boot Script.threaded.program .dirty 0 0 ()) :=
      ⟨⟨.dirty, 0, 0, (), ⟨fun _ => rfl, fun _ => rfl, fun _ => rfl, fun _ => rfl⟩, trivial, rfl⟩,
        fun t _ => ⟨rfl, rfl⟩⟩
    obtain ⟨m, hm, hw, hx, hret⟩ := Mach.exists_of_reaches
      (T := Script.threaded.program.clean Careful)
      (Careful Script.threaded.program) (fun _ _ _ hok hs => ⟨hok, hs⟩) (.init hinit)
      [.go 1, .go 2, .go 3, .go 0, .go 8, .turn, .go 7, .turn, .go 0]
      (fun m => m.cpu.waits = some (2, 1, 1) ∧ m.exited 1 = false ∧
        (m.st.threadJoinTurn 2 1 1).toOption.map Prod.snd = some .done) (by decide)
    obtain ⟨u, hcpu⟩ := Frame.waits_eq_some.mp hw
    obtain ⟨s, hs⟩ : ∃ s, m.st.threadJoinTurn 2 1 1 = .ok (s, .done) := by
      rcases hturn : m.st.threadJoinTurn 2 1 1 with f | ⟨s, tu⟩
      · simp [hturn, Except.toOption] at hret
      · simp only [hturn, Except.toOption, Option.map_some, Option.some.injEq] at hret
        exact ⟨s, hret ▸ rfl⟩
    exact ⟨m, 2, 1, u, s, hm, hcpu, hx, hs, fun h => h.waits 2 1 1 u s hcpu hx hs⟩
  · have hinit : (Script.recycled.program.clean Careful).init Script.recycled.boot :=
      ⟨Script.recycled.boot_init, fun t _ => ⟨rfl, rfl⟩⟩
    obtain ⟨m, hm, hw, hx, hfault⟩ := Mach.exists_of_reaches
      (T := Script.recycled.program.clean Careful)
      (Careful Script.recycled.program) (fun _ _ _ hok hs => ⟨hok, hs⟩) (.init hinit)
      [.go 1, .go 2, .go 3, .go 0, .go 7, .turn, .go 0,
        .call () ⟨some 2, true, true, some 9, some 9, some 9, some 9⟩, .go 0]
      (fun m => m.cpu.waits = some (1, 2, 2) ∧ m.exited 2 = true ∧
        m.fault Script.recycled.program .turn = some .assert) (by decide)
    obtain ⟨u, hcpu⟩ := Frame.waits_eq_some.mp hw
    refine ⟨m, 1, 2, u, hm, hcpu, hx, hfault, fun h => ?_⟩
    obtain ⟨s, hs, -⟩ := h.loop 1 2 2 u hcpu hx
    simp [Mach.fault, Mach.step, Mach.turn, hcpu, hs, bind, Except.bind] at hfault

end Runs

end GreenLib
