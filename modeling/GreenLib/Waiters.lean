import GreenLib.Abstract

/-!
# The waiting loops

`thread_lock_acquire_intern` and `thread_semaphore_P` block a thread in the same way:
test, sleep on the queue of the primitive, test again. The other side makes a unit
available and wakes the head of the queue, which gets the processor at once. A lock is
a semaphore with at most one unit (`AMach.units`).

`Waiters` is the invariant of these loops. It only needs that nobody else sleeps on
the queue, wakes from it or destroys the primitive (`Program.Leaves`), and it holds for
any mixture of well- and ill-behaved callers of acquire, release, P and V:

* a thread waits in the queue exactly if it is asleep in the loop (`queued`, `waits`);
* the threads that went to sleep are those that have come back, then the one that has
  been woken, then those in the queue, in this order (`fifo`);
* while threads wait, there is at most the unit that the woken thread is about to take
  (`units`).
-/

namespace GreenLib

open Sched

variable {U G A E : Type}

/-- A set of locks and semaphores, given by address and kind. The invariant is stated for such a
set, since a program may use other primitives as it likes. -/
structure Watch : Type where
  on : Addr → PrimKind → Prop
  not_plain : ∀ p, ¬ on p .plain

/-- The primitive that a thread sleeps on inside a waiting loop. Before its first sleep a thread in
the loop waits for nothing yet. -/
def Frame.waitsOn : Frame U → Option (Addr × PrimKind)
  | .acquire true l _ => some (l, .lock)
  | .semP true sem _ => some (sem, .semaphore)
  | _ => none

@[simp] theorem Frame.waitsOn_acquire {slept : Bool} {l : Addr} {u : U} :
    (Frame.acquire slept l u).waitsOn = if slept then some (l, .lock) else none := by
  cases slept <;> rfl

@[simp] theorem Frame.waitsOn_semP {slept : Bool} {sem : Addr} {u : U} :
    (Frame.semP slept sem u).waitsOn = if slept then some (sem, .semaphore) else none := by
  cases slept <;> rfl

/-- How many callers the primitive would let through: one or none for a lock, the counter for a
semaphore. -/
def AMach.units (a : AMach U G) (p : Addr) : PrimKind → ℤ
  | .plain => 0
  | .lock => if a.held p = 0 then 1 else 0
  | .semaphore => a.count p

/-- The thread that has been woken from the queue and is about to leave the loop, as a list of at
most one. -/
def AMach.granted (a : AMach U G) (p : Addr) (k : PrimKind) : List ℕ :=
  match a.sched.running with
  | none => []
  | some i => if (a.frame i).waitsOn = some (p, k) then [i] else []

/-- **The loop of one primitive.** What the invariant says about the primitive `p` of kind `k`:
who is in its queue, who has been woken from it, and how many units there are. -/
structure LoopAt (a : AMach U G) (p : Addr) (k : PrimKind) : Prop where
  queued : ∀ j, j ∈ a.sched.waiting p → (a.frame j).waitsOn = some (p, k)
  /-- whoever is inside the loop waits in the queue, or has been woken and finds a unit -/
  waits : ∀ j, a.sched.place j ≠ .nowhere → (a.frame j).waitsOn = some (p, k) →
    a.sched.running = some j ∧ 0 < a.units p k ∨ a.sched.place j = .waiting p
  range : 0 ≤ a.units p k ∧ a.units p k < 2 ^ 31
  fifo : a.blocked p = a.served p ++ a.granted p k ++ a.sched.waiting p
  units : a.sched.waiting p ≠ [] → a.units p k ≤ (a.granted p k).length

/-- **The invariant of the waiting loops** of the primitives in `W`. The first two fields keep the
primitives in being that sleeping threads will come back to; the last one holds primitive by
primitive, so that a step has to be looked at only where it changes something. -/
structure Waiters (W : Watch) (a : AMach U G) : Prop where
  static : ∀ j p k, a.sched.place j ≠ .nowhere → (a.frame j).waitsOn = some (p, k) → W.on p k →
    a.kind p = some k
  cv : ∀ j c l u, a.sched.place j ≠ .nowhere → a.frame j = .cvSleep c l u → a.kind c = some .plain
  loop : ∀ p k, a.kind p = some k → W.on p k → LoopAt a p k

section Units

variable (a : AMach U G) {l q : Addr} {k : PrimKind}

@[simp] theorem units_setLock_self (h v : ℤ) :
    (a.setLock l h v).units l .lock = if v = 0 then 1 else 0 := by
  simp [AMach.units, AMach.setLock]

theorem units_setLock_of_ne (h v : ℤ) (hq : q ≠ l) : (a.setLock l h v).units q k = a.units q k := by
  cases k <;> simp [AMach.units, AMach.setLock, Function.update_of_ne hq]

@[simp] theorem units_setCount_self (v : ℤ) : (a.setCount l v).units l .semaphore = v := by
  simp [AMach.units, AMach.setCount]

theorem units_setCount_of_ne (v : ℤ) (hq : q ≠ l) : (a.setCount l v).units q k = a.units q k := by
  cases k with
  | plain => rfl
  | lock => rfl
  | semaphore => exact Function.update_of_ne hq ..

end Units

/-! ## Discipline -/

/-- Nothing watched is at `p`: the address holds no primitive, or one that does not belong to the
set. -/
def Watch.Off (W : Watch) (kind : Addr → Option PrimKind) (p : Addr) : Prop :=
  ∀ k, kind p = some k → ¬ W.on p k

theorem Watch.off_plain {W : Watch} {kind : Addr → Option PrimKind} {p : Addr}
    (hp : kind p = some .plain) : W.Off kind p := by
  intro k hk
  obtain rfl := Option.some.inj (hp.symm.trans hk)
  exact W.not_plain p

/-- The call does not sleep on a watched primitive, wake from it or destroy it, other than through
the loops. A wait may use plain primitives only. -/
def Call.Leaves (W : Watch) (kind : Addr → Option PrimKind) : Call U → Prop
  | .sleep p => W.Off kind p
  | .wakeup p => W.Off kind p
  | .wakeupWait p => W.Off kind p
  | .cvSignal p => W.Off kind p
  | .releaseAcquire l => W.Off kind l
  | .lockDestory l => W.Off kind l
  | .semDestory sem => W.Off kind sem
  | .cvWait c _ => kind c = some .plain
  | _ => True

/-- All calls of the program leave the watched queues to the loops. This is the discipline under
which the invariant holds. -/
def Program.Leaves (P : Program U G A E) (W : Watch) : Prop :=
  ∀ {act v u g c ret g'}, P.next act v u g = some (c, ret, g') → c.Leaves W v.kind

/-! ## A step of a running thread -/

/-- **A step of the running thread `i`** with the request `r`: no other thread's frame changes,
no primitive appears or disappears, and what `i` waits for afterwards exists. -/
structure Acts (W : Watch) (a a' : AMach U G) (i : ℕ) (r : Req Addr) : Prop where
  running : a.sched.running = some i
  step : Step a.sched i r a'.sched
  frame : ∀ j, j ≠ i → a'.frame j = a.frame j
  kind : a'.kind = a.kind
  static : ∀ p k, (a'.frame i).waitsOn = some (p, k) → W.on p k → a.kind p = some k
  cv : ∀ c l u, a'.frame i = .cvSleep c l u → a.kind c = some .plain

/-- The data of the primitive `p`, if it has the kind `k`, is the same in both states. -/
structure SameData (a a' : AMach U G) (p : Addr) (k : PrimKind) : Prop where
  units : a'.units p k = a.units p k
  blocked : a'.blocked p = a.blocked p
  served : a'.served p = a.served p

section Steps

variable {W : Watch} {a a' : AMach U G} {i j : ℕ} {r : Req Addr} {p : Addr} {k : PrimKind}

theorem granted_eq_nil (h : ∀ j, a.sched.running = some j → (a.frame j).waitsOn ≠ some (p, k)) :
    a.granted p k = [] := by
  unfold AMach.granted
  split
  · rfl
  · rename_i i hi
    exact if_neg (h i hi)

theorem granted_eq (hj : a.sched.running = some j) (hw : (a.frame j).waitsOn = some (p, k)) :
    a.granted p k = [j] := by
  unfold AMach.granted
  rw [hj]
  exact if_pos hw

/-- The running thread is in no queue, so it is none of the threads that wait. -/
theorem ne_of_mem_waiting (hi : a.sched.running = some i) (hj : j ∈ a.sched.waiting p) : j ≠ i := by
  rintro rfl
  cases (place_running hi).symm.trans (place_waiting hj)

namespace Acts

theorem ne_running (h : Acts W a a' i r) (hj : j ≠ i) : a.sched.running ≠ some j := by
  rw [h.running]
  exact fun he => hj (Option.some.inj he).symm

/-- The primitive that a thread waits for after the step exists: it did before, and an action
destroys nothing. -/
theorem kind_of_waitsOn (h : Acts W a a' i r) (hw : Waiters W a)
    (hp : a'.sched.place j ≠ .nowhere) (hf : (a'.frame j).waitsOn = some (p, k))
    (hW : W.on p k) : a'.kind p = some k := by
  rw [h.kind]
  by_cases hj : j = i
  · subst hj
    exact h.static p k hf hW
  · rw [h.frame j hj] at hf
    exact hw.static j p k (h.step.placed h.running hp) hf hW

/-- The condition variable that a thread is about to sleep on after the step exists. The sleep will
therefore not touch a watched queue. -/
theorem kind_of_cvSleep (h : Acts W a a' i r) (hw : Waiters W a) {c l : Addr} {u : U}
    (hp : a'.sched.place j ≠ .nowhere) (hf : a'.frame j = .cvSleep c l u) :
    a'.kind c = some .plain := by
  rw [h.kind]
  by_cases hj : j = i
  · subst hj
    exact h.cv c l u hf
  · rw [h.frame j hj] at hf
    exact hw.cv j c l u (h.step.placed h.running hp) hf

/-- Another thread that is inside a loop was in the queue. It is still there, or the step has woken
it; it did not get into the loop by this step. -/
theorem other (h : Acts W a a' i r) (hl : LoopAt a p k) (hj : j ≠ i)
    (hp : a'.sched.place j ≠ .nowhere) (hf : (a'.frame j).waitsOn = some (p, k)) :
    a.sched.place j = .waiting p ∧
      (a'.sched.place j = .waiting p ∨ a'.sched.running = some j ∧ r.Touches p) := by
  rw [h.frame j hj] at hf
  have hwait : a.sched.place j = .waiting p :=
    (hl.waits j (h.step.placed h.running hp) hf).resolve_left fun hr => h.ne_running hj hr.1
  refine ⟨hwait, ?_⟩
  rcases h.step.moves h.running hj with ⟨_, hsame⟩ | ⟨hrun, _⟩
  · exact .inl (hsame.trans hwait)
  · refine .inr ⟨hrun, ?_⟩
    rcases h.step.running_from h.running hrun hj with hr | ⟨q, hq, hpl⟩
    · cases hwait.symm.trans hr
    · obtain rfl : p = q := Place.waiting.inj (hwait.symm.trans hpl)
      exact hq

/-- If the step does not work on the queue, nobody has been woken from it afterwards: whoever runs
came from elsewhere. -/
theorem granted_nil (h : Acts W a a' i r) (hl : LoopAt a p k)
    (hnew : (a'.frame i).waitsOn ≠ some (p, k)) (hr : ¬ r.Touches p) : a'.granted p k = [] := by
  apply granted_eq_nil
  intro j hj hf
  by_cases hji : j = i
  · exact hnew (hji ▸ hf)
  · obtain ⟨_, hpl | ⟨_, ht⟩⟩ := h.other hl hji (by simp [place_running hj]) hf
    · cases (place_running hj).symm.trans hpl
    · exact hr ht

/-- Nobody has been woken before a step of a thread that is not inside the loop, since at most the
running thread has. -/
theorem granted_nil_before (h : Acts W a a' i r) (hold : (a.frame i).waitsOn ≠ some (p, k)) :
    a.granted p k = [] := by
  apply granted_eq_nil
  intro j hj hf
  obtain rfl := Option.some.inj (h.running.symm.trans hj)
  exact hold hf

/-- The threads that were in the queue before the step are still in the loop. -/
theorem waitsOn_of_mem_waiting (h : Acts W a a' i r) (hl : LoopAt a p k)
    (hj : j ∈ a.sched.waiting p) : (a'.frame j).waitsOn = some (p, k) := by
  rw [h.frame j (ne_of_mem_waiting h.running hj)]
  exact hl.queued j hj

/-- **A primitive that the step does not concern** keeps its loop: the step does not work on its
queue, changes none of its data, and the acting thread is not inside its loop. -/
theorem untouched (h : Acts W a a' i r) (hl : LoopAt a p k) (hr : ¬ r.Touches p)
    (hold : (a.frame i).waitsOn ≠ some (p, k)) (hnew : (a'.frame i).waitsOn ≠ some (p, k))
    (hsame : SameData a a' p k) : LoopAt a' p k := by
  have hwait := h.step.waiting_of_not_touches hr
  have hgr : a'.granted p k = a.granted p k := by
    rw [h.granted_nil hl hnew hr, h.granted_nil_before hold]
  refine ⟨?_, ?_, ?_, ?_, ?_⟩
  · intro j hj
    rw [hwait] at hj
    exact h.waitsOn_of_mem_waiting hl hj
  · intro j hp hf
    have hji : j ≠ i := fun he => hnew (he ▸ hf)
    obtain ⟨_, hpl | ⟨_, ht⟩⟩ := h.other hl hji hp hf
    · exact .inr hpl
    · exact absurd ht hr
  · rw [hsame.units]
    exact hl.range
  · rw [hsame.blocked, hsame.served, hgr, hwait]
    exact hl.fifo
  · rw [hwait, hsame.units, hgr]
    exact hl.units

/-- **A step that concerns one primitive** `p` at most. For the others nothing has to be shown
about the loop, and for `p` only if it is watched. -/
theorem waiters (h : Acts W a a' i r) (hw : Waiters W a) (hk : a.kind p = some k)
    (hr : ∀ q, r.Touches q → q = p)
    (hold : ∀ q k', q ≠ p → (a.frame i).waitsOn ≠ some (q, k'))
    (hnew : ∀ q k', q ≠ p → (a'.frame i).waitsOn ≠ some (q, k'))
    (hother : ∀ q k', q ≠ p → SameData a a' q k')
    (hloop : W.on p k → LoopAt a p k → LoopAt a' p k) : Waiters W a' := by
  refine ⟨fun j p k => h.kind_of_waitsOn hw, fun j c l u => h.kind_of_cvSleep hw, ?_⟩
  intro q k' hkq hW
  rw [h.kind] at hkq
  have hl := hw.loop q k' hkq hW
  by_cases hq : q = p
  · subst hq
    obtain rfl : k = k' := Option.some.inj (hk.symm.trans hkq)
    exact hloop hW hl
  · exact h.untouched hl (fun ht => hq (hr q ht)) (hold q k' hq) (hnew q k' hq) (hother q k' hq)

end Acts

/-! ## The four effects

Nothing happens to a watched primitive (`Waiters.quiet`); a unit is made available and the head of
the queue is woken (`LoopAt.up`); a thread goes to sleep (`LoopAt.sleep`); a thread leaves the loop
with a unit (`LoopAt.down`). -/

/-- **Nothing happens to a watched primitive**: the acting thread neither leaves nor enters a
watched loop, and its request works on no watched queue. -/
theorem Waiters.quiet (hw : Waiters W a) (h : Acts W a a' i r)
    (hr : ∀ p k, a.kind p = some k → W.on p k → ¬ r.Touches p)
    (hold : (a.frame i).waitsOn = none) (hnew : (a'.frame i).waitsOn = none)
    (hsame : ∀ p k, SameData a a' p k) : Waiters W a' := by
  refine ⟨fun j p k => h.kind_of_waitsOn hw, fun j c l u => h.kind_of_cvSleep hw, ?_⟩
  intro p k hk hW
  rw [h.kind] at hk
  exact h.untouched (hw.loop p k hk hW) (hr p k hk hW) (by simp [hold]) (by simp [hnew])
    (hsame p k)

namespace LoopAt

/-- **Who is woken.** The queue of the primitive is empty, or its head runs after the step and
has still to leave the loop. -/
theorem woken (hl : LoopAt a p k) (h : Acts W a a' i (.wakeup p))
    (hnew : (a'.frame i).waitsOn ≠ some (p, k)) :
    a.sched.waiting p = [] ∧ a'.sched.waiting p = [] ∧ a'.granted p k = [] ∨
      ∃ j tl, a.sched.waiting p = j :: tl ∧ a'.sched.waiting p = tl ∧ a'.granted p k = [j] := by
  have hs := h.step
  generalize hsched : a'.sched = sched at hs
  cases hs with
  | wakeupNone hnone =>
    refine .inl ⟨hnone, hnone, granted_eq_nil fun j hj => ?_⟩
    rw [hsched, h.running] at hj
    obtain rfl := Option.some.inj hj
    exact hnew
  | wakeup hcons hb =>
    rename_i j tl
    refine .inr ⟨j, tl, hcons, by rw [hb.waiting, Function.update_self], ?_⟩
    have hj : j ∈ a.sched.waiting p := hcons ▸ List.mem_cons_self
    exact granted_eq (hsched ▸ hb.running) (h.waitsOn_of_mem_waiting hl hj)

/-- **A unit is made available** and the head of the queue is woken: release, and V. If somebody
waited there was no unit, so there is exactly one now, and it is for the woken thread. -/
theorem up (hl : LoopAt a p k) (h : Acts W a a' i (.wakeup p))
    (hold : (a.frame i).waitsOn = none) (hnew : (a'.frame i).waitsOn = none)
    (hpos : 0 < a'.units p k) (hlt : a'.units p k < 2 ^ 31)
    (hone : a.units p k = 0 → a'.units p k = 1)
    (hblocked : a'.blocked p = a.blocked p) (hserved : a'.served p = a.served p) :
    LoopAt a' p k := by
  have hnil : a.granted p k = [] := h.granted_nil_before (by simp [hold])
  have hqueue := hl.woken h (by simp [hnew])
  refine ⟨?_, ?_, ⟨hpos.le, hlt⟩, ?_, ?_⟩
  · intro j hj
    apply h.waitsOn_of_mem_waiting hl
    rcases hqueue with ⟨_, hn, _⟩ | ⟨_, _, hc, ht, _⟩
    · rw [hn] at hj
      cases hj
    · rw [ht] at hj
      exact hc ▸ List.mem_cons_of_mem _ hj
  · intro j hp hf
    have hji : j ≠ i := by
      rintro rfl
      cases hnew.symm.trans hf
    obtain ⟨_, hpl | ⟨hrun, _⟩⟩ := h.other hl hji hp hf
    · exact .inr hpl
    · exact .inl ⟨hrun, hpos⟩
  · have hf := hl.fifo
    rw [hblocked, hserved, hf, hnil]
    rcases hqueue with ⟨h₁, h₂, h₃⟩ | ⟨j, tl, h₁, h₂, h₃⟩
    · rw [h₁, h₂, h₃]
    · rw [h₁, h₂, h₃]
      simp
  · intro hne
    rcases hqueue with ⟨_, h₂, _⟩ | ⟨j, tl, h₁, h₂, h₃⟩
    · exact absurd h₂ hne
    · -- somebody waited, so there was no unit
      have hle := hl.units (by simp [h₁])
      rw [hnil] at hle
      have hzero : a.units p k = 0 := le_antisymm (by simpa using hle) hl.range.1
      rw [hone hzero, h₃]
      simp

/-- A thread that has been woken finds a unit, so one that finds none is not inside the loop. -/
theorem not_woken (hl : LoopAt a p k) (hi : a.sched.running = some i) (hzero : a.units p k = 0) :
    (a.frame i).waitsOn ≠ some (p, k) := by
  intro he
  have hpi := place_running hi
  rcases hl.waits i (by simp [hpi]) he with ⟨_, hpos⟩ | hpl
  · omega
  · cases hpi.symm.trans hpl

/-- **A thread goes to sleep in the loop**, since there is no unit. It goes behind those who wait
already, and the thread that runs next is not one of them. -/
theorem sleep (hl : LoopAt a p k) (h : Acts W a a' i (.sleep p)) (hready : a.sched.ready ≠ [])
    (hzero : a.units p k = 0) (hnew : (a'.frame i).waitsOn = some (p, k))
    (hunits : a'.units p k = a.units p k) (hblocked : a'.blocked p = a.blocked p ++ [i])
    (hserved : a'.served p = a.served p) : LoopAt a' p k := by
  have hpi := place_running h.running
  have hs := h.step
  obtain ⟨j, tl, hr, hb⟩ : ∃ j tl, a.sched.ready = j :: tl ∧
      Becomes a.sched a'.sched (some j) tl
        (Function.update a.sched.waiting p (a.sched.waiting p ++ [i]))
        (Function.update (Function.update a.sched.place i (.waiting p)) j .running) := by
    generalize a'.sched = sched at hs
    cases hs with
    | sleepNone hnone => exact absurd hnone hready
    | sleep _ hcons hb => exact ⟨_, _, hcons, hb⟩
  have hpj : a.sched.place j = .ready := place_ready (hr ▸ List.mem_cons_self)
  have hji : j ≠ i := by
    rintro rfl
    cases hpi.symm.trans hpj
  have hwait : a'.sched.waiting p = a.sched.waiting p ++ [i] := by
    rw [hb.waiting, Function.update_self]
  -- the thread that runs now was ready, so it is not in the loop
  have hready' : ∀ m, m ≠ i → a'.sched.running = some m →
      (a'.frame m).waitsOn ≠ some (p, k) := by
    intro m hmi hm hf
    obtain rfl := Option.some.inj (hb.running.symm.trans hm)
    obtain ⟨hpl, _⟩ := h.other hl hmi (by simp [place_running hm]) hf
    cases hpj.symm.trans hpl
  have hnil : a'.granted p k = [] := by
    apply granted_eq_nil
    intro m hm
    obtain rfl := Option.some.inj (hb.running.symm.trans hm)
    exact hready' j hji hm
  refine ⟨?_, ?_, ?_, ?_, ?_⟩
  · intro m hm
    rw [hwait, List.mem_append, List.mem_singleton] at hm
    rcases hm with hm | rfl
    · exact h.waitsOn_of_mem_waiting hl hm
    · exact hnew
  · intro m hp hf
    refine .inr ?_
    by_cases hmi : m = i
    · rw [hmi, hb.place, Function.update_of_ne hji.symm, Function.update_self]
    · obtain ⟨_, hpl | ⟨hrun, _⟩⟩ := h.other hl hmi hp hf
      · exact hpl
      · exact absurd hf (hready' m hmi hrun)
  · rw [hunits]
    exact hl.range
  · have hf := hl.fifo
    rw [h.granted_nil_before (hl.not_woken h.running hzero)] at hf
    rw [hblocked, hserved, hnil, hwait, hf]
    simp
  · intro _
    rw [hunits, hzero, hnil]
    simp

/-- **A thread leaves the loop** and takes a unit. It has slept and is the one that was woken, or
it has found the unit at its first test. -/
theorem down (hl : LoopAt a p k) (h : Acts W a a' i .stay) (hpos : 0 < a.units p k)
    (hdown : a'.units p k = a.units p k - 1) (hnew : (a'.frame i).waitsOn = none)
    (hblocked : a'.blocked p = a.blocked p)
    (hserved : (a.frame i).waitsOn = some (p, k) ∧ a'.served p = a.served p ++ [i] ∨
      (a.frame i).waitsOn = none ∧ a'.served p = a.served p) : LoopAt a' p k := by
  have hnil : a'.granted p k = [] := h.granted_nil hl (by simp [hnew]) (by simp)
  have hwait : a'.sched.waiting p = a.sched.waiting p := h.step.waiting_of_not_touches (by simp)
  -- who is served now is who had been woken before
  have hgr : a'.served p = a.served p ++ a.granted p k ∧ (a.granted p k).length ≤ 1 := by
    rcases hserved with ⟨hs, hsv⟩ | ⟨hs, hsv⟩
    · rw [granted_eq h.running hs, hsv]
      simp
    · rw [h.granted_nil_before (by simp [hs]), hsv]
      simp
  refine ⟨?_, ?_, ?_, ?_, ?_⟩
  · intro j hj
    rw [hwait] at hj
    exact h.waitsOn_of_mem_waiting hl hj
  · intro j hp hf
    have hji : j ≠ i := by
      rintro rfl
      cases hnew.symm.trans hf
    obtain ⟨_, hpl | ⟨_, ht⟩⟩ := h.other hl hji hp hf
    · exact .inr hpl
    · simp at ht
  · have := hl.range
    omega
  · rw [hblocked, hl.fifo, hgr.1, hnil, hwait, List.append_nil]
  · intro hne
    rw [hwait] at hne
    have hle := hl.units hne
    have hone := hgr.2
    rw [hdown, hnil]
    simp only [List.length_nil, Nat.cast_zero]
    omega

end LoopAt

end Steps

/-! ## Every step -/

/-- What a plain call asks for does not concern a watched queue, if the program leaves these
alone. -/
theorem Call.Leaves.not_touches {W : Watch} {kind : Addr → Option PrimKind} {c : Call U}
    (h : c.Leaves W kind) {sched : Sched Addr} {r : Req Addr} (hr : c.req sched = some r) {p : Addr}
    {k : PrimKind} (hk : kind p = some k) (hW : W.on p k) : ¬ r.Touches p := by
  rintro ht
  cases c <;> simp only [Call.req, Option.some.injEq, reduceCtorEq] at hr <;> subst hr <;>
    rcases ht with ht | ht | ht <;> cases ht <;> exact h k hk hW

section Runs

variable {P : Program U G A E} {W : Watch} {a a' : AMach U G} {i : ℕ} {l : Label A E}

/-- An action and the scheduler step behind it, seen as a step of a running thread. What remains to
be shown is about the new frame. -/
theorem Act.acts {b : AMach U G} {fr : Frame U} {r : Req Addr} {sched : Sched Addr}
    (hact : Act P a i l b fr r) (hi : a.sched.running = some i) (hs : Step a.sched i r sched)
    (hst : ∀ p k, fr.waitsOn = some (p, k) → W.on p k → a.kind p = some k)
    (hcv : ∀ c l u, fr = .cvSleep c l u → a.kind c = some .plain) :
    Acts W a { b with sched := sched, frame := Function.update a.frame i fr } i r := by
  obtain ⟨_, _, hkind, _⟩ := hact.data
  refine ⟨hi, hs, fun j hj => Function.update_of_ne hj .., hkind, ?_, ?_⟩
  · intro p k hf
    exact hst p k (by simpa using hf)
  · intro c l u hf
    exact hcv c l u (by simpa using hf)

namespace Waiters

section Actions

variable {b : AMach U G} {fr : Frame U} {r : Req Addr} {sched : Sched Addr} {p : Addr}
  {k : PrimKind}

/-- **An action in user code** that works on no watched queue and changes no primitive. -/
theorem act_quiet (hw : Waiters W a) (hi : a.sched.running = some i) (hact : Act P a i l b fr r)
    (hs : Step a.sched i r sched) (hr : ∀ p k, a.kind p = some k → W.on p k → ¬ r.Touches p)
    (hold : (a.frame i).waitsOn = none) (hnew : fr.waitsOn = none)
    (hcv : ∀ c l u, fr ≠ .cvSleep c l u)
    (hsame : b.units = a.units ∧ b.blocked = a.blocked ∧ b.served = a.served) :
    Waiters W { b with sched := sched, frame := Function.update a.frame i fr } := by
  obtain ⟨hu, hb, hv⟩ := hsame
  refine hw.quiet (hact.acts hi hs (by simp [hnew]) ?_) hr hold (by simpa using hnew) ?_
  · intro c l u he
    exact absurd he (hcv c l u)
  · intro p k
    exact ⟨congrFun (congrFun hu p) k, congrFun hb p, congrFun hv p⟩

/-- The same for an action that makes no request, for which there is no queue to look at. -/
theorem act_stay (hw : Waiters W a) (hi : a.sched.running = some i)
    (hact : Act P a i l b fr .stay) (hs : Step a.sched i .stay sched)
    (hold : (a.frame i).waitsOn = none) (hnew : fr.waitsOn = none)
    (hcv : ∀ c l u, fr ≠ .cvSleep c l u)
    (hsame : b.units = a.units ∧ b.blocked = a.blocked ∧ b.served = a.served) :
    Waiters W { b with sched := sched, frame := Function.update a.frame i fr } :=
  hw.act_quiet hi hact hs (fun p _ _ _ => Req.not_touches_stay p) hold hnew hcv hsame

/-- **A loop tests again** and nothing has changed: the state is the same as before. -/
theorem act_spin (hw : Waiters W a) (hf : a.frame i = fr) (hs : Step a.sched i .stay sched) :
    Waiters W { a with sched := sched, frame := Function.update a.frame i fr } := by
  cases hs
  rw [← hf, Function.update_eq_self]
  exact hw

/-- **An action that wakes from the queue of one primitive.** If the primitive is watched, a unit
has been made available. -/
theorem act_wakeup (hw : Waiters W a) (hi : a.sched.running = some i)
    (hact : Act P a i l b fr (.wakeup p)) (hs : Step a.sched i (.wakeup p) sched)
    (hk : a.kind p = some k) (hold : (a.frame i).waitsOn = none) (hnew : fr.waitsOn = none)
    (hcv : ∀ c l u, fr = .cvSleep c l u → a.kind c = some .plain)
    (hunits : W.on p k →
      0 < b.units p k ∧ b.units p k < 2 ^ 31 ∧ (a.units p k = 0 → b.units p k = 1))
    (hother : ∀ q k', q ≠ p → b.units q k' = a.units q k') (hblocked : b.blocked = a.blocked)
    (hserved : b.served = a.served) :
    Waiters W { b with sched := sched, frame := Function.update a.frame i fr } := by
  have h : Acts W a { b with sched := sched, frame := Function.update a.frame i fr } i
      (.wakeup p) := hact.acts hi hs (by simp [hnew]) hcv
  refine h.waiters hw hk (fun q hq => Req.touches_wakeup.mp hq) (by simp [hold]) (by simp [hnew])
    ?_ ?_
  · intro q k' hq
    exact ⟨hother q k' hq, congrFun hblocked q, congrFun hserved q⟩
  · intro hW hl
    obtain ⟨hpos, hlt, hone⟩ := hunits hW
    exact hl.up h hold (by simpa using hnew) hpos hlt hone (congrFun hblocked p)
      (congrFun hserved p)

/-- **Release**, also the one inside `thread_cv_wait`. The lock has one unit afterwards, whoever
held it. -/
theorem act_release (hw : Waiters W a) (hi : a.sched.running = some i) {g : G}
    (hact : Act P a i l ({ a with g := g }.setLock p (-1) 0) fr (.wakeup p))
    (hs : Step a.sched i (.wakeup p) sched) (hk : a.kind p = some .lock)
    (hold : (a.frame i).waitsOn = none) (hnew : fr.waitsOn = none)
    (hcv : ∀ c l u, fr = .cvSleep c l u → a.kind c = some .plain) :
    Waiters W { ({ a with g := g }.setLock p (-1) 0) with
      sched := sched, frame := Function.update a.frame i fr } := by
  refine hw.act_wakeup hi hact hs hk hold hnew hcv ?_ ?_ rfl rfl
  · intro _
    simp
  · intro q k' hq
    exact units_setLock_of_ne { a with g := g } _ _ hq

/-- **V**, as long as the counter does not overflow. That it does not is the assertion in the
code. -/
theorem act_semV (hw : Waiters W a) (hi : a.sched.running = some i) {g : G} {vs : Addr → ℕ}
    (hact : Act P a i l ({ a with g := g, vs := vs }.setCount p (wrap32 (a.count p + 1))) fr
      (.wakeup p))
    (hs : Step a.sched i (.wakeup p) sched) (hk : a.kind p = some .semaphore)
    (hpos : 0 < wrap32 (a.count p + 1)) (hold : (a.frame i).waitsOn = none)
    (hnew : fr.waitsOn = none) (hcv : ∀ c l u, fr ≠ .cvSleep c l u) :
    Waiters W { ({ a with g := g, vs := vs }.setCount p (wrap32 (a.count p + 1))) with
      sched := sched, frame := Function.update a.frame i fr } := by
  refine hw.act_wakeup hi hact hs hk hold hnew (fun c l u he => absurd he (hcv c l u)) ?_ ?_ rfl rfl
  · intro hW
    obtain ⟨h₀, h₁⟩ : 0 ≤ a.count p ∧ a.count p < 2 ^ 31 := (hw.loop p .semaphore hk hW).range
    obtain ⟨he, hlt⟩ := wrap32_succ_of_pos h₀ h₁ hpos
    rw [units_setCount_self]
    refine ⟨hpos, by rwa [he], ?_⟩
    intro hz
    change a.count p = 0 at hz
    rw [he, hz, zero_add]
  · intro q k' hq
    exact units_setCount_of_ne { a with g := g, vs := vs } _ hq

/-- **A loop goes to sleep** on its primitive, which has no unit. It may have slept before. -/
theorem act_sleep (hw : Waiters W a) (hi : a.sched.running = some i)
    (hact : Act P a i l (a.block p i) fr (.sleep p)) (hs : Step a.sched i (.sleep p) sched)
    (hk : a.kind p = some k) (hzero : a.units p k = 0) (hready : a.sched.ready ≠ [])
    {slept : Bool} (hold : (a.frame i).waitsOn = if slept then some (p, k) else none)
    (hnew : fr.waitsOn = some (p, k)) :
    Waiters W { a.block p i with sched := sched, frame := Function.update a.frame i fr } := by
  have h : Acts W a { a.block p i with sched := sched, frame := Function.update a.frame i fr } i
      (.sleep p) := by
    refine hact.acts hi hs ?_ ?_
    · intro q k' hf _
      obtain ⟨rfl, rfl⟩ : p = q ∧ k = k' := by simpa using hnew.symm.trans hf
      exact hk
    · rintro c l u rfl
      cases hnew
  refine h.waiters hw hk (fun q hq => Req.touches_sleep.mp hq) ?_ ?_ ?_ ?_
  · intro q k' hq
    rw [hold]
    cases slept <;> simp [hq.symm]
  · intro q k' hq
    simp [hnew, hq.symm]
  · intro q k' hq
    exact ⟨rfl, Function.update_of_ne hq .., rfl⟩
  · intro _ hl
    exact hl.sleep h hready hzero (by simpa using hnew) rfl (Function.update_self ..) rfl

/-- **A loop ends** and takes a unit. Whoever has slept in it is entered into the list of those
served. -/
theorem act_done (hw : Waiters W a) (hi : a.sched.running = some i) {u : U} {slept : Bool}
    (hact : Act P a i l b (.user u) .stay) (hs : Step a.sched i .stay sched)
    (hold : (a.frame i).waitsOn = if slept then some (p, k) else none) (hk : a.kind p = some k)
    (hpos : 0 < a.units p k) (hdown : W.on p k → b.units p k = a.units p k - 1)
    (hother : ∀ q k', q ≠ p → b.units q k' = a.units q k') (hblocked : b.blocked = a.blocked)
    (hserved : b.served = (a.serve p slept i).served) :
    Waiters W { b with sched := sched, frame := Function.update a.frame i (.user u) } := by
  have h : Acts W a { b with sched := sched, frame := Function.update a.frame i (.user u) } i
      .stay := hact.acts hi hs nofun nofun
  refine h.waiters hw hk (fun q hq => absurd hq (Req.not_touches_stay q)) ?_ ?_ ?_ ?_
  · intro q k' hq
    rw [hold]
    cases slept <;> simp [hq.symm]
  · simp [Frame.waitsOn]
  · intro q k' hq
    refine ⟨hother q k' hq, congrFun hblocked q, ?_⟩
    change b.served q = a.served q
    rw [hserved]
    cases slept with
    | true => exact Function.update_of_ne hq ..
    | false => rfl
  · intro hW hl
    refine hl.down h hpos (hdown hW) (by simp [Frame.waitsOn]) (congrFun hblocked p) ?_
    change _ ∧ b.served p = _ ∨ _ ∧ b.served p = _
    rw [hserved]
    cases slept with
    | true => exact .inl ⟨hold, Function.update_self ..⟩
    | false => exact .inr ⟨hold, rfl⟩

end Actions

/-- **Every action keeps the invariant.** The calls that only enter the library change nothing
yet; release and V wake; the loops sleep or end. -/
theorem act (hP : P.Leaves W) (hw : Waiters W a) (hi : a.sched.running = some i) {b : AMach U G}
    {fr : Frame U} {r : Req Addr} {sched : Sched Addr} (hact : Act P a i l b fr r)
    (hs : Step a.sched i r sched) :
    Waiters W { b with sched := sched, frame := Function.update a.frame i fr } := by
  have hold : ∀ {f : Frame U} {o}, a.frame i = f → f.waitsOn = o → (a.frame i).waitsOn = o := by
    rintro f o rfl hf
    exact hf
  have hact' := hact
  cases hact with
  | plain hf hn hr =>
    exact hw.act_quiet hi hact' hs (fun p k => (hP hn).not_touches hr) (hold hf rfl) rfl nofun
      ⟨rfl, rfl, rfl⟩
  | primFail hf hn hc =>
    exact hw.act_stay hi hact' hs (hold hf rfl) rfl nofun ⟨rfl, rfl, rfl⟩
  | acquire hf hn hk =>
    exact hw.act_stay hi hact' hs (hold hf rfl) rfl nofun ⟨rfl, rfl, rfl⟩
  | release hf hn hk => exact hw.act_release hi hact' hs hk (hold hf rfl) rfl nofun
  | releaseAcquire hf hn hk =>
    rename_i u act al lk ret g
    have hoff : ¬ W.on lk .lock := hP hn .lock hk
    have h := hact'.acts (W := W) hi hs nofun nofun
    refine h.waiters hw hk ?_ (by simp [hf, Frame.waitsOn]) (by simp [Frame.waitsOn]) ?_ ?_
    · intro q hq
      exact Req.touches_wakeupWait.mp hq
    · intro q k' hq
      exact ⟨units_setLock_of_ne { a with g := g } (-1) 0 hq, rfl, rfl⟩
    · exact fun hW => absurd hW hoff
  | semP hf hn =>
    exact hw.act_stay hi hact' hs (hold hf rfl) rfl nofun ⟨rfl, rfl, rfl⟩
  | semV hf hn hk hpos => exact hw.act_semV hi hact' hs hk hpos (hold hf rfl) rfl nofun
  | cvWait hf hn hk =>
    rename_i u act al c lk ret g
    have hplain : a.kind c = some .plain := hP hn
    refine hw.act_release hi hact' hs hk (hold hf rfl) rfl ?_
    intro c' l' u' he
    cases he
    exact hplain
  | join hf hn hfr =>
    rcases hfr with rfl | ⟨_, _, rfl⟩
    · exact hw.act_stay hi hact' hs (hold hf rfl) rfl nofun ⟨rfl, rfl, rfl⟩
    · exact hw.act_stay hi hact' hs (hold hf rfl) rfl nofun ⟨rfl, rfl, rfl⟩
  | cspaceAlloc hf hn hsl =>
    exact hw.act_stay hi hact' hs (hold hf rfl) rfl nofun ⟨rfl, rfl, rfl⟩
  | acquireSpin hf => exact hw.act_spin hf hs
  | acquireSleep hf hk hh hr =>
    exact hw.act_sleep hi hact' hs hk (if_neg hh) hr (hold hf Frame.waitsOn_acquire) rfl
  | acquireDone hf hk hh =>
    rename_i slept lk u
    have hunit : a.units lk .lock = 1 := if_pos hh
    refine hw.act_done hi hact' hs (hold hf Frame.waitsOn_acquire) hk (by simp [hunit]) ?_ ?_ rfl
      rfl
    · intro _
      rw [hunit]
      simp
    · intro q k' hq
      exact units_setLock_of_ne (a.serve lk slept i) _ _ hq
  | relAcq hf =>
    exact hw.act_stay hi hact' hs (hold hf rfl) rfl nofun ⟨rfl, rfl, rfl⟩
  | semPSpin hf => exact hw.act_spin hf hs
  | semPSleep hf hk hc hr =>
    exact hw.act_sleep hi hact' hs hk hc hr (hold hf Frame.waitsOn_semP) rfl
  | semPDone hf hk hc =>
    rename_i slept sem u
    refine hw.act_done hi hact' hs (hold hf Frame.waitsOn_semP) hk hc ?_ ?_ rfl rfl
    · intro hW
      obtain ⟨h₀, h₁⟩ : 0 ≤ a.count sem ∧ a.count sem < 2 ^ 31 :=
        (hw.loop sem .semaphore hk hW).range
      rw [units_setCount_self]
      exact wrap32_of_lt (by omega) (by omega)
    · intro q k' hq
      exact units_setCount_of_ne
        ({ a with ps := Function.update a.ps sem (a.ps sem + 1) }.serve sem slept i) _ hq
  | cvSleep hf =>
    rename_i c lk u
    have hplain := hw.cv i c lk u (by simp [place_running hi]) hf
    refine hw.act_quiet hi hact' hs ?_ (hold hf rfl) rfl nofun ⟨rfl, rfl, rfl⟩
    intro p k hk hW ht
    obtain rfl := Req.touches_sleep.mp ht
    exact Watch.off_plain hplain k hk hW
  | cvAcquire hf hk hh =>
    exact hw.act_stay hi hact' hs (hold hf rfl) rfl nofun ⟨rfl, rfl, rfl⟩
  | joinAgain j hf =>
    refine hw.act_quiet hi hact' hs ?_ (hold hf rfl) rfl nofun ⟨rfl, rfl, rfl⟩
    rintro p k _ _ (he | he | he) <;> cases he
  | joinDone hf =>
    exact hw.act_stay hi hact' hs (hold hf rfl) rfl nofun ⟨rfl, rfl, rfl⟩

theorem init (h : a.Init P) : Waiters W a := by
  have hzero : ∀ {j}, a.sched.place j ≠ .nowhere → j = 0 := by
    intro j hj
    by_contra hne
    exact hj (h.place j hne)
  refine ⟨?_, ?_, ?_⟩
  · intro j p k hj hf
    rw [hzero hj, h.frame] at hf
    cases hf
  · intro j c l u hj hf
    rw [hzero hj, h.frame] at hf
    cases hf
  · intro p k hk
    simp [h.kind] at hk

end Waiters

section Kept

variable {p : Addr} {k : PrimKind}

/-- **A new primitive**: nobody is in its queue, nobody waits for it, and its history is empty. -/
theorem LoopAt.fresh (hnil : a.sched.waiting p = [])
    (hnobody : ∀ j, a.sched.place j ≠ .nowhere → (a.frame j).waitsOn ≠ some (p, k))
    (hrange : 0 ≤ a.units p k ∧ a.units p k < 2 ^ 31) (hblocked : a.blocked p = [])
    (hserved : a.served p = []) : LoopAt a p k := by
  have hgr : a.granted p k = [] :=
    granted_eq_nil fun j hj => hnobody j (by simp [place_running hj])
  refine ⟨by simp [hnil], ?_, hrange, ?_, fun hne => absurd hnil hne⟩
  · intro j hp hf
    exact absurd hf (hnobody j hp)
  · rw [hblocked, hserved, hgr, hnil]
    rfl

/-- **An old primitive**, while the running thread makes a call that switches to nobody: whoever is
inside the loop was there before. -/
theorem LoopAt.kept (hl : LoopAt a p k) (hi : a.sched.running = some i)
    (hold : (a.frame i).waitsOn = none) (hrun : a'.sched.running = a.sched.running)
    (hwait : a'.sched.waiting = a.sched.waiting)
    (hother : ∀ j, a.sched.place j ≠ .nowhere → j ≠ i →
      a'.frame j = a.frame j ∧ a'.sched.place j = a.sched.place j)
    (hwaiter : ∀ j, a'.sched.place j ≠ .nowhere → (a'.frame j).waitsOn = some (p, k) →
      a.sched.place j ≠ .nowhere ∧ j ≠ i ∧ (a.frame j).waitsOn = some (p, k))
    (hsame : SameData a a' p k) : LoopAt a' p k := by
  have hnil : a.granted p k = [] := by
    apply granted_eq_nil
    intro j hj hf
    obtain rfl := Option.some.inj (hi.symm.trans hj)
    cases hold.symm.trans hf
  have hnil' : a'.granted p k = [] := by
    apply granted_eq_nil
    intro j hj hf
    obtain ⟨_, hji, _⟩ := hwaiter j (by simp [place_running hj]) hf
    exact hji (Option.some.inj ((hj.symm.trans hrun).trans hi))
  refine ⟨?_, ?_, ?_, ?_, ?_⟩
  · intro j hj
    rw [hwait] at hj
    rw [(hother j (by simp [place_waiting hj]) (ne_of_mem_waiting hi hj)).1]
    exact hl.queued j hj
  · intro j hp hf
    obtain ⟨hpl, hji, hf'⟩ := hwaiter j hp hf
    rw [(hother j hpl hji).2]
    refine .inr ((hl.waits j hpl hf').resolve_left fun hr => ?_)
    exact hji (Option.some.inj (hr.1.symm.trans hi))
  · rw [hsame.units]
    exact hl.range
  · rw [hsame.blocked, hsame.served, hnil', hwait, ← hnil]
    exact hl.fifo
  · rw [hwait, hsame.units, hnil', ← congrArg List.length hnil]
    exact hl.units

end Kept

namespace Waiters

/-- A call that switches to nobody: the acting thread stays in user code, a thread or a primitive
may be new, and a primitive that is not watched may disappear. -/
theorem keep (hw : Waiters W a) (hi : a.sched.running = some i)
    (hold : (a.frame i).waitsOn = none) (hrun : a'.sched.running = a.sched.running)
    (hwait : a'.sched.waiting = a.sched.waiting)
    (hother : ∀ j, a.sched.place j ≠ .nowhere → j ≠ i →
      a'.frame j = a.frame j ∧ a'.sched.place j = a.sched.place j)
    (huser : ∀ j, a.sched.place j = .nowhere ∨ j = i → a'.sched.place j ≠ .nowhere →
      ∃ u, a'.frame j = .user u)
    (hkeep : ∀ p k, a.kind p = some k → W.on p k ∨ k = .plain → a'.kind p = some k)
    (hprim : ∀ p k, W.on p k → a'.kind p = some k →
      a.kind p = some k ∧ SameData a a' p k ∨
        a.kind p = none ∧ a.sched.waiting p = [] ∧ (0 ≤ a'.units p k ∧ a'.units p k < 2 ^ 31) ∧
          a'.blocked p = [] ∧ a'.served p = []) :
    Waiters W a' := by
  -- a thread inside the library is an old one that has not acted
  have hlib : ∀ {j}, a'.sched.place j ≠ .nowhere → (∀ u, a'.frame j ≠ .user u) →
      a.sched.place j ≠ .nowhere ∧ j ≠ i := by
    intro j hp hf
    by_contra hcon
    have hcase : a.sched.place j = .nowhere ∨ j = i := by
      by_contra hno
      exact hcon (not_or.mp hno)
    obtain ⟨u, hu⟩ := huser j hcase hp
    exact hf u hu
  have hwaiter : ∀ {p k} j, a'.sched.place j ≠ .nowhere → (a'.frame j).waitsOn = some (p, k) →
      a.sched.place j ≠ .nowhere ∧ j ≠ i ∧ (a.frame j).waitsOn = some (p, k) := by
    intro p k j hp hf
    obtain ⟨hpl, hji⟩ := hlib hp (by rintro u he; rw [he] at hf; cases hf)
    exact ⟨hpl, hji, (hother j hpl hji).1 ▸ hf⟩
  refine ⟨?_, ?_, ?_⟩
  · intro j p k hp hf hW
    obtain ⟨hpl, _, hf'⟩ := hwaiter j hp hf
    exact hkeep p k (hw.static j p k hpl hf' hW) (.inl hW)
  · intro j c l u hp hf
    obtain ⟨hpl, hji⟩ := hlib hp (by rintro u' he; cases hf.symm.trans he)
    exact hkeep c .plain (hw.cv j c l u hpl ((hother j hpl hji).1 ▸ hf)) (.inr rfl)
  · intro p k hk hW
    rcases hprim p k hW hk with ⟨hk', hsame⟩ | ⟨hnone, hnil, hrange, hb, hv⟩
    · exact (hw.loop p k hk' hW).kept hi hold hrun hwait hother hwaiter hsame
    · refine .fresh (hwait ▸ hnil) ?_ hrange hb hv
      intro j hp hf
      obtain ⟨hpl, _, hf'⟩ := hwaiter j hp hf
      cases hnone.symm.trans (hw.static j p k hpl hf' hW)

/-- **A call that returns to user code at once** and moves no thread. It may make a primitive, or
destroy one that is not watched. -/
theorem back (hw : Waiters W a) (hi : a.sched.running = some i) {u u' : U}
    (hf : a.frame i = .user u) (hf' : a'.frame = Function.update a.frame i (.user u'))
    (hrun : a'.sched.running = a.sched.running) (hwait : a'.sched.waiting = a.sched.waiting)
    (hplace : a'.sched.place = a.sched.place)
    (hkeep : ∀ p k, a.kind p = some k → W.on p k ∨ k = .plain → a'.kind p = some k)
    (hprim : ∀ p k, W.on p k → a'.kind p = some k →
      a.kind p = some k ∧ SameData a a' p k ∨
        a.kind p = none ∧ a.sched.waiting p = [] ∧ (0 ≤ a'.units p k ∧ a'.units p k < 2 ^ 31) ∧
          a'.blocked p = [] ∧ a'.served p = []) :
    Waiters W a' := by
  refine hw.keep hi (by rw [hf]; rfl) hrun hwait ?_ ?_ hkeep hprim
  · intro j _ hji
    exact ⟨hf' ▸ Function.update_of_ne hji .., congrFun hplace j⟩
  · intro j hj hp
    rw [hplace] at hp
    obtain rfl := hj.resolve_left hp
    exact ⟨u', by rw [hf', Function.update_self]⟩

/-- **A primitive is made.** Nobody waits for it yet: it has an address that no primitive had. -/
theorem made (hw : Waiters W a) (hok : a.Ok) (hi : a.sched.running = some i) {u u' : U}
    (hf : a.frame i = .user u) {p : Addr} {k : PrimKind} (hp : p ∉ a.sched.prims)
    (hf' : a'.frame = Function.update a.frame i (.user u'))
    (hrun : a'.sched.running = a.sched.running) (hwait : a'.sched.waiting = a.sched.waiting)
    (hplace : a'.sched.place = a.sched.place)
    (hkind : a'.kind = Function.update a.kind p (some k))
    (hnew : W.on p k → (0 ≤ a'.units p k ∧ a'.units p k < 2 ^ 31) ∧
      a'.blocked p = [] ∧ a'.served p = [])
    (hold : ∀ q k', q ≠ p → SameData a a' q k') : Waiters W a' := by
  have hnone : a.kind p = none := by
    by_contra hne
    exact hp ((hok.prims p).mpr hne)
  refine hw.back hi hf hf' hrun hwait hplace ?_ ?_
  · intro q k' hk _
    have hqp : q ≠ p := by
      rintro rfl
      cases hnone.symm.trans hk
    rw [hkind, Function.update_of_ne hqp]
    exact hk
  · intro q k' hW hk
    rw [hkind] at hk
    by_cases hqp : q = p
    · subst hqp
      obtain rfl : k = k' := by simpa using hk
      exact .inr ⟨hnone, waiting_eq_nil hp, hnew hW⟩
    · rw [Function.update_of_ne hqp] at hk
      exact .inl ⟨hk, hold q k' hqp⟩

/-- **Every step keeps the invariant**, whether the callers of the loops behave well or not. -/
theorem step (hP : P.Leaves W) (hok : a.Ok) (hw : Waiters W a) (hs : AStep P a l a') :
    Waiters W a' := by
  cases hs with
  | act hi hact hs => exact hw.act hP hi hact hs
  | exit hi hf hn hs =>
    rename_i i u act al ret g sched
    have hnone : (a.frame i).waitsOn = none := by rw [hf]; rfl
    refine hw.quiet ⟨hi, hs, fun _ _ => rfl, rfl, ?_, ?_⟩ ?_ hnone hnone fun _ _ => ⟨rfl, rfl, rfl⟩
    · intro p k he
      rw [hf] at he
      cases he
    · intro c l u' he
      cases hf.symm.trans he
    · rintro p k _ _ (he | he | he) <;> cases he
  | create hi hf hn hid h0 hnew hprims hrun hready hwait hplace hsl =>
    rename_i i u v act al ret g id sched
    have hnow : a.sched.place id = .nowhere := hid ▸ place_newId
    refine hw.keep hi (by rw [hf]; rfl) hrun hwait ?_ ?_ (fun _ _ hk _ => hk)
      fun _ _ _ hk => .inl ⟨hk, ⟨rfl, rfl, rfl⟩⟩
    · intro j hj hji
      have hjid : j ≠ id := fun he => hj (he ▸ hnow)
      refine ⟨?_, ?_⟩
      · simp [Function.update_of_ne hjid, Function.update_of_ne hji]
      · rw [hplace, Function.update_of_ne hjid]
    · intro j hj hp
      by_cases hjid : j = id
      · exact ⟨v, by simp [hjid]⟩
      · rw [hplace, Function.update_of_ne hjid] at hp
        obtain rfl := hj.resolve_left hp
        exact ⟨ret (some id), by simp [Function.update_of_ne hjid]⟩
  | notCreated hi hf hn hs hused =>
    rename_i i u v act al ret g sched used
    obtain ⟨hrun, hwait, hplace⟩ : sched.running = a.sched.running ∧
        sched.waiting = a.sched.waiting ∧ sched.place = a.sched.place := by
      rcases hs with rfl | rfl <;> exact ⟨rfl, rfl, rfl⟩
    exact hw.back hi hf rfl hrun hwait hplace (fun _ _ hk _ => hk)
      fun _ _ _ hk => .inl ⟨hk, ⟨rfl, rfl, rfl⟩⟩
  | primMade hi hf hn hc hal hp =>
    rename_i i u act al c ret g k p
    refine hw.made hok hi hf hp rfl rfl rfl rfl rfl ?_ ?_
    · intro hW
      refine ⟨?_, by simp, by simp⟩
      cases k with
      | plain => exact absurd hW (W.not_plain p)
      | lock => simp [AMach.units]
      | semaphore => simp [AMach.units]
    · intro q k' hqp
      refine ⟨?_, Function.update_of_ne hqp .., Function.update_of_ne hqp ..⟩
      cases k <;> cases k' <;> simp [AMach.units, Function.update_of_ne hqp]
  | primGone hi hf hn hc hq =>
    rename_i i u act al c ret g p
    have hoff : W.Off a.kind p ∧ a.kind p ≠ some .plain := by
      rcases hc with ⟨rfl, hk⟩ | ⟨rfl, hk⟩
      · exact ⟨hP hn, by simp [hk]⟩
      · exact ⟨hP hn, by simp [hk]⟩
    refine hw.back hi hf rfl rfl rfl rfl ?_ ?_
    · intro q k hk hW
      refine (Function.update_of_ne ?_ ..).trans hk
      rintro rfl
      rcases hW with hW | rfl
      · exact hoff.1 k hk hW
      · exact hoff.2 hk
    · intro q k hW hk
      have hqp : q ≠ p := by
        rintro rfl
        cases (Function.update_self q none a.kind).symm.trans hk
      exact .inl ⟨(Function.update_of_ne hqp none a.kind).symm.trans hk, ⟨rfl, rfl, rfl⟩⟩
  | env he =>
    refine ⟨hw.static, hw.cv, fun p k hk hW => ?_⟩
    have hl := hw.loop p k hk hW
    exact ⟨hl.queued, hl.waits, hl.range, hl.fifo, hl.units⟩

/-- The invariant holds along every run, by the invariant rule. -/
theorem reach (hP : P.Leaves W) (h : Reach P.aruns a) : Waiters W a :=
  Reach.invariant (T := P.aruns) (P := Waiters W) (fun _ h₀ => .init h₀)
    (fun _ _ _ hr hw hs => hw.step hP hr.ok hs) h

end Waiters

end Runs

end GreenLib
