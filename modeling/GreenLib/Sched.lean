import GreenLib.Run
import Mathlib.Algebra.BigOperators.Group.Finset.Basic
import Mathlib.Algebra.Order.BigOperators.Group.Finset
import Mathlib.Data.List.Nodup
import Mathlib.Logic.Function.Basic

/-!
# A cooperative scheduler, abstractly

The state of a scheduler with one running thread, one ready queue and one waiting
queue per primitive. A thread id has exactly one *place*, and the queues list the
threads of that place without repetition: both are fields of `Sched`, so a
scheduler with a thread in two places cannot be built.

There is a single edit, `Sched.move`: take a thread from where it is and put it
somewhere else, at the tail if that is a queue. Sleeping, waking, yielding,
resuming, creating and exiting are compositions of one or two moves.
-/

namespace GreenLib

/-- Where a thread can be. A thread is in one place at a time, which is what makes the queues of the
scheduler disjoint. -/
inductive Place (π : Type) : Type where
  /-- not a thread: not created yet, or exited -/
  | nowhere
  /-- a thread that is in no queue and does not run -/
  | parked
  | running
  | ready
  | waiting (p : π)
  deriving DecidableEq

/-- A scheduler over primitives of type `π`: the queues, and for each thread its place. The fields
below the data say that the two agree, so a scheduler with a thread in two queues cannot be
built. -/
structure Sched (π : Type) [DecidableEq π] : Type where
  /-- ids below this one have been given out -/
  newId : ℕ
  place : ℕ → Place π
  running : Option ℕ
  ready : List ℕ
  waiting : π → List ℕ
  /-- the primitives that exist -/
  prims : Finset π
  place_lt : ∀ {i}, place i ≠ .nowhere → i < newId
  running_iff : ∀ {i}, running = some i ↔ place i = .running
  ready_iff : ∀ {i}, i ∈ ready ↔ place i = .ready
  waiting_iff : ∀ {p i}, i ∈ waiting p ↔ place i = .waiting p
  ready_nodup : ready.Nodup
  waiting_nodup : ∀ p, (waiting p).Nodup
  waiting_prim : ∀ {p}, waiting p ≠ [] → p ∈ prims

namespace Sched

variable {π : Type} [DecidableEq π] {a : Sched π} {i j : ℕ} {p : π}

/-! ## Reading places -/

theorem place_running (h : a.running = some i) : a.place i = .running := a.running_iff.mp h

theorem place_ready (h : i ∈ a.ready) : a.place i = .ready := a.ready_iff.mp h

theorem place_waiting (h : i ∈ a.waiting p) : a.place i = .waiting p := a.waiting_iff.mp h

theorem notMem_ready (h : a.place i ≠ .ready) : i ∉ a.ready := fun hm => h (a.ready_iff.mp hm)

theorem notMem_waiting (h : a.place i ≠ .waiting p) : i ∉ a.waiting p :=
  fun hm => h (a.waiting_iff.mp hm)

theorem running_ne (h : a.place i ≠ .running) : a.running ≠ some i :=
  fun hr => h (a.running_iff.mp hr)

/-- A list of distinct created threads is no longer than the number of ids given out. It bounds the
queues, and with them the fuel of the walks. -/
theorem length_le_newId {l : List ℕ} (hl : l.Nodup) (hp : ∀ i ∈ l, a.place i ≠ .nowhere) :
    l.length ≤ a.newId := by
  have hsub : l ⊆ List.range a.newId := by
    intro i hi
    rw [List.mem_range]
    exact a.place_lt (hp i hi)
  simpa using (hl.subperm hsub).length_le

theorem ready_length_le : a.ready.length ≤ a.newId :=
  length_le_newId a.ready_nodup fun i hi => by rw [place_ready hi]; nofun

theorem waiting_length_le : (a.waiting p).length ≤ a.newId :=
  length_le_newId (a.waiting_nodup p) fun i hi => by rw [place_waiting hi]; nofun

/-! ## The one edit -/

/-- A thread may move to `pl` if it has been created, the processor is free and the
primitive exists. -/
structure CanMove (a : Sched π) (i : ℕ) (pl : Place π) : Prop where
  lt : i < a.newId
  free : pl = .running → a.running = none
  prim : ∀ p, pl = .waiting p → p ∈ a.prims

theorem mem_erase_append {l : List ℕ} (hl : l.Nodup) {b : Prop} [Decidable b] {k : ℕ} :
    k ∈ l.erase i ++ (if b then [i] else []) ↔ (k ≠ i ∧ k ∈ l) ∨ (k = i ∧ b) := by
  rw [List.mem_append, hl.mem_erase_iff]
  by_cases hb : b <;> simp [hb]

theorem nodup_erase_append {l : List ℕ} (hl : l.Nodup) {b : Prop} [Decidable b] :
    (l.erase i ++ (if b then [i] else [])).Nodup := by
  by_cases hb : b
  · rw [if_pos hb]
    refine List.nodup_append.mpr ⟨hl.erase i, List.nodup_singleton i, ?_⟩
    intro k hk k' hk' he
    rw [List.mem_singleton] at hk'
    exact (hl.mem_erase_iff.mp hk).1 (he.trans hk')
  · rw [if_neg hb, List.append_nil]
    exact hl.erase i

/-- Take thread `i` from its place and put it at `pl`, at the end of the queue if that place has
one. All moves of the scheduler are made of these. -/
def move (a : Sched π) (i : ℕ) (pl : Place π) (h : a.CanMove i pl) : Sched π where
  newId := a.newId
  place := Function.update a.place i pl
  running := if pl = .running then some i else if a.running = some i then none else a.running
  ready := a.ready.erase i ++ (if pl = .ready then [i] else [])
  waiting p := (a.waiting p).erase i ++ (if pl = .waiting p then [i] else [])
  prims := a.prims
  place_lt := by
    intro k hk
    by_cases hki : k = i
    · exact hki ▸ h.lt
    · rw [Function.update_of_ne hki] at hk
      exact a.place_lt hk
  running_iff := by
    intro k
    by_cases hki : k = i
    · subst hki
      rw [Function.update_self]
      by_cases hpl : pl = .running
      · simp [hpl]
      · simp only [hpl, if_false, iff_false]
        split <;> simp_all
    · rw [Function.update_of_ne hki, ← a.running_iff]
      by_cases hpl : pl = .running
      · -- the processor was free, so no other thread has the place `running`
        simp [hpl, h.free hpl, Ne.symm hki]
      · rw [if_neg hpl]
        split
        · rename_i hr
          simp [hr, Ne.symm hki]
        · rfl
  ready_iff := by
    intro k
    rw [mem_erase_append a.ready_nodup, a.ready_iff]
    by_cases hki : k = i
    · simp [hki]
    · simp [hki]
  waiting_iff := by
    intro p k
    rw [mem_erase_append (a.waiting_nodup p), a.waiting_iff]
    by_cases hki : k = i
    · simp [hki]
    · simp [hki]
  ready_nodup := nodup_erase_append a.ready_nodup
  waiting_nodup p := nodup_erase_append (a.waiting_nodup p)
  waiting_prim := by
    intro p hp
    by_cases hpl : pl = .waiting p
    · exact h.prim p hpl
    · rw [if_neg hpl, List.append_nil] at hp
      refine a.waiting_prim fun he => hp ?_
      rw [he]
      rfl

section Move

variable {pl : Place π} {h : a.CanMove i pl}

@[simp] theorem move_newId : (a.move i pl h).newId = a.newId := rfl

@[simp] theorem move_prims : (a.move i pl h).prims = a.prims := rfl

theorem move_place : (a.move i pl h).place = Function.update a.place i pl := rfl

@[simp] theorem move_place_self : (a.move i pl h).place i = pl := Function.update_self ..

theorem move_place_of_ne (hj : j ≠ i) : (a.move i pl h).place j = a.place j :=
  Function.update_of_ne hj ..

theorem move_running : (a.move i pl h).running =
    if pl = .running then some i else if a.running = some i then none else a.running := rfl

theorem move_ready : (a.move i pl h).ready =
    a.ready.erase i ++ (if pl = .ready then [i] else []) := rfl

theorem move_waiting : (a.move i pl h).waiting p =
    (a.waiting p).erase i ++ (if pl = .waiting p then [i] else []) := rfl

/-- Moving a thread that is not in the ready queue to another place leaves the queue as it was. -/
theorem move_ready_of_ne (hi : a.place i ≠ .ready) (hpl : pl ≠ .ready) :
    (a.move i pl h).ready = a.ready := by
  rw [move_ready, if_neg hpl, List.append_nil, List.erase_of_not_mem (notMem_ready hi)]

/-- Moving a thread that does not wait on `p` to a place other than the queue of `p` leaves that
queue as it was. -/
theorem move_waiting_of_ne (hi : a.place i ≠ .waiting p) (hpl : pl ≠ .waiting p) :
    (a.move i pl h).waiting p = a.waiting p := by
  rw [move_waiting, if_neg hpl, List.append_nil, List.erase_of_not_mem (notMem_waiting hi)]

/-- Moving another thread than the running one, to another place than the processor, leaves the
running thread. -/
theorem move_running_of_ne (hi : a.place i ≠ .running) (hpl : pl ≠ .running) :
    (a.move i pl h).running = a.running := by
  rw [move_running, if_neg hpl, if_neg (running_ne hi)]

/-- Moving the running thread away frees the processor. -/
theorem move_running_none (hi : a.running = some i) (hpl : pl ≠ .running) :
    (a.move i pl h).running = none := by
  rw [move_running, if_neg hpl, if_pos hi]

end Move

/-! ## Ids and primitives -/

/-- One thread, with id 0, that runs: the state in which `thread_initial` leaves the library. -/
def initial : Sched π where
  newId := 1
  place := Function.update (fun _ => .nowhere) 0 .running
  running := some 0
  ready := []
  waiting _ := []
  prims := ∅
  place_lt {i} h := by
    by_contra hi
    exact h (Function.update_of_ne (by omega) ..)
  running_iff {i} := by
    by_cases hi : i = 0
    · simp [hi]
    · simp [eq_comm, hi]
  ready_iff {i} := by
    by_cases hi : i = 0
    · simp [hi]
    · simp [Function.update_of_ne hi]
  waiting_iff {p i} := by
    by_cases hi : i = 0
    · simp [hi]
    · simp [Function.update_of_ne hi]
  ready_nodup := List.nodup_nil
  waiting_nodup _ := List.nodup_nil
  waiting_prim h := absurd rfl h

theorem initial_place_of_ne (hi : i ≠ 0) : (initial : Sched π).place i = .nowhere := by
  simp only [initial, Function.update_of_ne hi]

/-- Give out the next id, to a thread that is nowhere yet. Failed creations do this too, so ids may
be skipped. -/
def fresh (a : Sched π) : Sched π :=
  { a with
    newId := a.newId + 1
    place_lt := fun h => Nat.lt_succ_of_lt (a.place_lt h) }

/-- The next id is nowhere: ids are given out in order and never twice. -/
theorem place_newId : a.place a.newId = .nowhere := by
  by_contra hne
  exact lt_irrefl _ (a.place_lt hne)

/-- A new primitive, with an empty queue. -/
def addPrim (a : Sched π) (p : π) : Sched π :=
  { a with
    prims := insert p a.prims
    waiting_prim := fun h => Finset.mem_insert_of_mem (a.waiting_prim h) }

/-- Remove a primitive that nobody waits on. The premise is the assertion of the destroy
functions. -/
def dropPrim (a : Sched π) (p : π) (h : a.waiting p = []) : Sched π :=
  { a with
    prims := a.prims.erase p
    waiting_prim := by
      intro q hq
      refine Finset.mem_erase.mpr ⟨?_, a.waiting_prim hq⟩
      rintro rfl
      exact hq h }

/-- Nobody waits on a primitive that does not exist. -/
theorem waiting_eq_nil (h : p ∉ a.prims) : a.waiting p = [] := by
  by_contra hne
  exact h (a.waiting_prim hne)

/-! ## Counting the waiting threads -/

/-- How many threads wait on some primitive, over all primitives there are. -/
def waitingTotal (a : Sched π) : ℕ := ∑ p ∈ a.prims, (a.waiting p).length

/-- Changing one queue changes the total by the difference of the lengths. Stated with sums on both
sides, so that no natural number is subtracted. -/
theorem waitingTotal_add {a' : Sched π} (hp : p ∈ a.prims) (hprims : a'.prims = a.prims)
    (hq : ∀ q, q ≠ p → a'.waiting q = a.waiting q) :
    a'.waitingTotal + (a.waiting p).length = a.waitingTotal + (a'.waiting p).length := by
  unfold waitingTotal
  rw [hprims, ← Finset.add_sum_erase _ _ hp, ← Finset.add_sum_erase a.prims
    (fun q => (a.waiting q).length) hp]
  have hrest : ∑ q ∈ a.prims.erase p, (a'.waiting q).length =
      ∑ q ∈ a.prims.erase p, (a.waiting q).length :=
    Finset.sum_congr rfl fun q hq' => by rw [hq q (Finset.ne_of_mem_erase hq')]
  omega

/-- A thread that waits somewhere makes the total positive. -/
theorem waitingTotal_pos (h : a.waiting p ≠ []) : 0 < a.waitingTotal := by
  unfold waitingTotal
  have hle := Finset.single_le_sum (f := fun q => (a.waiting q).length)
    (fun q _ => Nat.zero_le _) (a.waiting_prim h)
  have hpos := List.length_pos_iff.mpr h
  exact lt_of_lt_of_le hpos hle

end Sched

end GreenLib
