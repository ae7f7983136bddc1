import Mathlib.Data.List.Chain
import Mathlib.Data.List.Nodup
import Mathlib.Logic.Function.Basic

/-!
# Intrusive queues with a head and a tail pointer

A singly linked queue is a map `next : α → Option α` shared by all queues of a
heap, and two pointer cells `Ends α` (`none` is the null pointer). The three
edits of such a queue are defined here on `next` and the cells, and specified
against the list of the queued nodes:

* `Ends.append`: link a node behind the tail. On an empty queue the node's own
  `next` is *not* written;
* `Ends.shift`: move the head pointer to the second node;
* `Ends.find` and `Ends.unlink`: walk the chain to the first node with a given
  key, then splice it out.

`IsQueue next q xs` says that `q` represents the list `xs`. It says nothing
about the `next` of the last node: that pointer may be stale, and every lemma
below has to live with it.
-/

namespace GreenLib

universe u

/-- The two pointer cells of a queue, as the C structs have them: a null head cell goes with a null
tail cell, but nothing in the type says so. That is part of `IsQueue`. -/
structure Ends (α : Type u) : Type u where
  /-- the first node -/
  start : Option α
  /-- the last node -/
  stop : Option α
  deriving DecidableEq

namespace Ends

variable {α : Type u} [DecidableEq α]

/-- Link `x` behind the tail. The empty queue is recognised by its tail cell, and in that case `x`
keeps whatever its `next` field held: the stale pointer that later lemmas have to live with. -/
def append (next : α → Option α) (q : Ends α) (x : α) : (α → Option α) × Ends α :=
  match q.stop with
  | none => (next, ⟨some x, some x⟩)
  | some e => (Function.update (Function.update next e (some x)) x none, ⟨q.start, some x⟩)

/-- Move the head cell past its node `x`; a queue of one node becomes empty. The test compares the
two cells, not the `next` of the node, which may be stale. -/
def shift (next : α → Option α) (q : Ends α) (x : α) : Ends α :=
  if q.start = q.stop then ⟨none, none⟩ else ⟨next x, q.stop⟩

/-- Follow `next` from `cur` to the first node with the key, carrying the node
before it. `none`: the fuel ran out; `some none`: the chain ended without a hit. -/
def find (next : α → Option α) (key : α → Bool) :
    ℕ → Option α → Option α → Option (Option (Option α × α))
  | _, _, none => some none
  | 0, _, some _ => none
  | n + 1, pre, some x =>
    if key x then some (some (pre, x)) else find next key n (some x) (next x)

/-- Splice out the node `x` that the walk reached from `pre`. `none`: the code
would write through a null `pre`. -/
def unlink (next : α → Option α) (q : Ends α) (pre : Option α) (x : α) :
    Option ((α → Option α) × Ends α) :=
  if q.start = some x ∧ q.stop = some x then
    some (Function.update next x none, ⟨none, none⟩)
  else if q.start = some x then
    some (Function.update next x none, ⟨next x, q.stop⟩)
  else
    match pre with
    | none => none
    | some y =>
      some (Function.update (Function.update next y (next x)) x none,
        if q.stop = some x then ⟨q.start, some y⟩ else q)

/-- The nodes from `cur` up to the tail cell `stop`. The walk is cut at the tail cell, since the
pointer of the last node need not be null. -/
def toList (next : α → Option α) (stop : Option α) : ℕ → Option α → List α
  | 0, _ => []
  | _ + 1, none => []
  | n + 1, some x => if stop = some x then [x] else x :: toList next stop n (next x)

end Ends

variable {α : Type u} {next next' : α → Option α} {q : Ends α} {xs : List α} {x : α}

/-- `q` represents the list `xs` of nodes: the cells are its ends, and each node
but the last points to the one behind it. -/
structure IsQueue (next : α → Option α) (q : Ends α) (xs : List α) : Prop where
  start : q.start = xs.head?
  stop : q.stop = xs.getLast?
  chain : xs.IsChain (fun a b => next a = some b)
  nodup : xs.Nodup

namespace IsQueue

theorem nil (next : α → Option α) : IsQueue next ⟨none, none⟩ [] :=
  ⟨rfl, rfl, .nil, List.nodup_nil⟩

theorem singleton (next : α → Option α) (x : α) : IsQueue next ⟨some x, some x⟩ [x] :=
  ⟨rfl, rfl, .singleton _, List.nodup_singleton _⟩

/-- **Frame rule.** A queue does not notice a change of `next` elsewhere, so an edit of one queue of
a heap leaves the disjoint ones alone. -/
theorem congr (h : IsQueue next q xs) (hn : ∀ a ∈ xs, next' a = next a) :
    IsQueue next' q xs :=
  ⟨h.start, h.stop, h.chain.imp_of_mem_imp fun a _ ha _ hab => (hn a ha).trans hab, h.nodup⟩

/-- The empty queue is the one with a null tail cell, which is how `append` recognises it. -/
theorem stop_eq_none (h : IsQueue next q xs) : q.stop = none ↔ xs = [] := by
  rw [h.stop, List.getLast?_eq_none_iff]

theorem start_eq_none (h : IsQueue next q xs) : q.start = none ↔ xs = [] := by
  rw [h.start, List.head?_eq_none_iff]

theorem eq_nil (h : IsQueue next q []) : q = ⟨none, none⟩ := by
  obtain ⟨s, e⟩ := q
  have hs : s = none := h.start
  have he : e = none := h.stop
  rw [hs, he]

/-- The head cell of a queue of one node is its tail cell, and of no other: the test of `shift` is
right because no node occurs twice. -/
theorem start_eq_stop (h : IsQueue next q (x :: xs)) : q.start = q.stop ↔ xs = [] := by
  rw [h.start, h.stop]
  constructor
  · intro he
    rcases xs with _ | ⟨y, ys⟩
    · rfl
    · -- a second occurrence of `x` at the far end would break `nodup`
      have hmem : x ∈ y :: ys := by
        rw [List.getLast?_cons_cons] at he
        exact List.mem_of_getLast? he.symm
      exact absurd hmem (List.nodup_cons.mp h.nodup).1
  · intro he
    rw [he]
    rfl

section Edits

variable [DecidableEq α]

/-- **Append.** A node outside the queue is linked behind its last node. -/
theorem append (h : IsQueue next q xs) (hx : x ∉ xs) :
    IsQueue (q.append next x).1 (q.append next x).2 (xs ++ [x]) := by
  rcases List.eq_nil_or_concat xs with rfl | ⟨ys, e, rfl⟩
  · rw [h.eq_nil]
    exact singleton next x
  · rw [List.concat_eq_append] at *
    have he : q.stop = some e := by rw [h.stop, List.getLast?_concat]
    have hxe : x ≠ e := by
      rintro rfl
      exact hx (by simp)
    simp only [Ends.append, he]
    refine ⟨?_, by simp, ?_, ?_⟩
    · rw [h.start]
      rcases ys with _ | ⟨y, ys⟩ <;> rfl
    · rw [List.append_assoc, List.singleton_append, List.isChain_append_cons_cons]
      refine ⟨?_, ?_, .singleton _⟩
      · -- inside the old queue only the last node was touched
        have hc := h.chain
        rw [List.isChain_iff_getElem] at hc ⊢
        intro i hi
        have hne : (ys ++ [e])[i] ≠ e := by
          intro hee
          have hlen : ys.length < (ys ++ [e]).length := by simp
          have hlast : (ys ++ [e])[ys.length] = e := by simp
          have := (List.Nodup.getElem_inj_iff h.nodup).mp (hee.trans hlast.symm)
          simp at hi
          omega
        have hnx : (ys ++ [e])[i] ≠ x := by
          intro hee
          exact hx (hee ▸ List.getElem_mem _)
        rw [Function.update_of_ne hnx, Function.update_of_ne hne]
        exact hc i hi
      · rw [Function.update_of_ne hxe.symm, Function.update_self]
    · exact List.nodup_append.mpr ⟨h.nodup, List.nodup_singleton _, by
        intro a ha b hb
        rw [List.mem_singleton] at hb
        rintro rfl
        exact hx (hb ▸ ha)⟩

/-- `append` writes the `next` of the new node and of the old last one only. -/
theorem append_next_of_notMem (h : IsQueue next q xs) {a : α} (ha : a ∉ xs) (hax : a ≠ x) :
    (q.append next x).1 a = next a := by
  rcases hq : q.stop with _ | e
  · simp [Ends.append, hq]
  · have hae : a ≠ e := by
      rintro rfl
      rw [h.stop] at hq
      exact ha (List.mem_of_getLast? hq)
    simp only [Ends.append, hq]
    rw [Function.update_of_ne hax, Function.update_of_ne hae]

omit [DecidableEq α] in
/-- The tail of a queue is a queue behind the second node. The last node stays the same, so its tail
cell does too. -/
theorem tail (h : IsQueue next q (x :: xs)) (hne : xs ≠ []) :
    IsQueue next ⟨next x, q.stop⟩ xs := by
  rcases xs with _ | ⟨y, ys⟩
  · exact absurd rfl hne
  · have hc := List.isChain_cons_cons.mp h.chain
    refine ⟨hc.1, ?_, hc.2, (List.nodup_cons.mp h.nodup).2⟩
    rw [h.stop, List.getLast?_cons_cons]

/-- **Shift.** Moving the head cell removes the first node. Nothing is written to `next`, so the
node that has left still points into the queue. -/
theorem shift (h : IsQueue next q (x :: xs)) : IsQueue next (q.shift next x) xs := by
  unfold Ends.shift
  by_cases hne : xs = []
  · rw [if_pos (h.start_eq_stop.mpr hne), hne]
    exact nil next
  · rw [if_neg fun he => hne (h.start_eq_stop.mp he)]
    exact h.tail hne

end Edits

/-! ### The walk -/

section Walk

variable [DecidableEq α] {key : α → Bool}

omit [DecidableEq α] in
/-- The walk skips the nodes without the key and stops at the first one with it,
before it reaches the stale pointer of the last node. -/
theorem find_aux {ys zs : List α} (hk : key x = true) :
    ∀ (pre : List α) {n : ℕ},
      (pre ++ ys ++ x :: zs).IsChain (fun a b => next a = some b) →
      (∀ a ∈ ys, key a = false) → ys.length < n →
      Ends.find next key n pre.getLast? (ys ++ x :: zs).head? =
        some (some ((pre ++ ys).getLast?, x)) := by
  induction ys with
  | nil =>
    intro pre n _ _ hn
    obtain ⟨m, rfl⟩ : ∃ m, n = m + 1 := ⟨n - 1, by simp at hn; omega⟩
    simp [Ends.find, hk]
  | cons y ys ih =>
    intro pre n hc hkey hn
    obtain ⟨m, rfl⟩ : ∃ m, n = m + 1 := ⟨n - 1, by simp at hn; omega⟩
    have hy : key y = false := hkey y (by simp)
    have hnext : next y = (ys ++ x :: zs).head? := by
      rw [List.append_assoc, List.cons_append, List.isChain_split] at hc
      rcases ys with _ | ⟨z, ys⟩
      · exact (List.isChain_cons_cons.mp hc.2).1
      · exact (List.isChain_cons_cons.mp hc.2).1
    have hstep := ih (pre ++ [y]) (n := m) (by simpa using hc)
      (fun a ha => hkey a (List.mem_cons_of_mem _ ha)) (by simpa using hn)
    simpa [Ends.find, hy, hnext] using hstep

omit [DecidableEq α] in
/-- **Find.** In a queue with the key at `x` and not before, the walk from the
head cell ends at `x` and carries the node before it. -/
theorem find {ys zs : List α} {n : ℕ} (h : IsQueue next q (ys ++ x :: zs)) (hk : key x = true)
    (hys : ∀ a ∈ ys, key a = false) (hn : ys.length < n) :
    Ends.find next key n none q.start = some (some (ys.getLast?, x)) := by
  rw [h.start]
  exact find_aux hk [] (by simpa using h.chain) hys hn

omit [DecidableEq α] in
/-- The pointer of the last node of a chain does not matter: two maps that agree on all nodes before
it have the chain in common. -/
theorem isChain_concat_congr {n' : α → Option α} {y : α} {ws : List α}
    (hc : (ws ++ [y]).IsChain fun a b => next a = some b) (hn : ∀ a ∈ ws, n' a = next a) :
    (ws ++ [y]).IsChain fun a b => n' a = some b := by
  induction ws with
  | nil => exact .singleton _
  | cons w ws ih =>
    have hw := hn w List.mem_cons_self
    have ih := fun hc => ih hc fun a ha => hn a (List.mem_cons_of_mem _ ha)
    rcases ws with _ | ⟨v, ws⟩
    · exact List.isChain_cons_cons.mpr ⟨hw.trans (List.isChain_cons_cons.mp hc).1, .singleton _⟩
    · obtain ⟨hwv, hrest⟩ := List.isChain_cons_cons.mp hc
      exact List.isChain_cons_cons.mpr ⟨hw.trans hwv, ih hrest⟩

/-- The first node leaves: the head cell moves, and if it was the only node both cells become
null. -/
theorem unlink_head {zs : List α} (h : IsQueue next q (x :: zs)) :
    ∃ n' q', Ends.unlink next q none x = some (n', q') ∧ IsQueue n' q' zs ∧
      ∀ a, a ∉ x :: zs → n' a = next a := by
  have hstart : q.start = some x := h.start
  have hkeep : ∀ a, a ∉ x :: zs → Function.update next x none a = next a := fun a ha =>
    Function.update_of_ne (fun he => ha (by simp [he])) _ _
  by_cases hz : zs = []
  · subst hz
    have hstop : q.stop = some x := h.stop
    refine ⟨Function.update next x none, ⟨none, none⟩, ?_, nil _, hkeep⟩
    simp only [Ends.unlink, hstart, hstop, and_self, if_true]
  · have hstop : q.stop ≠ some x := fun he =>
      hz (h.start_eq_stop.mp (hstart.trans he.symm))
    refine ⟨Function.update next x none, ⟨next x, q.stop⟩, ?_, ?_, hkeep⟩
    · simp only [Ends.unlink, hstart, hstop, and_false, if_false, if_true]
    · refine (h.tail hz).congr fun a ha => Function.update_of_ne ?_ _ _
      rintro rfl
      exact (List.nodup_cons.mp h.nodup).1 ha

/-- The chain without `x`, joined at the node `y` before it. The front of the chain keeps its
pointers, since `y` is its last node, and the back is not written at all. -/
theorem isChain_splice {ws zs : List α} {y : α}
    (hc : (ws ++ y :: x :: zs).IsChain fun a b => next a = some b)
    (hnd : (ws ++ y :: x :: zs).Nodup) :
    (ws ++ y :: zs).IsChain fun a b =>
      Function.update (Function.update next y (next x)) x none a = some b := by
  obtain ⟨-, hright, hdisj⟩ := List.nodup_append.mp hnd
  obtain ⟨hy, hx⟩ := List.nodup_cons.mp hright
  obtain ⟨hx, -⟩ := List.nodup_cons.mp hx
  have hyx : y ≠ x := fun he => hy (he ▸ List.mem_cons_self)
  have hsame : ∀ {a}, a ≠ y → a ≠ x →
      Function.update (Function.update next y (next x)) x none a = next a := fun hay hax => by
    rw [Function.update_of_ne hax, Function.update_of_ne hay]
  rw [List.isChain_split] at hc
  obtain ⟨hfront, hback⟩ := hc
  refine List.isChain_split.mpr ⟨isChain_concat_congr hfront fun a ha => hsame ?_ ?_, ?_⟩
  · exact hdisj a ha y List.mem_cons_self
  · exact hdisj a ha x (by simp)
  · rcases zs with _ | ⟨z, zs⟩
    · exact .singleton _
    · obtain ⟨-, hback⟩ := List.isChain_cons_cons.mp hback
      obtain ⟨hxz, hback⟩ := List.isChain_cons_cons.mp hback
      refine List.isChain_cons_cons.mpr ⟨?_, hback.imp_of_mem_imp fun a b ha _ hab => ?_⟩
      · rw [Function.update_of_ne hyx, Function.update_self]
        exact hxz
      · rw [hsame (fun he => hy (he ▸ List.mem_cons_of_mem _ ha)) fun he => hx (he ▸ ha)]
        exact hab

/-- A later node: its predecessor `y` takes over its pointer, and the tail cell if it was the
last one. -/
theorem unlink_after {ws zs : List α} {y : α} (h : IsQueue next q (ws ++ y :: x :: zs)) :
    ∃ n' q', Ends.unlink next q (some y) x = some (n', q') ∧ IsQueue n' q' (ws ++ y :: zs) ∧
      ∀ a, a ∉ ws ++ y :: x :: zs → n' a = next a := by
  obtain ⟨-, hright, hdisj⟩ := List.nodup_append.mp h.nodup
  obtain ⟨hy, hx⟩ := List.nodup_cons.mp hright
  have hstart : q.start ≠ some x := by
    rw [h.start]
    intro he
    rcases ws with _ | ⟨w, ws⟩
    · obtain rfl : y = x := Option.some.inj he
      exact hy List.mem_cons_self
    · obtain rfl : w = x := Option.some.inj he
      exact hdisj w List.mem_cons_self w (by simp) rfl
  have hstop : q.stop = some x ↔ zs = [] := by
    rw [h.stop, List.getLast?_append_of_ne_nil _ (by simp), List.getLast?_cons_cons]
    refine ⟨fun he => ?_, fun hz => by simp [hz]⟩
    rcases zs with _ | ⟨z, zs⟩
    · rfl
    · rw [List.getLast?_cons_cons] at he
      exact absurd (List.mem_of_getLast? he) (List.nodup_cons.mp hx).1
  refine ⟨Function.update (Function.update next y (next x)) x none,
    if q.stop = some x then ⟨q.start, some y⟩ else q, ?_, ⟨?_, ?_, isChain_splice h.chain h.nodup,
      h.nodup.sublist (((List.sublist_cons_self x zs).cons_cons y).append_left ws)⟩, ?_⟩
  · simp only [Ends.unlink, hstart, false_and, if_false]
  · have hhead : (ws ++ y :: zs).head? = (ws ++ y :: x :: zs).head? := by
      rcases ws with _ | ⟨w, ws⟩ <;> rfl
    rw [hhead, ← h.start]
    split <;> rfl
  · by_cases hz : zs = []
    · rw [if_pos (hstop.mpr hz), hz]
      simp
    · rw [if_neg fun he => hz (hstop.mp he), h.stop]
      rcases zs with _ | ⟨z, zs⟩
      · exact absurd rfl hz
      · simp [List.getLast?_append, List.getLast?_cons_cons]
  · intro a ha
    rw [Function.update_of_ne fun he => ha (by simp [he]),
      Function.update_of_ne fun he => ha (by simp [he])]

/-- **Unlink.** Splicing out a node of the queue at the place where the walk
found it removes it from the list. -/
theorem unlink {ys zs : List α} (h : IsQueue next q (ys ++ x :: zs)) :
    ∃ n' q', Ends.unlink next q ys.getLast? x = some (n', q') ∧ IsQueue n' q' (ys ++ zs) ∧
      ∀ a, a ∉ ys ++ x :: zs → n' a = next a := by
  rcases List.eq_nil_or_concat ys with rfl | ⟨ws, y, rfl⟩
  · exact unlink_head h
  · rw [List.concat_eq_append, List.append_assoc, List.singleton_append] at h
    simpa using unlink_after h

omit [DecidableEq α] in
/-- In a chain that ends in the null pointer the walk hits nodes of the chain only. -/
theorem find_sound {n : ℕ} {p : Option α} (pre : List α)
    (hc : xs.IsChain (fun a b => next a = some b))
    (hlast : ∀ e, xs.getLast? = some e → next e = none)
    (hf : Ends.find next key n pre.getLast? xs.head? = some (some (p, x))) :
    ∃ ys zs, xs = ys ++ x :: zs ∧ p = (pre ++ ys).getLast? := by
  induction xs generalizing n pre with
  | nil => simp [Ends.find] at hf
  | cons y xs ih =>
    rcases n with _ | n
    · simp [Ends.find] at hf
    rw [List.head?_cons, Ends.find] at hf
    split at hf
    · obtain ⟨rfl, rfl⟩ : pre.getLast? = p ∧ y = x := by simpa using hf
      exact ⟨[], xs, rfl, by simp⟩
    · have hnext : next y = xs.head? := by
        rcases xs with _ | ⟨z, xs⟩
        · exact hlast y rfl
        · exact (List.isChain_cons_cons.mp hc).1
      have hlast' : ∀ e, xs.getLast? = some e → next e = none := by
        intro e he
        refine hlast e ?_
        rcases xs with _ | ⟨z, xs⟩
        · cases he
        · rwa [List.getLast?_cons_cons]
      have hpre : some y = (pre ++ [y]).getLast? := List.getLast?_concat.symm
      rw [hnext, hpre] at hf
      obtain ⟨ys, zs, rfl, rfl⟩ := ih (pre ++ [y]) hc.of_cons hlast' hf
      exact ⟨y :: ys, zs, rfl, by simp⟩

/-- What splicing out a node writes: always the null pointer into the node itself, and the pointer
of its predecessor unless it was the head. -/
theorem unlink_next {pre : Option α} {n' : α → Option α} {q' : Ends α}
    (hu : Ends.unlink next q pre x = some (n', q')) :
    q.start = some x ∧ n' = Function.update next x none ∨
      ∃ y, pre = some y ∧ n' = Function.update (Function.update next y (next x)) x none := by
  rw [Ends.unlink.eq_def] at hu
  split at hu
  · rename_i hboth
    exact .inl ⟨hboth.1, (Prod.mk.inj (Option.some.inj hu)).1.symm⟩
  split at hu
  · rename_i hstart
    exact .inl ⟨hstart, (Prod.mk.inj (Option.some.inj hu)).1.symm⟩
  cases pre with
  | none => cases hu
  | some y => exact .inr ⟨y, rfl, (Prod.mk.inj (Option.some.inj hu)).1.symm⟩

/-- Splicing out a node leaves a null pointer behind the last node if there was one. -/
theorem unlink_last {ys zs : List α} {n' : α → Option α} {q' : Ends α}
    (h : IsQueue next q (ys ++ x :: zs))
    (hlast : ∀ e, (ys ++ x :: zs).getLast? = some e → next e = none)
    (hu : Ends.unlink next q ys.getLast? x = some (n', q')) :
    n' x = none ∧ ∀ e, (ys ++ zs).getLast? = some e → n' e = none := by
  -- the last node stays the last one, or it is the node that took over the pointer of `x`
  have hend : ∀ e, (ys ++ zs).getLast? = some e →
      next e = none ∧ e ≠ x ∧ e ∉ ys ∨ ys.getLast? = some e ∧ next x = none := by
    intro e he
    rcases zs with _ | ⟨z, zs⟩
    · rw [List.append_nil] at he
      exact .inr ⟨he, hlast x List.getLast?_concat⟩
    · rw [List.getLast?_append_of_ne_nil _ (by simp)] at he
      have hez : e ∈ z :: zs := List.mem_of_getLast? he
      have hnd := List.nodup_append.mp h.nodup
      refine .inl ⟨hlast e ?_, ?_, ?_⟩
      · rw [List.getLast?_append_of_ne_nil _ (by simp), List.getLast?_cons_cons, he]
      · rintro rfl
        exact (List.nodup_cons.mp hnd.2.1).1 hez
      · intro hey
        exact hnd.2.2 e hey e (List.mem_cons_of_mem _ hez) rfl
  rcases unlink_next hu with ⟨hstart, rfl⟩ | ⟨y, hy, rfl⟩
  · refine ⟨Function.update_self .., fun e he => ?_⟩
    rcases hend e he with ⟨hnone, hex, -⟩ | ⟨hey, -⟩
    · rw [Function.update_of_ne hex, hnone]
    · -- then `x` is the first node and there is no node before it
      rcases ys with _ | ⟨y, ys⟩
      · cases hey
      · have hyx : y = x := Option.some.inj (h.start.symm.trans hstart)
        have hnd := (List.nodup_cons.mp h.nodup).1
        exact absurd (by simp [hyx]) hnd
  · refine ⟨Function.update_self .., fun e he => ?_⟩
    by_cases hex : e = x
    · rw [hex, Function.update_self]
    · rw [Function.update_of_ne hex]
      rcases hend e he with ⟨hnone, -, hey⟩ | ⟨hey, hnone⟩
      · have hne : e ≠ y := fun hee => hey (hee ▸ List.mem_of_getLast? hy)
        rw [Function.update_of_ne hne, hnone]
      · rw [Option.some.inj (hey.symm.trans hy), Function.update_self, hnone]

end Walk

/-! ### Reading a queue back -/

/-- Following `next` from the head cell to the tail cell lists the queue, given at least as much
fuel as there are nodes. -/
theorem toList_eq [DecidableEq α] (h : IsQueue next q xs) {n : ℕ} (hn : xs.length ≤ n) :
    Ends.toList next q.stop n q.start = xs := by
  induction xs generalizing q n with
  | nil =>
    rw [h.eq_nil]
    cases n <;> rfl
  | cons y ys ih =>
    obtain ⟨m, rfl⟩ : ∃ m, n = m + 1 := ⟨n - 1, by simp at hn; omega⟩
    have hstart : q.start = some y := h.start
    by_cases hys : ys = []
    · subst hys
      have hstop : q.stop = some y := h.stop
      simp [Ends.toList, hstart, hstop]
    · have hstop : q.stop ≠ some y := fun he =>
        hys (h.start_eq_stop.mp (hstart.trans he.symm))
      have hrest := ih (h.tail hys) (n := m) (by simpa using hn)
      simpa [Ends.toList, hstart, hstop] using hrest

end IsQueue

end GreenLib
