import Mathlib.Algebra.BigOperators.Group.Finset.Basic
import Mathlib.Algebra.Order.BigOperators.Group.Finset
import Mathlib.Data.Fintype.Basic
import Mathlib.Data.Fintype.EquivFin

/-!
# Counting the components of a system

A system of finitely many components is a function `f` from their names to their local states. The
total of a weight `w` over all components counts, with `w` an indicator, the components in some
local state. When one component moves, a total changes by the weights of its old and its new state
(`total_update`), so an invariant about totals is linear arithmetic over a few numbers.

Components that take consecutive numbers, each at most one, are `Numbered`. When each of them has
one, a total over the components is a sum over the numbers (`Numbered.total_eq`).

An assignment gives to the members of a set `A` members of a set `B`. If the sets are equally large
and nobody shares, then either all members of `B` are taken (`taken_of_card`) or some member of `A`
has none (`card_lt_of_none`).
-/

namespace GreenLib

open Finset

variable {T α : Type} [Fintype T]

/-- The sum of the weights of all components. Invariants that count threads or messages in some
phase are equations between such sums. -/
def total (w : α → ℕ) (f : T → α) : ℕ := ∑ t, w (f t)

variable {w : α → ℕ} {f : T → α} {t : T} {a : α}

/-- **One component moves**, and the total changes by the difference of the two weights. Both sides
are sums, so that no natural number is subtracted. -/
theorem total_update [DecidableEq T] (w : α → ℕ) (f : T → α) (t : T) (a : α) :
    total w (Function.update f t a) + w (f t) = total w f + w a := by
  have hrest : ∑ u ∈ univ.erase t, w (Function.update f t a u) = ∑ u ∈ univ.erase t, w (f u) := by
    refine sum_congr rfl fun u hu => ?_
    rw [Function.update_of_ne (ne_of_mem_erase hu)]
  have hnew := add_sum_erase univ (fun u => w (Function.update f t a u)) (mem_univ t)
  have hold := add_sum_erase univ (fun u => w (f u)) (mem_univ t)
  simp only [Function.update_self, hrest] at hnew
  rw [total, total, ← hnew, ← hold]
  omega

theorem le_total (w : α → ℕ) (f : T → α) (t : T) : w (f t) ≤ total w f :=
  single_le_sum (f := fun u => w (f u)) (fun _ _ => Nat.zero_le _) (mem_univ t)

theorem total_eq_zero : total w f = 0 ↔ ∀ t, w (f t) = 0 := by
  simp [total, sum_eq_zero_iff]

/-! ## Numbers -/

/-- Whether a component has a number, as a weight for `total`. -/
def hasNumber (o : Option ℕ) : ℕ := if o = none then 0 else 1

/-- The components have taken the numbers below `m`, each at most one and none twice. This is how
ids are given to clients in the order of their arrival. -/
structure Numbered (id : T → Option ℕ) (m : ℕ) : Prop where
  lt : ∀ c i, id c = some i → i < m
  inj : ∀ c d i, id c = some i → id d = some i → c = d
  count : total hasNumber id = m

namespace Numbered

variable {id : T → Option ℕ} {m i : ℕ} {c d : T}

/-- Nobody has a number at the start. -/
theorem zero : Numbered (fun _ : T => none) 0 :=
  ⟨nofun, nofun, total_eq_zero.mpr fun _ => rfl⟩

/-- A component takes the next number. -/
theorem take [DecidableEq T] (h : Numbered id m) (hc : id c = none) :
    Numbered (Function.update id c (some m)) (m + 1) := by
  refine ⟨fun d i => ?_, fun d e i => ?_, ?_⟩
  · rcases eq_or_ne d c with rfl | hne
    · rw [Function.update_self]
      rintro ⟨⟩
      exact Nat.lt_succ_self _
    · rw [Function.update_of_ne hne]
      exact fun hi => Nat.lt_succ_of_lt (h.lt d i hi)
  · -- the new number is larger than those of the others
    rcases eq_or_ne d c with rfl | hd <;> rcases eq_or_ne e d with rfl | he
    · exact fun _ _ => rfl
    · rw [Function.update_self, Function.update_of_ne he]
      rintro ⟨⟩ hi
      exact absurd (h.lt e _ hi) (Nat.lt_irrefl _)
    · exact fun _ _ => rfl
    · rcases eq_or_ne e c with rfl | hec
      · rw [Function.update_self, Function.update_of_ne hd]
        rintro hi ⟨⟩
        exact absurd (h.lt d _ hi) (Nat.lt_irrefl _)
      · rw [Function.update_of_ne hd, Function.update_of_ne hec]
        exact h.inj d e i
  · have ht := total_update hasNumber id c (some m)
    rw [hc, h.count] at ht
    exact ht

/-- As long as somebody has no number, not all numbers are taken, and the next one is still in
range. -/
theorem lt_of_none (h : Numbered id m) (hc : id c = none) : m < Fintype.card T := by
  have hle : total hasNumber id < ∑ _c : T, 1 := by
    refine Finset.sum_lt_sum (fun d _ => ?_) ⟨c, Finset.mem_univ c, ?_⟩
    · rw [hasNumber]
      split <;> omega
    · rw [hasNumber, if_pos hc]
      exact Nat.one_pos
  rw [h.count] at hle
  simpa using hle

/-- When everybody has a number, all are taken. -/
theorem eq_of_all (h : Numbered id m) (hall : ∀ c, id c ≠ none) : m = Fintype.card T := by
  have hone : total hasNumber id = ∑ _c : T, 1 :=
    Finset.sum_congr rfl fun c _ => if_neg (hall c)
  rw [h.count] at hone
  simpa using hone

theorem le (h : Numbered id m) : m ≤ Fintype.card T := by
  by_contra hlt
  exact hlt (h.eq_of_all fun c hc => hlt (h.lt_of_none hc).le).le

/-- When all numbers are taken, each of them is somebody's. -/
theorem surj (h : Numbered id m) (hm : m = Fintype.card T) (hi : i < m) :
    ∃ c, id c = some i := by
  subst hm
  have hsome : ∀ c, ∃ j : Fin (Fintype.card T), id c = some j.1 := by
    intro c
    rcases hc : id c with _ | j
    · exact absurd (h.lt_of_none hc) (Nat.lt_irrefl _)
    · exact ⟨⟨j, h.lt c j hc⟩, rfl⟩
  choose f hf using hsome
  have hinj : Function.Injective f := fun c d he => h.inj c d _ (hf c) (he ▸ hf d)
  have hbij := (Fintype.bijective_iff_injective_and_card f).mpr ⟨hinj, by simp⟩
  obtain ⟨c, hc⟩ := hbij.2 ⟨i, hi⟩
  exact ⟨c, by rw [hf c, hc]⟩

/-- A total over the components is a sum over the numbers, when all have one. It turns a count of
clients into a count of table entries. -/
theorem total_eq (h : Numbered id m) (hall : ∀ c, id c ≠ none) (w : Option ℕ → ℕ) :
    total w id = ∑ i ∈ range m, w (some i) := by
  choose f hf using fun c => Option.ne_none_iff_exists'.mp (hall c)
  refine sum_nbij f (fun c _ => mem_range.mpr (h.lt c _ (hf c))) (fun c _ d _ he => ?_)
    (fun i hi => ?_) fun c _ => by rw [hf c]
  · exact h.inj c d _ (hf c) (he ▸ hf d)
  · obtain ⟨c, hc⟩ := h.surj (h.eq_of_all hall) (mem_range.mp hi)
    exact ⟨c, mem_univ c, Option.some.inj ((hf c).symm.trans hc)⟩

end Numbered

/-! ## Assignments -/

section Assignment

variable {ι κ : Type} {A : Finset ι} {B : Finset κ} {g : ι → Option κ}

/-- When each member of `A` has its own member of `B`, and `B` is not larger, all are taken: the
pigeonhole principle with the choice as a partial function. -/
theorem taken_of_card (hcard : B.card ≤ A.card) (hg : ∀ i ∈ A, ∃ c ∈ B, g i = some c)
    (hinj : ∀ i ∈ A, ∀ j ∈ A, g i = g j → i = j) {c : κ} (hc : c ∈ B) : ∃ i ∈ A, g i = some c := by
  classical
  have hsub : A.image g ⊆ B.image some := by
    intro o ho
    obtain ⟨i, hi, rfl⟩ := mem_image.mp ho
    obtain ⟨c, hc, he⟩ := hg i hi
    exact mem_image.mpr ⟨c, hc, he.symm⟩
  have hle : (B.image some).card ≤ (A.image g).card := by
    rw [card_image_of_injective _ (Option.some_injective κ),
      card_image_of_injOn fun i hi j hj => hinj i hi j hj]
    exact hcard
  have hmem : some c ∈ A.image g := by
    rw [eq_of_subset_of_card_le hsub hle]
    exact mem_image_of_mem some hc
  exact mem_image.mp hmem

/-- When all members of `B` are taken and some member of `A` has none, `A` is larger: there is one
thread more than there is work. -/
theorem card_lt_of_none (hall : ∀ c ∈ B, ∃ i ∈ A, g i = some c) {x : ι} (hx : x ∈ A)
    (hnone : g x = none) : B.card < A.card := by
  classical
  have hsub : B.image some ⊆ (A.erase x).image g := by
    intro o ho
    obtain ⟨c, hc, rfl⟩ := mem_image.mp ho
    obtain ⟨i, hi, he⟩ := hall c hc
    refine mem_image.mpr ⟨i, mem_erase.mpr ⟨?_, hi⟩, he⟩
    rintro rfl
    cases hnone.symm.trans he
  calc B.card = (B.image some).card := (card_image_of_injective _ (Option.some_injective κ)).symm
    _ ≤ ((A.erase x).image g).card := card_le_card hsub
    _ ≤ (A.erase x).card := card_image_le
    _ < A.card := card_erase_lt_of_mem hx

end Assignment

end GreenLib
