import Mathlib.Data.List.Basic
import Mathlib.Data.UInt
import Mathlib.Tactic.Basic

/-!
# The untyped budget

`allocate_untypeds` of `main.c` with a `size_t` of 32 bits. It asks the allocator for untyped
objects of every size from the largest to the smallest one, as many as it can get, up to a number of
objects and a number of bytes. The test for the bytes is done in the arithmetic of `size_t`.

When the sum of the test wraps around, it is zero, the test succeeds, and more than `bytes` is
allocated; `populate_untypeds` calls the function with `UINT_MAX`, where two objects of 2 GiB are
enough (`untyped_budget_exceeded`). The result is within the budget, whatever the allocator answers,
exactly if `bytes` is below 2 GiB or at most one object is asked for (`untyped_budget`).
-/

namespace GreenLib

/-! ## The function -/

/-- `PAGE_BITS_4K`. The loop over the sizes ends above it. -/
def pageBits4K : ℕ := 12

/-- `seL4_WordBits` of the 32-bit platform, on which `size_t` has this many bits as well. -/
def wordBits : ℕ := 32

/-- `BIT`, in a machine word. -/
def bit (sizeBits : ℕ) : UInt32 := UInt32.ofNat (1 <<< sizeBits)

/-- A call of `vka_alloc_untyped`: the size that it was asked for, and what it answered. -/
structure VkaCall : Type where
  sizeBits : ℕ
  /-- whether it returned 0 -/
  granted : Bool
  deriving DecidableEq

/-- The variables of `allocate_untypeds`, and the history of its calls. -/
structure Untypeds : Type where
  /-- `num_untypeds` -/
  num : UInt32
  allocated : UInt32
  /-- the `size_bits` of the objects in `untypeds` -/
  objects : List ℕ
  /-- history: the calls of `vka_alloc_untyped` so far -/
  calls : List VkaCall
  deriving DecidableEq

namespace Untypeds

/-- The call of `vka_alloc_untyped`, and the body of the loop if it returns 0. -/
def request (s : Untypeds) (sizeBits : ℕ) (granted : Bool) : Untypeds :=
  let s := { s with calls := s.calls ++ [⟨sizeBits, granted⟩] }
  if granted then
    { s with
      allocated := s.allocated + bit sizeBits
      num := s.num + 1
      objects := s.objects ++ [sizeBits] }
  else s

end Untypeds

section Allocate

variable (answer : ℕ → Bool) (bytes maxUntypeds : UInt32)

/-- The inner loop, for at most `fuel` objects. The allocator answers its `k`-th call with
`answer k`. -/
def whileGranted (sizeBits : ℕ) : ℕ → Untypeds → Untypeds
  | 0, s => s
  | fuel + 1, s =>
    if s.num < maxUntypeds ∧ s.allocated + bit sizeBits ≤ bytes then
      if answer s.calls.length then
        whileGranted sizeBits fuel (s.request sizeBits true)
      else s.request sizeBits false
    else s

/-- The inner loop. It is left when there are `max_untypeds` objects, at the latest. -/
def allocateSize (sizeBits : ℕ) (s : Untypeds) : Untypeds :=
  whileGranted answer bytes maxUntypeds sizeBits (maxUntypeds.toNat - s.num.toNat) s

/-- The outer loop, from `size_bits` on. -/
def allocateFrom : ℕ → Untypeds → Untypeds
  | 0, s => s
  | sizeBits + 1, s =>
    if pageBits4K < sizeBits + 1 then
      allocateFrom sizeBits (allocateSize answer bytes maxUntypeds (sizeBits + 1) s)
    else s

/-- `allocate_untypeds`, with an allocator that may grant or refuse each request. The largest size
is tried first. -/
def allocateUntypeds : Untypeds :=
  allocateFrom answer bytes maxUntypeds (wordBits - 1) ⟨0, 0, [], []⟩

end Allocate

/-- Within a word, `BIT` is a power of two. -/
theorem bit_toNat {b : ℕ} (hb : b < wordBits) : (bit b).toNat = 2 ^ b := by
  have hlt : 2 ^ b < 2 ^ 32 := Nat.pow_lt_pow_right Nat.one_lt_two hb
  rw [bit, Nat.one_shiftLeft, UInt32.toNat_ofNat', Nat.mod_eq_of_lt hlt]

variable {answer : ℕ → Bool} {bytes maxUntypeds : UInt32} {b : ℕ} {s : Untypeds}

/-- The counter does not wrap: it is below `max_untypeds`. -/
theorem num_succ (hn : s.num < maxUntypeds) : (s.num + 1).toNat = s.num.toNat + 1 := by
  have hmax := maxUntypeds.toNat_lt
  rw [UInt32.lt_iff_toNat_lt] at hn
  rw [UInt32.toNat_add, UInt32.toNat_one, Nat.mod_eq_of_lt (by omega)]

/-- **The inner loop** is the one of the source: the fuel does not end it. -/
theorem allocateSize_eq : allocateSize answer bytes maxUntypeds b s =
    if s.num < maxUntypeds ∧ s.allocated + bit b ≤ bytes then
      if answer s.calls.length then
        allocateSize answer bytes maxUntypeds b (s.request b true)
      else s.request b false
    else s := by
  rcases hfuel : maxUntypeds.toNat - s.num.toNat with _ | fuel
  · have hfull : ¬ s.num < maxUntypeds := by
      rw [UInt32.lt_iff_toNat_lt]
      omega
    rw [allocateSize, hfuel, whileGranted, if_neg fun h => hfull h.1]
  · rw [allocateSize, hfuel, whileGranted]
    split
    · rename_i htest
      have hnum : (s.request b true).num.toNat = s.num.toNat + 1 := num_succ htest.1
      have hrest : maxUntypeds.toNat - (s.request b true).num.toNat = fuel := by omega
      rw [allocateSize, hrest]
    · rfl

/-! ## The budget -/

/-- The size of objects, without wrapping. -/
def totalSize (objects : List ℕ) : ℕ := (objects.map (2 ^ ·)).sum

theorem totalSize_append (xs : List ℕ) (b : ℕ) : totalSize (xs ++ [b]) = totalSize xs + 2 ^ b := by
  simp [totalSize]

/-- **The budget** of `allocate_untypeds`: at most so many objects and so many bytes, the largest
objects first, and no size given up without a reason. -/
structure Budget (bytes maxUntypeds : UInt32) (s : Untypeds) : Prop where
  length : s.objects.length = s.num.toNat
  count : s.num ≤ maxUntypeds
  sorted : s.objects.Pairwise (· ≥ ·)
  range : ∀ b ∈ s.objects, pageBits4K + 1 ≤ b ∧ b ≤ wordBits - 1
  size : totalSize s.objects ≤ bytes.toNat
  /-- Below `max_untypeds` objects, every size was given up for a reason. What had been allocated
  when a size was given up are the objects of at least this size. -/
  greedy : s.num < maxUntypeds → ∀ b, pageBits4K + 1 ≤ b → b ≤ wordBits - 1 →
    bytes.toNat < totalSize (s.objects.filter (b ≤ ·)) + 2 ^ b ∨
      ∃ c ∈ s.calls, c.sizeBits = b ∧ c.granted = false

/-- The calls of `allocate_untypeds` in which no sum of the test wraps: the largest object added to
less than 2 GiB stays below 4 GiB, and the first object is added to nothing. -/
def Unwrapped (bytes maxUntypeds : UInt32) : Prop := bytes.toNat < 2 ^ 31 ∨ maxUntypeds.toNat ≤ 1

namespace Untypeds

/-- The size `b` has been given up: an object of this size would be one too many, or too large, or
has been refused. -/
def Left (bytes maxUntypeds : UInt32) (s : Untypeds) (b : ℕ) : Prop :=
  maxUntypeds ≤ s.num ∨ bytes.toNat < totalSize (s.objects.filter (b ≤ ·)) + 2 ^ b ∨
    ∃ c ∈ s.calls, c.sizeBits = b ∧ c.granted = false

/-- **The invariant** of the loops, when the sizes above `b` have been given up. -/
structure Inv (bytes maxUntypeds : UInt32) (b : ℕ) (s : Untypeds) : Prop where
  length : s.objects.length = s.num.toNat
  count : s.num ≤ maxUntypeds
  sorted : s.objects.Pairwise (· ≥ ·)
  range : ∀ c ∈ s.objects, pageBits4K + 1 ≤ c ∧ c ≤ wordBits - 1
  above : ∀ c ∈ s.objects, b ≤ c
  /-- `allocated` is what has been allocated: nothing has wrapped -/
  allocated : s.allocated.toNat = totalSize s.objects
  size : totalSize s.objects ≤ bytes.toNat
  left : ∀ c, b < c → c ≤ wordBits - 1 → Left bytes maxUntypeds s c

namespace Inv

theorem initial : Inv bytes maxUntypeds (wordBits - 1) ⟨0, 0, [], []⟩ where
  length := rfl
  count := UInt32.le_iff_toNat_le.mpr (Nat.zero_le _)
  sorted := .nil
  range := nofun
  above := nofun
  allocated := rfl
  size := Nat.zero_le _
  left _ hlt hle := absurd hlt hle.not_gt

/-- **The sum of the test** is that of the numbers, because the call is one in which it does not
wrap. -/
theorem test_toNat (h : Inv bytes maxUntypeds b s) (hwrap : Unwrapped bytes maxUntypeds)
    (hb : b < wordBits) (hnum : s.num < maxUntypeds) :
    (s.allocated + bit b).toNat = s.allocated.toNat + 2 ^ b := by
  have hbit : 2 ^ b ≤ 2 ^ 31 := Nat.pow_le_pow_right Nat.two_pos (Nat.le_sub_one_of_lt hb)
  have hlow : s.allocated.toNat < 2 ^ 31 := by
    rw [UInt32.lt_iff_toNat_lt] at hnum
    rcases hwrap with hbytes | hone
    · exact h.allocated ▸ h.size.trans_lt hbytes
    · -- there is no object yet
      have hnil : s.objects = [] := List.length_eq_zero_iff.mp (by rw [h.length]; omega)
      rw [h.allocated, hnil]
      decide
  rw [UInt32.toNat_add, bit_toNat hb]
  exact Nat.mod_eq_of_lt (by omega)

/-- A request is granted. The test has said that there is room for it. -/
theorem grant (h : Inv bytes maxUntypeds b s) (hwrap : Unwrapped bytes maxUntypeds)
    (hb : pageBits4K < b) (hb' : b < wordBits) (hnum : s.num < maxUntypeds)
    (htest : s.allocated + bit b ≤ bytes) : Inv bytes maxUntypeds b (s.request b true) where
  length := by
    change (s.objects ++ [b]).length = (s.num + 1).toNat
    rw [num_succ hnum, List.length_append, h.length]
    rfl
  count := by
    rw [UInt32.lt_iff_toNat_lt] at hnum
    change s.num + 1 ≤ maxUntypeds
    rw [UInt32.le_iff_toNat_le, num_succ (UInt32.lt_iff_toNat_lt.mpr hnum)]
    exact hnum
  sorted := by
    refine List.pairwise_append.mpr ⟨h.sorted, List.pairwise_singleton .., fun c hc d hd => ?_⟩
    rw [List.mem_singleton.mp hd]
    exact h.above c hc
  range c hc := by
    rcases List.mem_append.mp hc with hc | hc
    · exact h.range c hc
    · rw [List.mem_singleton.mp hc]
      exact ⟨hb, Nat.le_sub_one_of_lt hb'⟩
  above c hc := by
    rcases List.mem_append.mp hc with hc | hc
    · exact h.above c hc
    · exact (List.mem_singleton.mp hc).ge
  allocated := by
    change (s.allocated + bit b).toNat = totalSize (s.objects ++ [b])
    rw [h.test_toNat hwrap hb' hnum, totalSize_append, h.allocated]
  size := by
    rw [UInt32.le_iff_toNat_le, h.test_toNat hwrap hb' hnum] at htest
    change totalSize (s.objects ++ [b]) ≤ bytes.toNat
    rwa [totalSize_append, ← h.allocated]
  left c hlt hle := by
    rcases h.left c hlt hle with hfull | hbytes | ⟨d, hd, hrefused⟩
    · exact absurd hnum (UInt32.not_lt.mpr hfull)
    · have hsmall : (s.objects ++ [b]).filter (c ≤ ·) = s.objects.filter (c ≤ ·) := by
        simp [List.filter_append, hlt]
      refine .inr (.inl ?_)
      change bytes.toNat < totalSize ((s.objects ++ [b]).filter (c ≤ ·)) + 2 ^ c
      rwa [hsmall]
    · exact .inr (.inr ⟨d, List.mem_append_left _ hd, hrefused⟩)

/-- A request is refused, and with it the size given up. -/
theorem refuse (h : Inv bytes maxUntypeds b s) :
    Inv bytes maxUntypeds b (s.request b false) ∧
      Left bytes maxUntypeds (s.request b false) b := by
  refine ⟨⟨h.length, h.count, h.sorted, h.range, h.above, h.allocated, h.size,
    fun c hlt hle => ?_⟩, .inr (.inr ⟨⟨b, false⟩, ?_, rfl, rfl⟩)⟩
  · rcases h.left c hlt hle with hfull | hbytes | ⟨d, hd, hrefused⟩
    · exact .inl hfull
    · exact .inr (.inl hbytes)
    · exact .inr (.inr ⟨d, List.mem_append_left _ hd, hrefused⟩)
  · exact List.mem_append_right _ List.mem_cons_self

/-- The test fails, and with it the size is given up. -/
theorem stop (h : Inv bytes maxUntypeds b s) (hb : b < wordBits)
    (htest : ¬ (s.num < maxUntypeds ∧ s.allocated + bit b ≤ bytes)) :
    Left bytes maxUntypeds s b := by
  rcases not_and_or.mp htest with hnum | hbytes
  · exact .inl (UInt32.not_lt.mp hnum)
  · -- wrapping makes the sum smaller at most
    have hall : s.objects.filter (b ≤ ·) = s.objects :=
      List.filter_eq_self.mpr fun c hc => decide_eq_true (h.above c hc)
    have hmod : (s.allocated + bit b).toNat ≤ s.allocated.toNat + 2 ^ b := by
      rw [UInt32.toNat_add, bit_toNat hb]
      exact Nat.mod_le ..
    rw [UInt32.le_iff_toNat_le] at hbytes
    refine .inr (.inl ?_)
    rw [hall, ← h.allocated]
    omega

/-- **The inner loop** keeps the invariant and gives the size up, by induction on the fuel. -/
theorem whileGranted (hwrap : Unwrapped bytes maxUntypeds) (hb : pageBits4K < b)
    (hb' : b < wordBits) (fuel : ℕ) (h : Inv bytes maxUntypeds b s)
    (hfuel : maxUntypeds.toNat - s.num.toNat = fuel) :
    Inv bytes maxUntypeds b (whileGranted answer bytes maxUntypeds b fuel s) ∧
      Left bytes maxUntypeds (whileGranted answer bytes maxUntypeds b fuel s) b := by
  induction fuel generalizing s with
  | zero =>
    refine ⟨h, .inl ?_⟩
    rw [UInt32.le_iff_toNat_le]
    exact Nat.le_of_sub_eq_zero hfuel
  | succ fuel ih =>
    rw [GreenLib.whileGranted]
    split
    · rename_i htest
      split
      · have hnum : (s.request b true).num.toNat = s.num.toNat + 1 := num_succ htest.1
        exact ih (h.grant hwrap hb hb' htest.1 htest.2) (by omega)
      · exact h.refuse
    · rename_i htest
      exact ⟨h, h.stop hb' htest⟩

/-- The next smaller size begins with the invariant that the last one ended with. -/
theorem next (h : Inv bytes maxUntypeds (b + 1) s) (hleft : Left bytes maxUntypeds s (b + 1)) :
    Inv bytes maxUntypeds b s where
  length := h.length
  count := h.count
  sorted := h.sorted
  range := h.range
  above c hc := (Nat.le_succ b).trans (h.above c hc)
  allocated := h.allocated
  size := h.size
  left c hlt hle := by
    rcases (Nat.succ_le_of_lt hlt).eq_or_lt with rfl | hlt'
    · exact hleft
    · exact h.left c hlt' hle

/-- **The outer loop** ends with the invariant at `PAGE_BITS_4K`. -/
theorem allocateFrom (hwrap : Unwrapped bytes maxUntypeds) (hb : pageBits4K ≤ b)
    (hb' : b < wordBits) (h : Inv bytes maxUntypeds b s) :
    Inv bytes maxUntypeds pageBits4K (allocateFrom answer bytes maxUntypeds b s) := by
  induction b generalizing s with
  | zero => exact absurd hb (by decide)
  | succ b ih =>
    rw [GreenLib.allocateFrom]
    split
    · rename_i hlt
      obtain ⟨hinv, hleft⟩ :
          Inv bytes maxUntypeds (b + 1) (allocateSize answer bytes maxUntypeds (b + 1) s) ∧
            Left bytes maxUntypeds (allocateSize answer bytes maxUntypeds (b + 1) s) (b + 1) :=
        h.whileGranted hwrap hlt hb' _ rfl
      exact ih (Nat.le_of_lt_succ hlt) (Nat.lt_of_succ_lt hb') (hinv.next hleft)
    · rename_i hge
      have hlast : b + 1 = pageBits4K := le_antisymm (not_lt.mp hge) hb
      exact hlast ▸ h

theorem budget (h : Inv bytes maxUntypeds pageBits4K s) : Budget bytes maxUntypeds s where
  length := h.length
  count := h.count
  sorted := h.sorted
  range := h.range
  size := h.size
  greedy hnum b hb hb' := (h.left b hb hb').resolve_left (UInt32.not_le.mpr hnum)

end Inv

end Untypeds

/-! ## The second object of 2 GiB -/

/-- Nothing is given back: a request leaves at least as much allocated. -/
theorem totalSize_le_request (granted : Bool) :
    totalSize s.objects ≤ totalSize (s.request b granted).objects := by
  cases granted
  · exact le_rfl
  · change totalSize s.objects ≤ totalSize (s.objects ++ [b])
    rw [totalSize_append]
    exact Nat.le_add_right ..

theorem totalSize_le_whileGranted (fuel : ℕ) :
    totalSize s.objects ≤ totalSize (whileGranted answer bytes maxUntypeds b fuel s).objects := by
  induction fuel generalizing s with
  | zero => exact le_rfl
  | succ fuel ih =>
    rw [whileGranted]
    split
    · split
      · exact (totalSize_le_request true).trans ih
      · exact totalSize_le_request false
    · exact le_rfl

theorem totalSize_le_allocateFrom :
    totalSize s.objects ≤ totalSize (allocateFrom answer bytes maxUntypeds b s).objects := by
  induction b generalizing s with
  | zero => exact le_rfl
  | succ b ih =>
    rw [allocateFrom]
    split
    · exact (totalSize_le_whileGranted _).trans ih
    · exact le_rfl

/-- An allocator that grants everything gives two objects of 2 GiB: the sum of the second test is
zero. -/
theorem two_largest (hbytes : 2 ^ 31 ≤ bytes.toNat) (hmax : 2 ≤ maxUntypeds.toNat) :
    2 ^ 32 ≤ totalSize (allocateUntypeds (fun _ => true) bytes maxUntypeds).objects := by
  let s₀ : Untypeds := ⟨0, 0, [], []⟩
  have hfirst : s₀.num < maxUntypeds ∧ s₀.allocated + bit 31 ≤ bytes := by
    have hbit : (0 + bit 31).toNat = 2 ^ 31 := by decide
    refine ⟨UInt32.lt_iff_toNat_lt.mpr (Nat.lt_of_lt_of_le Nat.two_pos hmax), ?_⟩
    exact UInt32.le_iff_toNat_le.mpr (hbit ▸ hbytes)
  have hsecond : (s₀.request 31 true).num < maxUntypeds ∧
      (s₀.request 31 true).allocated + bit 31 ≤ bytes := by
    have hzero : (0 + bit 31 + bit 31).toNat = 0 := by decide
    refine ⟨UInt32.lt_iff_toNat_lt.mpr hmax, ?_⟩
    exact UInt32.le_iff_toNat_le.mpr (hzero ▸ Nat.zero_le _)
  have htwo : allocateSize (fun _ => true) bytes maxUntypeds 31 s₀ =
      allocateSize (fun _ => true) bytes maxUntypeds 31
        ((s₀.request 31 true).request 31 true) := by
    rw [allocateSize_eq, if_pos hfirst, if_pos rfl, allocateSize_eq, if_pos hsecond, if_pos rfl]
  have hfrom : allocateUntypeds (fun _ => true) bytes maxUntypeds =
      allocateFrom (fun _ => true) bytes maxUntypeds 30
        (allocateSize (fun _ => true) bytes maxUntypeds 31 s₀) := by
    rw [allocateUntypeds, show wordBits - 1 = 30 + 1 from rfl, allocateFrom, if_pos (by decide)]
  have hsize : totalSize ((s₀.request 31 true).request 31 true).objects = 2 ^ 32 := by
    simp [s₀, Untypeds.request, totalSize]
  rw [hfrom, htwo, ← hsize]
  exact (totalSize_le_whileGranted _).trans totalSize_le_allocateFrom

/-- **The untyped budget** is kept by every allocator exactly if the budget is below 2 GiB or at
most one object is asked for. -/
theorem untyped_budget (bytes maxUntypeds : UInt32) :
    (∀ answer, Budget bytes maxUntypeds (allocateUntypeds answer bytes maxUntypeds)) ↔
      bytes.toNat < 2 ^ 31 ∨ maxUntypeds.toNat ≤ 1 := by
  constructor
  · intro h
    by_contra hwrap
    rw [not_or, not_lt, not_le] at hwrap
    have hsize := (two_largest hwrap.1 hwrap.2).trans (h fun _ => true).size
    exact absurd bytes.toNat_lt hsize.not_gt
  · intro hwrap answer
    refine Untypeds.Inv.budget ?_
    rw [allocateUntypeds]
    exact Untypeds.Inv.initial.allocateFrom hwrap (by decide) (by decide)

/-- 24 KiB from an allocator that grants everything are an object of 16 and one of 8 KiB. -/
example : (allocateUntypeds (fun _ => true) 24576 4).objects = [14, 13] := by decide +kernel

/-- **The budget is exceeded** in the call of `populate_untypeds`, with `UINT_MAX` bytes: the second
object of 2 GiB brings `allocated` to zero, the third one fits again. -/
theorem untyped_budget_exceeded :
    (allocateUntypeds (fun _ => true) 4294967295 3).objects = [31, 31, 31] ∧
      (4294967295 : UInt32).toNat <
        totalSize (allocateUntypeds (fun _ => true) 4294967295 3).objects ∧
      ¬ Budget 4294967295 3 (allocateUntypeds (fun _ => true) 4294967295 3) := by
  have hobjects : (allocateUntypeds (fun _ => true) 4294967295 3).objects = [31, 31, 31] := by
    decide +kernel
  have hsize : (4294967295 : UInt32).toNat < totalSize [31, 31, 31] := by decide
  refine ⟨hobjects, hobjects ▸ hsize, fun h => ?_⟩
  have hle := h.size
  rw [hobjects] at hle
  exact absurd hsize hle.not_gt

end GreenLib
