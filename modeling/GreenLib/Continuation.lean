import GreenLib.Buffer
import GreenLib.Run
import GreenLib.State
import Mathlib.Data.List.Perm.Subperm

/-!
# The continuation ring

The event-driven server does not block: a request that cannot be served is stored as a
continuation in one of two rings, one per role. `save_continuation` fills the slot `last`,
`retrieve_start_conti` hands out the slot `start` and moves on, and `restore_continuation` empties a
slot that was handed out before. There is no counter: whether the ring is empty is read off the
`occupied` flag of the slot behind `start`.

`Ring.Holds r out qs` is the abstract view: the slots `qs` are queued, in this order, and the slots
`out` have been handed out and not been restored. The law of the ring holds as long as
`retrieve_start_conti` does not take the last queued slot while the slot behind it is still
handed out (`Ring.Clear`); without that, the flag of the old entry is taken for a new one.
-/

namespace GreenLib

/-! ## The code -/

/-- `MAX_CONTI`, the number of slots of a ring. -/
def maxConti : ℕ := 1000

/-- `continuation_t`: what is stored about a request, and whether the slot is in use. -/
structure Continuation : Type where
  orderI : ℤ
  orderJ : ℤ
  occupied : Bool
  deriving DecidableEq

/-- The variables of one ring. The array is a total function here, of which slots below `MAX_CONTI`
are used (`Holds.lt`). -/
structure Ring : Type where
  /-- `producer_continuations` or `consumer_continuations` -/
  slots : ℕ → Continuation
  /-- `…_start_conti`; `none` is `-1` -/
  start : Option ℕ
  /-- `…_last_conti` -/
  last : ℕ

/-- The slot behind slot `i`, the first one if `i` is the last one. -/
def nextConti (i : ℕ) : ℕ := if i = maxConti - 1 then 0 else i + 1

namespace Ring

/-- The ring that `initial_client_pool` sets up: no slot is occupied, and there is no start. -/
def initial : Ring := ⟨fun _ => ⟨0, 0, false⟩, none, 0⟩

/-- `save_continuation`: fill the slot `last`, which has to be free, and begin the queue with it if
there is none. -/
def saveContinuation (r : Ring) (orderI orderJ : ℤ) : Except Fault Ring := do
  check (!(r.slots r.last).occupied)
  .ok {
    slots := Function.update r.slots r.last ⟨orderI, orderJ, true⟩
    start := if r.start = none then some r.last else r.start
    last := nextConti r.last }

/-- `restore_continuation`, with what it stores in `*order_i` and `*order_j`. -/
def restoreContinuation (r : Ring) (curConti : ℤ) : Except Fault (Ring × ℤ × ℤ) := do
  check (decide (curConti < maxConti ∧ 0 ≤ curConti))
  let i := curConti.toNat
  check (r.slots i).occupied
  .ok ({ r with slots := Function.update r.slots i { r.slots i with occupied := false } },
    (r.slots i).orderI, (r.slots i).orderJ)

/-- `retrieve_start_conti`; the result `none` is `-1`. The next start is found by the `occupied`
flag of the slot behind, whoever has set it. -/
def retrieveStartConti (r : Ring) : Ring × Option ℕ :=
  match r.start with
  | none => (r, none)
  | some i =>
    ({ r with start := if (r.slots (nextConti i)).occupied then some (nextConti i) else none },
      some i)

end Ring

/-! ## The abstract view -/

theorem nextConti_lt {i : ℕ} (h : i < maxConti) : nextConti i < maxConti := by
  unfold nextConti
  split <;> simp only [maxConti] at * <;> omega

theorem nextConti_ne (i : ℕ) : nextConti i ≠ i := by
  unfold nextConti
  split <;> simp only [maxConti] at * <;> omega

/-- The ring is longer than two slots, so a slot is not behind the one behind it. -/
theorem nextConti_nextConti_ne (i : ℕ) : nextConti (nextConti i) ≠ i := by
  unfold nextConti maxConti
  grind

theorem nextConti_inj {i j : ℕ} (h : nextConti i = nextConti j) : i = j := by
  unfold nextConti maxConti at *
  grind

namespace Ring

/-- The slots from `i` up to the one before `last`; the number of steps is bounded by the second
argument. -/
def walk (last : ℕ) : ℕ → ℕ → List ℕ
  | 0, _ => []
  | n + 1, i => if nextConti i = last then [i] else i :: walk last n (nextConti i)

/-- The slots from `start` to `last`: the continuations that are still to be retrieved. -/
def queued (r : Ring) : List ℕ :=
  match r.start with
  | none => []
  | some i => walk r.last maxConti i

/-- The last queued slot is handed out only when the slot behind it is free. A flag that is set
there would belong to an older continuation. -/
def Clear (r : Ring) : Prop :=
  ∀ i, r.start = some i → nextConti i = r.last → (r.slots r.last).occupied = false

instance (r : Ring) : Decidable r.Clear :=
  match h : r.start with
  | none => .isTrue fun i hi => by rw [h] at hi; cases hi
  | some j =>
    decidable_of_iff (nextConti j = r.last → (r.slots r.last).occupied = false)
      ⟨fun hj i hi => by rw [h] at hi; exact Option.some.inj hi ▸ hj, fun hc => hc j h⟩

/-- The slots `qs` are queued and the slots `out` are handed out. These are the occupied ones, and
no slot is both. -/
structure Holds (r : Ring) (out qs : List ℕ) : Prop where
  start : r.start = qs.head?
  /-- the queued slots follow each other, and `last` follows them -/
  chain : (qs ++ [r.last]).IsChain (fun i j => nextConti i = j)
  lt : ∀ i ∈ out ++ qs, i < maxConti
  last : r.last < maxConti
  nodup : (out ++ qs).Nodup
  occupied : ∀ i, (r.slots i).occupied = true ↔ i ∈ out ++ qs

variable {r r' : Ring} {out qs : List ℕ} {i : ℕ}

theorem initial_holds : initial.Holds [] [] where
  start := rfl
  chain := .singleton _
  lt := by nofun
  last := by decide
  nodup := List.nodup_nil
  occupied := by simp [initial]

/-- A slot outside of both lists is free, so a new continuation may go there. -/
theorem Holds.free (h : r.Holds out qs) (hi : i ∉ out ++ qs) : (r.slots i).occupied = false := by
  rw [← Bool.not_eq_true, h.occupied]
  exact hi

theorem walk_eq {last : ℕ} {qs : List ℕ} (hnodup : (i :: qs).Nodup)
    (hchain : (i :: qs ++ [last]).IsChain (fun i j => nextConti i = j)) :
    ∀ {n : ℕ}, qs.length < n → walk last n i = i :: qs := by
  induction qs generalizing i with
  | nil =>
    rintro (_ | n) hn
    · cases hn
    · exact if_pos (List.isChain_cons_cons.mp hchain).1
  | cons j qs ih =>
    rintro (_ | n) hn
    · cases hn
    have hnext : nextConti i = j := (List.isChain_cons_cons.mp hchain).1
    have hne : nextConti i ≠ last := by
      -- the slot before `last` is the last one of the list, and not `i`
      intro he
      obtain ⟨ys, e, hys⟩ : ∃ ys e, j :: qs = ys ++ [e] :=
        ⟨_, _, (List.dropLast_append_getLast (List.cons_ne_nil j qs)).symm⟩
      rw [List.cons_append, hys] at hchain
      have hlast : nextConti e = last := by
        rw [List.append_assoc, List.singleton_append, ← List.cons_append,
          List.isChain_append_cons_cons] at hchain
        exact hchain.2.1
      have hmem : e ∈ j :: qs := by simp [hys]
      have hei : i = e := nextConti_inj (he.trans hlast.symm)
      exact (List.nodup_cons.mp hnodup).1 (hei ▸ hmem)
    have htail := ih (i := j) (List.nodup_cons.mp hnodup).2 (List.isChain_cons_cons.mp hchain).2
      (n := n) (by simpa using hn)
    rw [walk, if_neg hne, hnext, htail]

/-- The queued slots are those from `start` to `last`, so the list in `Holds` can be read off the
ring. -/
theorem Holds.queued_eq (h : r.Holds out qs) : r.queued = qs := by
  have hstart := h.start
  rcases qs with _ | ⟨q, qs⟩
  · simp only [queued, hstart, List.head?_nil]
  · simp only [queued, hstart, List.head?_cons]
    have hlt : ∀ j ∈ q :: qs, j < maxConti := fun j hj => h.lt j (List.mem_append_right _ hj)
    have hnodup := (List.nodup_append.mp h.nodup).2.1
    refine walk_eq hnodup h.chain ?_
    have hsub : q :: qs ⊆ List.range maxConti := fun j hj => List.mem_range.mpr (hlt j hj)
    have hlen := (List.Nodup.subperm hnodup hsub).length_le
    rwa [List.length_range] at hlen

/-- Inversion for `save_continuation`: the assertion held, and this is the ring afterwards. -/
theorem saveContinuation_eq_ok {a b : ℤ} (h : r.saveContinuation a b = .ok r') :
    (r.slots r.last).occupied = false ∧ r' = {
      slots := Function.update r.slots r.last ⟨a, b, true⟩
      start := if r.start = none then some r.last else r.start
      last := nextConti r.last } := by
  obtain ⟨_, hc, h⟩ := bind_eq_ok h
  exact ⟨by simpa using check_eq_ok hc, (Except.ok.inj h).symm⟩

/-- **Save.** The continuation is queued behind the others, in a slot that was neither queued nor
handed out. -/
theorem Holds.save (h : r.Holds out qs) {a b : ℤ} (hs : r.saveContinuation a b = .ok r') :
    r.last ∉ out ++ qs ∧ r'.Holds out (qs ++ [r.last]) ∧
      r'.slots = Function.update r.slots r.last ⟨a, b, true⟩ := by
  obtain ⟨hfree, rfl⟩ := saveContinuation_eq_ok hs
  have hnot : r.last ∉ out ++ qs := by
    rw [← h.occupied, hfree]
    nofun
  refine ⟨hnot, ⟨?_, ?_, ?_, nextConti_lt h.last, ?_, ?_⟩, rfl⟩
  · rw [h.start]
    rcases qs with _ | ⟨q, qs⟩ <;> rfl
  · have hchain := h.chain
    rw [List.append_assoc, List.singleton_append, List.isChain_append_cons_cons]
    exact ⟨hchain, rfl, .singleton _⟩
  · intro i hi
    rw [← List.append_assoc, List.mem_append, List.mem_singleton] at hi
    rcases hi with hi | rfl
    · exact h.lt i hi
    · exact h.last
  · rw [← List.append_assoc]
    refine List.nodup_append.mpr ⟨h.nodup, List.nodup_singleton _, ?_⟩
    intro x hx y hy
    rw [List.mem_singleton] at hy
    rintro rfl
    exact hnot (hy ▸ hx)
  · intro i
    rw [← List.append_assoc, List.mem_append, List.mem_singleton]
    by_cases hi : i = r.last
    · simp [hi]
    · simp only [Function.update_of_ne hi, h.occupied, hi, or_false]

@[simp] theorem retrieveStartConti_snd (r : Ring) : r.retrieveStartConti.2 = r.start := by
  unfold retrieveStartConti
  split <;> simp_all

@[simp] theorem retrieveStartConti_last (r : Ring) : r.retrieveStartConti.1.last = r.last := by
  unfold retrieveStartConti
  split <;> rfl

@[simp] theorem retrieveStartConti_slots (r : Ring) : r.retrieveStartConti.1.slots = r.slots := by
  unfold retrieveStartConti
  split <;> rfl

/-- **Retrieve.** The first queued slot is handed out. That it was the only one is recognised if
the slot behind it is free. -/
theorem Holds.retrieve (h : r.Holds out qs)
    (hc : ∀ q, qs = [q] → (r.slots r.last).occupied = false) :
    r.retrieveStartConti.1.Holds (out ++ qs.head?.toList) qs.tail := by
  rcases qs with _ | ⟨q, qs⟩
  · have hs : r.start = none := h.start
    simp only [retrieveStartConti, hs]
    simpa using h
  · have hs : r.start = some q := h.start
    simp only [retrieveStartConti, hs]
    have happ : out ++ [q] ++ qs = out ++ q :: qs := by simp
    refine ⟨?_, (List.isChain_cons.mp h.chain).2, ?_, h.last, ?_, ?_⟩
    · have hchain := h.chain
      rcases qs with _ | ⟨q', qs⟩
      · -- the slot behind the last queued one is `last`, which is free
        have hnext : nextConti q = r.last := (List.isChain_cons_cons.mp hchain).1
        simp [hnext, hc q rfl]
      · have hnext : nextConti q = q' := (List.isChain_cons_cons.mp hchain).1
        have hocc : (r.slots q').occupied = true := (h.occupied q').mpr (by simp)
        simp [hnext, hocc]
    · intro i hi
      exact h.lt i (by simpa using hi)
    · simpa [happ] using h.nodup
    · intro i
      rw [h.occupied]
      simp

theorem Holds.clear (h : r.Holds out qs) (hc : r.Clear) :
    ∀ q, qs = [q] → (r.slots r.last).occupied = false := by
  rintro q rfl
  exact hc q h.start (List.isChain_cons_cons.mp h.chain).1

/-- **Restore.** A slot that was handed out gives back what it holds, and is free again. The
assertions hold. -/
theorem Holds.restore (h : r.Holds out qs) (hi : i ∈ out) :
    ∃ r', r.restoreContinuation i = .ok (r', (r.slots i).orderI, (r.slots i).orderJ) ∧
      r'.Holds (out.erase i) qs ∧ r'.last = r.last ∧ ∀ j, j ≠ i → r'.slots j = r.slots j := by
  have hmem : i ∈ out ++ qs := List.mem_append_left _ hi
  have hocc : (r.slots i).occupied = true := (h.occupied i).mpr hmem
  have hlt := h.lt i hmem
  have herase : out.erase i ++ qs = (out ++ qs).erase i := by
    rw [List.erase_append_left _ hi]
  refine ⟨{ r with slots := Function.update r.slots i { r.slots i with occupied := false } },
    ?_, ⟨h.start, h.chain, ?_, h.last, ?_, ?_⟩, rfl, ?_⟩
  · have hc : check (decide ((i : ℤ) < maxConti ∧ 0 ≤ (i : ℤ))) = .ok () := by
      rw [decide_eq_true (by omega)]
      rfl
    have hc' : check (r.slots i).occupied = .ok () := by
      rw [hocc]
      rfl
    simp only [restoreContinuation, hc, Int.toNat_natCast, hc']
    rfl
  · intro j hj
    rw [herase] at hj
    exact h.lt j (List.mem_of_mem_erase hj)
  · rw [herase]
    exact h.nodup.erase i
  · intro j
    rw [herase, h.nodup.mem_erase_iff]
    by_cases hj : j = i
    · simp [hj]
    · simp [h.occupied, hj]
  · intro j hj
    exact Function.update_of_ne hj ..

end Ring
/-! ## Histories of calls -/

/-- One call of `save_continuation`: the slot it filled and what it stored. -/
structure Saved : Type where
  slot : ℕ
  orderI : ℤ
  orderJ : ℤ
  deriving DecidableEq

/-- A ring with the history of the calls on it. No code reads the history. -/
structure RingLog : Type where
  ring : Ring
  /-- the continuations that were saved, in this order -/
  saves : List Saved
  /-- the indices that `retrieve_start_conti` has returned, in this order -/
  gets : List ℕ
  /-- the retrievals, by number, whose index has not been restored yet -/
  out : List ℕ

/-- A call on a ring. `restore k` restores the index that retrieval number `k` returned. -/
inductive RingCall : Type where
  | save (orderI orderJ : ℤ)
  | retrieve
  | restore (k : ℕ)

namespace RingLog

def initial : RingLog := ⟨.initial, [], [], []⟩

/-- A call, recorded. An index is restored at most once for each retrieval. -/
def call (x : RingLog) : RingCall → Except Fault RingLog
  | .save orderI orderJ => do
    let r ← x.ring.saveContinuation orderI orderJ
    .ok { x with ring := r, saves := x.saves ++ [⟨x.ring.last, orderI, orderJ⟩] }
  | .retrieve =>
    let res := x.ring.retrieveStartConti
    .ok { x with
      ring := res.1
      gets := x.gets ++ res.2.toList
      out := x.out ++ (res.2.map fun _ => x.gets.length).toList }
  | .restore k =>
    match x.gets[k]? with
    | none => .error .disabled
    | some i =>
      if k ∈ x.out then do
        let (r, _) ← x.ring.restoreContinuation i
        .ok { x with ring := r, out := x.out.erase k }
      else .error .disabled

/-- The law of a ring: retrieval number `k` returns the slot of save number `k`, there is nothing to
return exactly when everything has been returned, and an index that is still to be restored gives
back what was saved for it. -/
structure Fifo (x : RingLog) : Prop where
  inOrder : x.gets <+: x.saves.map (·.slot)
  returns : x.ring.retrieveStartConti.2 = (x.saves[x.gets.length]?).map (·.slot)
  empty : x.ring.retrieveStartConti.2 = none ↔ x.gets.length = x.saves.length
  restores : ∀ k ∈ x.out, ∃ sv r, x.saves[k]? = some sv ∧ x.gets[k]? = some sv.slot ∧
    x.ring.restoreContinuation sv.slot = .ok (r, sv.orderI, sv.orderJ)

/-- The slots that are handed out and not restored yet, in the order of retrieval. -/
def outSlots (x : RingLog) : List ℕ := x.out.map fun k => x.gets.getD k 0

/-- The slots that are queued: those of the saves that have not been retrieved. -/
def queued (x : RingLog) : List ℕ := (x.saves.drop x.gets.length).map (·.slot)

/-- The history describes the ring: which slots are queued and which are handed out, and what is
stored in them. -/
structure Inv (x : RingLog) : Prop where
  holds : x.ring.Holds x.outSlots x.queued
  le : x.gets.length ≤ x.saves.length
  gets : x.gets = (x.saves.take x.gets.length).map (·.slot)
  out_lt : ∀ k ∈ x.out, k < x.gets.length
  stored : ∀ k sv, x.saves[k]? = some sv → k ∈ x.out ∨ x.gets.length ≤ k →
    x.ring.slots sv.slot = ⟨sv.orderI, sv.orderJ, true⟩

theorem initial_inv : initial.Inv where
  holds := Ring.initial_holds
  le := le_refl _
  gets := rfl
  out_lt := by nofun
  stored := by nofun

variable {x x' : RingLog} {k : ℕ} {sv : Saved}

/-- The number of a retrieval leads to the save it belongs to, since retrievals come in the order of
the saves. -/
theorem Inv.gets_getElem? (h : x.Inv) (hk : k < x.gets.length) :
    x.gets[k]? = (x.saves[k]?).map (·.slot) := by
  conv_lhs => rw [h.gets]
  rw [List.getElem?_map, List.getElem?_take_of_lt hk]

theorem Inv.exists_saved (h : x.Inv) (hk : k < x.gets.length) :
    ∃ sv, x.saves[k]? = some sv ∧ x.gets[k]? = some sv.slot := by
  have hlt : k < x.saves.length := lt_of_lt_of_le hk h.le
  refine ⟨x.saves[k], List.getElem?_eq_getElem hlt, ?_⟩
  rw [h.gets_getElem? hk, List.getElem?_eq_getElem hlt]
  rfl

/-- The slot of a save that is handed out or queued is in the lists of such slots. -/
theorem Inv.slot_mem (h : x.Inv) (hs : x.saves[k]? = some sv) (hk : k ∈ x.out ∨ x.gets.length ≤ k) :
    sv.slot ∈ x.outSlots ++ x.queued := by
  rcases hk with hk | hk
  · refine List.mem_append_left _ (List.mem_map.mpr ⟨k, hk, ?_⟩)
    have hget := h.gets_getElem? (h.out_lt k hk)
    rw [hs] at hget
    simp [List.getD, hget]
  · refine List.mem_append_right _ (List.mem_map.mpr ⟨sv, ?_, rfl⟩)
    rw [List.mem_iff_getElem?]
    refine ⟨k - x.gets.length, ?_⟩
    rw [List.getElem?_drop, Nat.add_sub_cancel' hk]
    exact hs

/-- What `retrieve_start_conti` finds is the slot of the first save that has not been retrieved. -/
theorem queued_head? (x : RingLog) : x.queued.head? = (x.saves[x.gets.length]?).map (·.slot) := by
  rw [queued, List.head?_map, List.head?_drop]

theorem Inv.queued_eq_nil (h : x.Inv) : x.queued = [] ↔ x.gets.length = x.saves.length := by
  have hle := h.le
  rw [queued, List.map_eq_nil_iff, List.drop_eq_nil_iff]
  omega

/-! ### The calls keep the invariant -/

theorem Inv.save (h : x.Inv) {a b : ℤ} (hc : x.call (.save a b) = .ok x') : x'.Inv := by
  obtain ⟨r, hr, hc⟩ := bind_eq_ok hc
  obtain rfl := Except.ok.inj hc
  obtain ⟨hnot, hholds, hslots⟩ := h.holds.save hr
  have hle := h.le
  refine ⟨?_, ?_, ?_, h.out_lt, ?_⟩
  · change r.Holds x.outSlots (((x.saves ++ [_]).drop x.gets.length).map Saved.slot)
    rw [List.drop_append_of_le_length hle, List.map_append]
    exact hholds
  · rw [List.length_append]
    exact Nat.le_add_right_of_le hle
  · change x.gets = ((x.saves ++ [_]).take x.gets.length).map Saved.slot
    rw [List.take_append_of_le_length hle]
    exact h.gets
  · intro k sv hsv hk
    change r.slots sv.slot = _
    rw [hslots]
    rcases Nat.lt_or_ge k x.saves.length with hlt | hge
    · rw [List.getElem?_append_left hlt] at hsv
      have hmem := h.slot_mem hsv hk
      have hne : sv.slot ≠ x.ring.last := fun he => hnot (he ▸ hmem)
      rw [Function.update_of_ne hne]
      exact h.stored k sv hsv hk
    · rw [List.getElem?_append_right hge, List.getElem?_singleton] at hsv
      split at hsv
      · rw [← Option.some.inj hsv, Function.update_self]
      · cases hsv

/-- A further retrieval changes none of the slots that are handed out. -/
theorem outSlots_append (x : RingLog) (i : ℕ) (h : ∀ k ∈ x.out, k < x.gets.length) :
    x.out.map (fun k => (x.gets ++ [i]).getD k 0) = x.outSlots := by
  refine List.map_congr_left fun k hk => ?_
  simp [List.getD, List.getElem?_append_left (h k hk)]

theorem Inv.retrieve (h : x.Inv) (hclear : x.ring.Clear) (hc : x.call .retrieve = .ok x') :
    x'.Inv := by
  obtain rfl := Except.ok.inj hc
  have hholds := h.holds.retrieve (h.holds.clear hclear)
  have hstart := h.holds.start
  have hle := h.le
  rcases hq : x.queued with _ | ⟨q, qs⟩
  · -- nothing is queued: nothing changes
    rw [hq] at hstart hholds
    simp only [List.head?_nil, Option.toList_none, List.append_nil, List.tail_nil] at hstart hholds
    simp only [Ring.retrieveStartConti_snd, hstart, Option.toList_none, List.append_nil,
      Option.map_none]
    refine ⟨?_, hle, h.gets, h.out_lt, ?_⟩
    · change Ring.Holds _ x.outSlots x.queued
      rw [hq]
      exact hholds
    · intro k sv hsv hk
      change x.ring.retrieveStartConti.1.slots _ = _
      rw [Ring.retrieveStartConti_slots]
      exact h.stored k sv hsv hk
  · rw [hq] at hstart hholds
    simp only [List.head?_cons, Option.toList_some, List.tail_cons] at hstart hholds
    have hlt : x.gets.length < x.saves.length := by
      have hne : x.queued ≠ [] := by simp [hq]
      rw [Ne, h.queued_eq_nil] at hne
      omega
    have hdrop := List.drop_eq_getElem_cons hlt
    have hq' := hq
    rw [queued, hdrop, List.map_cons, List.cons.injEq] at hq'
    obtain ⟨hslot, htail⟩ := hq'
    simp only [Ring.retrieveStartConti_snd, hstart, Option.toList_some, Option.map_some]
    refine ⟨?_, ?_, ?_, ?_, ?_⟩
    · have hout : (x.out ++ [x.gets.length]).map (fun k => (x.gets ++ [q]).getD k 0) =
          x.outSlots ++ [q] := by
        rw [List.map_append, outSlots_append x q h.out_lt]
        simp [List.getD]
      simp only [outSlots, queued, hout, List.length_append, List.length_singleton, htail]
      exact hholds
    · rw [List.length_append]
      exact hlt
    · simp only [List.length_append, List.length_singleton]
      rw [List.take_succ_eq_append_getElem hlt, List.map_append, ← h.gets, List.map_singleton,
        hslot]
    · intro k hk
      rw [List.mem_append, List.mem_singleton] at hk
      rw [List.length_append, List.length_singleton]
      rcases hk with hk | rfl
      · exact Nat.lt_succ_of_lt (h.out_lt k hk)
      · exact Nat.lt_succ_self _
    · intro k sv hsv hk
      change x.ring.retrieveStartConti.1.slots _ = _
      rw [Ring.retrieveStartConti_slots]
      refine h.stored k sv hsv ?_
      rw [List.mem_append, List.mem_singleton, List.length_append, List.length_singleton] at hk
      rcases hk with (hk | rfl) | hk
      · exact .inl hk
      · exact .inr (le_refl _)
      · exact .inr (by omega)

/-- Erasing commutes with a map that tells the elements apart, here from retrievals to slots. -/
theorem erase_map_of_nodup {f : ℕ → ℕ} {l : List ℕ} (hl : (l.map f).Nodup) (hk : k ∈ l) :
    (l.map f).erase (f k) = (l.erase k).map f := by
  induction l with
  | nil => cases hk
  | cons a l ih =>
    by_cases ha : a = k
    · simp [ha]
    · have hkl : k ∈ l := (List.mem_cons.mp hk).resolve_left (Ne.symm ha)
      rw [List.map_cons, List.nodup_cons] at hl
      have hne : f a ≠ f k := fun he => hl.1 (he ▸ List.mem_map_of_mem hkl)
      rw [List.map_cons, List.erase_cons_tail (by simpa using hne), ih hl.2 hkl,
        List.erase_cons_tail (by simpa using ha), List.map_cons]

/-- What a retrieval that is still to be restored gives back: the two numbers of the save with the
same number. -/
theorem Inv.restores (h : x.Inv) (hk : k ∈ x.out) :
    ∃ sv r, x.saves[k]? = some sv ∧ x.gets[k]? = some sv.slot ∧
      x.ring.restoreContinuation sv.slot = .ok (r, sv.orderI, sv.orderJ) ∧
      r.Holds (x.outSlots.erase sv.slot) x.queued ∧
      ∀ j, j ≠ sv.slot → r.slots j = x.ring.slots j := by
  obtain ⟨sv, hsv, hget⟩ := h.exists_saved (h.out_lt k hk)
  have hmem : sv.slot ∈ x.outSlots :=
    List.mem_map.mpr ⟨k, hk, by simp [List.getD, hget]⟩
  obtain ⟨r, hr, hholds, -, hother⟩ := h.holds.restore hmem
  rw [h.stored k sv hsv (.inl hk)] at hr
  exact ⟨sv, r, hsv, hget, hr, hholds, hother⟩

theorem Inv.restore (h : x.Inv) (hc : x.call (.restore k) = .ok x') : x'.Inv := by
  simp only [call] at hc
  split at hc
  · cases hc
  rename_i i hi
  split at hc
  case isFalse => cases hc
  rename_i hk
  obtain ⟨sv, r, hsv, hget, hr, hholds, hother⟩ := h.restores hk
  obtain rfl : sv.slot = i := Option.some.inj (hget.symm.trans hi)
  rw [hr] at hc
  obtain rfl := Except.ok.inj hc
  have hf : x.gets.getD k 0 = sv.slot := by simp [List.getD, hget]
  have hnodup : x.outSlots.Nodup := (List.nodup_append.mp h.holds.nodup).1
  have hout : x.outSlots.erase sv.slot = (x.out.erase k).map fun k => x.gets.getD k 0 := by
    rw [← hf]
    exact erase_map_of_nodup hnodup hk
  rw [hout] at hholds
  refine ⟨hholds, h.le, h.gets, fun j hj => h.out_lt j (List.mem_of_mem_erase hj), ?_⟩
  intro j sv' hsv' hj
  have hne : sv'.slot ≠ sv.slot := by
    intro he
    -- two saves in the same slot would both be listed
    have hmem : sv.slot ∈ (x.out.erase k).map (fun k => x.gets.getD k 0) ++ x.queued := by
      rcases hj with hj | hj
      · have hj' := List.mem_of_mem_erase hj
        have hget' := h.gets_getElem? (h.out_lt j hj')
        rw [hsv'] at hget'
        exact List.mem_append_left _ (List.mem_map.mpr ⟨j, hj, by simp [List.getD, hget', he]⟩)
      · have := List.mem_append.mp (h.slot_mem hsv' (.inr hj))
        refine List.mem_append_right _ (List.mem_map.mpr ⟨sv', ?_, he⟩)
        rw [List.mem_iff_getElem?]
        refine ⟨j - x.gets.length, ?_⟩
        rw [List.getElem?_drop, Nat.add_sub_cancel' hj]
        exact hsv'
    rw [← hout, List.mem_append] at hmem
    rcases hmem with hmem | hmem
    · exact (List.Nodup.mem_erase_iff hnodup).mp hmem |>.1 rfl
    · exact (List.nodup_append.mp h.holds.nodup).2.2 _
        (List.mem_map.mpr ⟨k, hk, hf⟩) _ hmem rfl
  change r.slots sv'.slot = _
  rw [hother _ hne]
  exact h.stored j sv' hsv' (hj.imp_left List.mem_of_mem_erase)

/-- **The law of the ring**, from what the history says about it. -/
theorem Inv.fifo (h : x.Inv) : x.Fifo := by
  have hreturns : x.ring.retrieveStartConti.2 = x.queued.head? := by
    rw [Ring.retrieveStartConti_snd, h.holds.start]
  refine ⟨?_, hreturns.trans x.queued_head?, ?_, ?_⟩
  · refine ⟨x.queued, ?_⟩
    conv_lhs => rw [h.gets]
    rw [queued, ← List.map_append, List.take_append_drop]
  · rw [hreturns, List.head?_eq_none_iff, h.queued_eq_nil]
  · intro k hk
    obtain ⟨sv, r, hsv, hget, hr, -⟩ := h.restores hk
    exact ⟨sv, r, hsv, hget, hr⟩

end RingLog

/-! ## All histories -/

/-- The calls on the two rings, in any order. They have no variable in common. -/
def contiRuns : Lts (Role → RingLog) (Role × RingCall) where
  init f := f = fun _ => .initial
  step f l f' := ∃ x, (f l.1).call l.2 = .ok x ∧ f' = Function.update f l.1 x

/-- A retrieval that takes the last queued continuation finds the slot behind it free. -/
def RetrievesClear (f : Role → RingLog) (l : Role × RingCall) : Prop :=
  l.2 = .retrieve → (f l.1).ring.Clear

/-- Along such a history each ring is described by its log, by induction over the calls. -/
theorem contiRuns_inv {f : Role → RingLog} (h : Reach (contiRuns.guard RetrievesClear) f)
    (role : Role) : (f role).Inv := by
  induction h generalizing role with
  | init h₀ =>
    rw [show _ = _ from h₀]
    exact RingLog.initial_inv
  | @step f f' l _ hstep ih =>
    obtain ⟨hclear, x, hc, rfl⟩ := hstep
    obtain ⟨role', c⟩ := l
    by_cases hrole : role = role'
    · subst hrole
      rw [Function.update_self]
      rcases c with ⟨a, b⟩ | _ | k
      · exact (ih role).save hc
      · exact (ih role).retrieve (hclear rfl) hc
      · exact (ih role).restore hc
    · rw [Function.update_of_ne hrole]
      exact ih role

/-- **The continuation ring is a queue with exactly-once retrieval**, in every history whose
retrievals are all clear: the slots are retrieved in the order of the saves, and a retrieved slot
gives back what was saved there. -/
theorem continuation_fifo {f : Role → RingLog} (h : Reach (contiRuns.guard RetrievesClear) f)
    (role : Role) : (f role).Fifo :=
  (contiRuns_inv h role).fifo

/-! ## A full ring -/

/-- The ring after `n` saves and `g` retrievals without a restore, in closed form. -/
def RingLog.laden (n g : ℕ) : RingLog where
  ring := {
    slots := fun i => ⟨0, 0, decide (i < n)⟩
    start := if g = n then none else some g
    last := if n = maxConti then 0 else n }
  saves := (List.range n).map fun i => ⟨i, 0, 0⟩
  gets := List.range g
  out := List.range g

/-- One save into a ring that has a free slot, where nothing has been retrieved. -/
theorem RingLog.laden_save {n : ℕ} (hn : n < maxConti) :
    (laden n 0).call (.save 0 0) = .ok (laden (n + 1) 0) := by
  have hlast : (laden n 0).ring.last = n := if_neg hn.ne
  have hnext : nextConti n = if n + 1 = maxConti then 0 else n + 1 := by
    unfold nextConti
    grind
  have hfree : ((laden n 0).ring.slots n).occupied = false := by simp [laden]
  simp only [call, Ring.saveContinuation, hlast, hfree, hnext]
  have hslots : Function.update (laden n 0).ring.slots n ⟨0, 0, true⟩ =
      (laden (n + 1) 0).ring.slots := by
    funext i
    by_cases hi : i = n
    · simp [laden, hi]
    · rw [Function.update_of_ne hi]
      simp only [laden, Continuation.mk.injEq, decide_eq_decide, true_and]
      omega
  have hstart : (if (laden n 0).ring.start = none then some n else (laden n 0).ring.start) =
      (laden (n + 1) 0).ring.start := by
    rcases n with _ | n <;> simp [laden]
  change Except.ok _ = _
  rw [hslots, hstart]
  simp [laden, List.range_succ]

/-- One retrieval that is not the last one: it leaves a queued slot. -/
theorem RingLog.laden_retrieve {n g : ℕ} (hg : g + 1 < n) (hn : n ≤ maxConti) :
    (laden n g).call .retrieve = .ok (laden n (g + 1)) := by
  have hnext : nextConti g = g + 1 := by
    unfold nextConti
    grind
  have hstart : (laden n g).ring.start = some g := if_neg (by omega)
  have hocc : ((laden n g).ring.slots (g + 1)).occupied = true := by simpa [laden] using hg
  simp only [call, Ring.retrieveStartConti, hstart, hnext, hocc]
  simp [laden, List.range_succ, show g + 1 ≠ n by omega]

/-- The two rings, with only the producers' in use and the other one as it was set up. -/
def ladenRings (n g : ℕ) : Role → RingLog :=
  Function.update (fun _ => .initial) .producer (.laden n g)

theorem ladenRings_zero : ladenRings 0 0 = fun _ => .initial := by
  have h : RingLog.laden 0 0 = .initial := by
    simp [RingLog.laden, RingLog.initial, Ring.initial, maxConti]
  rw [ladenRings, h, Function.update_eq_self_iff]

/-- Filling the ring and handing out all slots but the last queued one is a clear history. -/
theorem ladenRings_reach {n g : ℕ} (hn : n ≤ maxConti) (hg : g = 0 ∨ g < n) :
    Reach (contiRuns.guard RetrievesClear) (ladenRings n g) := by
  induction g with
  | zero =>
    induction n with
    | zero => exact .init ladenRings_zero
    | succ n ih =>
      refine .step (l := (.producer, .save 0 0)) (ih (by omega) (.inl rfl))
        ⟨nofun, .laden (n + 1) 0, ?_, ?_⟩
      · rw [ladenRings, Function.update_self]
        exact RingLog.laden_save hn
      · rw [ladenRings, ladenRings, Function.update_idem]
  | succ g ih =>
    have hgn : g + 1 < n := hg.resolve_left (Nat.succ_ne_zero g)
    refine .step (l := (.producer, .retrieve)) (ih (.inr (by omega))) ⟨fun _ => ?_, ?_⟩
    · rw [ladenRings, Function.update_self]
      intro i hi hnext
      -- the slot behind `g` is queued, so it is not `last` unless the ring is full
      obtain rfl : g = i := Option.some.inj ((if_neg (by omega)).symm.trans hi)
      simp only [RingLog.laden, nextConti] at hnext ⊢
      grind
    · refine ⟨.laden n (g + 1), ?_, ?_⟩
      · rw [ladenRings, Function.update_self]
        exact RingLog.laden_retrieve hgn hn
      · rw [ladenRings, ladenRings, Function.update_idem]

/-- Two saves and one retrieval, which returns the first slot. -/
theorem continuation_fifo_laden : (ladenRings 2 1 .producer).gets = [0] ∧
    (ladenRings 2 1 .producer).Fifo :=
  ⟨by decide, continuation_fifo (ladenRings_reach (by decide) (.inr (by decide))) .producer⟩

/-- **A full ring returns an index twice.** With `MAX_CONTI` continuations saved and all of them
retrieved, none restored, `retrieve_start_conti` returns the first index again. -/
theorem full_ring_repeats : ∃ f, Reach contiRuns f ∧
    (f .producer).gets.length = (f .producer).saves.length ∧ 0 ∈ (f .producer).gets ∧
    (f .producer).ring.retrieveStartConti.2 = some 0 := by
  have hreach : Reach contiRuns (ladenRings maxConti (maxConti - 1)) :=
    (ladenRings_reach (le_refl _) (.inr (by decide))).of_guard
  have hstart : (RingLog.laden maxConti (maxConti - 1)).ring.start = some (maxConti - 1) := rfl
  have hnext : nextConti (maxConti - 1) = 0 := rfl
  have hocc : ((RingLog.laden maxConti (maxConti - 1)).ring.slots 0).occupied = true := by
    simp [RingLog.laden, maxConti]
  have hcall : (ladenRings maxConti (maxConti - 1) .producer).call .retrieve = .ok
      { RingLog.laden maxConti (maxConti - 1) with
        ring := { (RingLog.laden maxConti (maxConti - 1)).ring with start := some 0 }
        gets := List.range (maxConti - 1) ++ [maxConti - 1]
        out := List.range (maxConti - 1) ++ [(List.range (maxConti - 1)).length] } := by
    rw [ladenRings, Function.update_self]
    simp only [RingLog.call, Ring.retrieveStartConti, hstart, hnext, hocc, if_true,
      Option.toList_some, Option.map_some]
    simp only [RingLog.laden]
  refine ⟨_, .step (l := (.producer, .retrieve)) hreach ⟨_, hcall, rfl⟩, ?_⟩
  rw [Function.update_self]
  refine ⟨?_, ?_, rfl⟩
  · simp [RingLog.laden, maxConti]
  · simp [maxConti]

end GreenLib
