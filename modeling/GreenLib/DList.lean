import GreenLib.Queue

/-!
# Doubly linked lists with a head and a tail pointer

A doubly linked list is a pair of maps `pre` and `next` shared by all lists of a heap, and two
pointer cells `Ends α`. `IsDList pre next q xs` says that `q` represents the list `xs`: around each
node the two pointers lead to its neighbours in `xs`, and to nothing at the ends. In contrast to the
singly linked queues of `GreenLib.Queue` no pointer is stale.

An edit is specified by what it does to the pointers of the nodes of the list, so that it does not
matter which of several branches of a program performed it.
-/

namespace GreenLib

universe u

variable {α : Type u} {pre next pre' next' : α → Option α} {q q' : Ends α}
  {xs ys zs : List α} {x : α}

/-- `q` represents the list `xs` of nodes: `next` leads through it forwards and `pre` backwards, and
both are null at its ends. Unlike `IsQueue` there is no stale pointer. -/
structure IsDList (pre next : α → Option α) (q : Ends α) (xs : List α) : Prop where
  ends : q = ⟨xs.head?, xs.getLast?⟩
  links : ∀ ys x zs, xs = ys ++ x :: zs → pre x = ys.getLast? ∧ next x = zs.head?
  nodup : xs.Nodup

/-- Follow `next` from `cur` to the null pointer. The fuel is only there to make the walk total;
`chase_next` says how much of it is enough. -/
def chase (next : α → Option α) : ℕ → Option α → List α
  | 0, _ => []
  | _ + 1, none => []
  | n + 1, some x => x :: chase next n (next x)

/-- A node of a list in two parts is in one of them, and the rest of that part is known too. Used to
find a node's neighbours across the seam. -/
theorem append_eq_append_cons {as bs : List α} {y : α} (h : ys ++ zs = as ++ y :: bs) :
    (∃ cs, as = ys ++ cs ∧ zs = cs ++ y :: bs) ∨ ∃ cs, ys = as ++ y :: cs ∧ bs = cs ++ zs := by
  rcases List.append_eq_append_iff.mp h with ⟨cs, has, hzs⟩ | ⟨_ | ⟨c, cs⟩, hys, hbs⟩
  · exact .inl ⟨cs, has, hzs⟩
  · exact .inl ⟨[], by simpa using hys.symm, by simpa using hbs.symm⟩
  · obtain ⟨rfl, rfl⟩ := List.cons.inj hbs
    exact .inr ⟨cs, hys, rfl⟩

namespace IsDList

theorem nil (pre next : α → Option α) : IsDList pre next ⟨none, none⟩ [] where
  ends := rfl
  links ys x zs h := by simp at h
  nodup := List.nodup_nil

/-- The head cell tells whether there is a node, and so does the tail cell. -/
theorem start_eq_none (h : IsDList pre next q xs) : q.start = none ↔ xs = [] := by
  rw [h.ends, List.head?_eq_none_iff]

theorem stop_eq_none (h : IsDList pre next q xs) : q.stop = none ↔ xs = [] := by
  rw [h.ends, List.getLast?_eq_none_iff]

/-- **Mirror.** `pre` leads back where `next` leads, between nodes of the list. The two maps are one
relation read in both directions. -/
theorem next_eq_some (h : IsDList pre next q xs) {a b : α} (ha : a ∈ xs) (hb : b ∈ xs) :
    next a = some b ↔ pre b = some a := by
  constructor
  · intro hn
    obtain ⟨ys, zs, rfl⟩ := List.append_of_mem ha
    rw [(h.links ys a zs rfl).2] at hn
    obtain ⟨zs', rfl⟩ := List.head?_eq_some_iff.mp hn
    have hlink := (h.links (ys ++ [a]) b zs' (by simp)).1
    rw [hlink, List.getLast?_concat]
  · intro hp
    obtain ⟨ys, zs, rfl⟩ := List.append_of_mem hb
    rw [(h.links ys b zs rfl).1] at hp
    obtain ⟨ys', rfl⟩ := List.getLast?_eq_some_iff.mp hp
    have hlink := (h.links ys' a (b :: zs) (by simp)).2
    rw [hlink, List.head?_cons]

/-- Following `next` from a node lists the nodes behind it and then stops. -/
theorem chase_next (h : IsDList pre next q (ys ++ zs)) {n : ℕ} (hn : zs.length ≤ n) :
    chase next n zs.head? = zs := by
  induction zs generalizing ys n with
  | nil => cases n <;> rfl
  | cons z zs ih =>
    obtain ⟨n, rfl⟩ : ∃ m, n = m + 1 := ⟨n - 1, by simp at hn; omega⟩
    have hz := (h.links ys z zs rfl).2
    have h' : IsDList pre next q ((ys ++ [z]) ++ zs) := by simpa using h
    have hstep := ih h' (n := n) (by simpa using hn)
    rw [List.head?_cons, chase, hz, hstep]

/-- Following `pre` from a node lists the nodes before it, backwards, and then stops. -/
theorem chase_pre (h : IsDList pre next q (ys ++ zs)) {n : ℕ} (hn : ys.length ≤ n) :
    chase pre n ys.getLast? = ys.reverse := by
  induction ys using List.reverseRecOn generalizing zs n with
  | nil => cases n <;> rfl
  | append_singleton ys y ih =>
    obtain ⟨n, rfl⟩ : ∃ m, n = m + 1 := ⟨n - 1, by simp at hn; omega⟩
    have hy := (h.links ys y zs (by simp)).1
    have h' : IsDList pre next q (ys ++ y :: zs) := by simpa using h
    have hstep := ih h' (n := n) (by simpa using hn)
    rw [List.getLast?_concat, chase, hy, hstep, List.reverse_concat]

/-- A node without neighbours is the only one, so the unlinking code may clear both cells when it
finds none. -/
theorem eq_singleton (h : IsDList pre next q xs) (hx : x ∈ xs) (hp : pre x = none)
    (hn : next x = none) : xs = [x] := by
  obtain ⟨ys, zs, rfl⟩ := List.append_of_mem hx
  obtain ⟨hpre, hnext⟩ := h.links ys x zs rfl
  rw [List.getLast?_eq_none_iff.mp (hpre.symm.trans hp),
    List.head?_eq_none_iff.mp (hnext.symm.trans hn), List.nil_append]

/-- A segment of the list is a queue: only its last node points out of it. The lemmas about queues
apply to the part of the list that is walked. -/
theorem segment (h : IsDList pre next q (ys ++ xs ++ zs)) :
    IsQueue next ⟨xs.head?, xs.getLast?⟩ xs := by
  have hnd : xs.Nodup := (List.nodup_append.mp (List.nodup_append.mp h.nodup).1).2.1
  refine ⟨rfl, rfl, ?_, hnd⟩
  clear hnd
  induction xs generalizing ys with
  | nil => exact .nil
  | cons x xs ih =>
    have h' : IsDList pre next q (ys ++ [x] ++ xs ++ zs) := by simpa using h
    have hrest := ih h'
    rcases xs with _ | ⟨y, xs⟩
    · exact .singleton _
    · have hx := (h.links ys x (y :: xs ++ zs) (by simp)).2
      exact .cons_cons hx hrest

/-- **Append.** The new node points back to the old last one, which points to it. The premises are
the writes of the code, node by node, and not the order in which they are made. -/
theorem concat [DecidableEq α] (h : IsDList pre next q xs) (hx : x ∉ xs)
    (hpre : pre' x = xs.getLast?) (hnext : next' x = none) (hpre' : ∀ a ∈ xs, pre' a = pre a)
    (hnext' : ∀ a ∈ xs, next' a = if xs.getLast? = some a then some x else next a)
    (hq : q' = ⟨(xs ++ [x]).head?, some x⟩) : IsDList pre' next' q' (xs ++ [x]) := by
  refine ⟨by rw [hq, List.getLast?_concat], ?_, ?_⟩
  · intro as y bs he
    rcases List.eq_nil_or_concat bs with rfl | ⟨bs, b, rfl⟩
    · obtain ⟨rfl, hxy⟩ := List.append_inj' he rfl
      obtain rfl : x = y := by simpa using hxy
      exact ⟨hpre, hnext⟩
    · -- the new node is the last one, so `y` is an old node
      rw [List.concat_eq_append, ← List.cons_append, ← List.append_assoc] at he
      obtain ⟨rfl, -⟩ := List.append_inj' he rfl
      obtain rfl : x = b := by simpa using (List.append_inj' he rfl).2
      have hy : y ∈ as ++ y :: bs := by simp
      obtain ⟨hp, hn⟩ := h.links as y bs rfl
      refine ⟨(hpre' y hy).trans hp, ?_⟩
      rw [hnext' y hy, List.concat_eq_append]
      rcases List.eq_nil_or_concat bs with rfl | ⟨cs, c, rfl⟩
      · simp
      · have hyc : y ≠ c := by
          rintro rfl
          have hnd := h.nodup
          simp [List.nodup_append] at hnd
        rw [List.concat_eq_append] at hn ⊢
        rw [← List.cons_append, ← List.append_assoc, List.getLast?_concat,
          if_neg fun he => hyc (Option.some.inj he).symm, hn]
        cases cs <;> simp
  · refine List.nodup_append.mpr ⟨h.nodup, List.nodup_singleton _, ?_⟩
    intro a ha b hb
    rw [List.mem_singleton] at hb
    rintro rfl
    exact hx (hb ▸ ha)

/-- **Unlink.** The neighbours of the removed node point to each other. As for `concat`, only the
final values of the pointers matter. -/
theorem remove [DecidableEq α] (h : IsDList pre next q (ys ++ x :: zs))
    (hnext : ∀ a ∈ ys ++ zs, next' a = if ys.getLast? = some a then zs.head? else next a)
    (hpre : ∀ a ∈ ys ++ zs, pre' a = if zs.head? = some a then ys.getLast? else pre a)
    (hq : q' = ⟨(ys ++ zs).head?, (ys ++ zs).getLast?⟩) : IsDList pre' next' q' (ys ++ zs) := by
  have hnd := h.nodup
  have hnd' : (ys ++ zs).Nodup := by
    refine List.Nodup.sublist ?_ hnd
    exact (List.Sublist.refl ys).append (List.sublist_cons_self x zs)
  refine ⟨hq, ?_, hnd'⟩
  intro as y bs he
  have hy : y ∈ ys ++ zs := by simp [he]
  rw [hnext y hy, hpre y hy]
  rcases append_eq_append_cons he with ⟨cs, rfl, rfl⟩ | ⟨cs, rfl, rfl⟩
  · -- `y` stood behind the removed node
    obtain ⟨hp, hn⟩ := h.links (ys ++ x :: cs) y bs (by simp)
    have hys : ys.getLast? ≠ some y := fun hl =>
      (List.nodup_append.mp hnd').2.2 y (List.mem_of_getLast? hl) y (by simp) rfl
    refine ⟨?_, by rw [if_neg hys, hn]⟩
    rcases cs with _ | ⟨c, cs⟩
    · simp
    · have hcy : c ≠ y := by
        rintro rfl
        simp [List.nodup_append] at hnd'
      rw [if_neg (by simpa using hcy), hp]
      simp
  · -- `y` stood before the removed node
    obtain ⟨hp, hn⟩ := h.links as y (cs ++ x :: zs) (by simp)
    have hzs : zs.head? ≠ some y := fun hl =>
      (List.nodup_append.mp hnd').2.2 y (by simp) y (List.mem_of_head? hl) rfl
    refine ⟨by rw [if_neg hzs, hp], ?_⟩
    rcases List.eq_nil_or_concat cs with rfl | ⟨cs, c, rfl⟩
    · simp
    · have hcy : c ≠ y := by
        rintro rfl
        simp [List.nodup_append] at hnd'
      rw [List.concat_eq_append] at hn ⊢
      rw [← List.cons_append, ← List.append_assoc, List.getLast?_concat,
        if_neg (by simpa using hcy), hn]
      cases cs <;> simp

end IsDList

end GreenLib
