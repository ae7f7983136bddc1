import GreenLib.Registry

/-!
# The sleepers and their queues

The wait queues of the shipped build (`GREEN_VERY_FAST`) against one list of all sleepers, in the
order of their waits. `GreenLib.FastWaiting` and `GreenLib.SlowWaiting` run another build beside the
shipped one and keep this list as the history of both: a wait appends to it, a wakeup of a primitive
takes out its first entry with that primitive.

`QueuesOf` says that the queue of each primitive is its part of the list. It is kept by
`sync_prim_initial`, by `running_to_lock_waiting` and by `extract_first_waiting` with the
`waiting_to_running` behind it.
-/

namespace GreenLib

/-! ## The list of sleepers -/

/-- The links of `sleeping` that wait on `p`, first come first. An entry of the list is a primitive
and the link of the thread that waits on it. -/
def waitersOn (sleeping : List (Addr × Addr)) (p : Addr) : List Addr :=
  (sleeping.filter fun y => y.1 == p).map Prod.snd

/-- Erasing the first match removes the first of the matches, and no other element that matches. -/
theorem filter_eraseP_self {α : Type} (f : α → Bool) (xs : List α) :
    (xs.eraseP f).filter f = (xs.filter f).tail := by
  induction xs with
  | nil => rfl
  | cons y xs ih =>
    by_cases hy : f y = true
    · rw [List.eraseP_cons_of_pos hy, List.filter_cons_of_pos hy, List.tail_cons]
    · rw [List.eraseP_cons_of_neg hy, List.filter_cons_of_neg hy, List.filter_cons_of_neg hy, ih]

theorem filter_eraseP_of_disjoint {α : Type} {f g : α → Bool} (h : ∀ y, f y = true → ¬ g y = true)
    (xs : List α) : (xs.eraseP f).filter g = xs.filter g := by
  induction xs with
  | nil => rfl
  | cons y xs ih =>
    by_cases hy : f y = true
    · rw [List.eraseP_cons_of_pos hy, List.filter_cons_of_neg (h y hy)]
    · rw [List.eraseP_cons_of_neg hy, List.filter_cons, List.filter_cons, ih]

section Sleeping

variable {sleeping : List (Addr × Addr)} {p q l : Addr}

theorem mem_waitersOn : l ∈ waitersOn sleeping p ↔ (p, l) ∈ sleeping := by
  simp [waitersOn]

/-- The waiters after a wait of `l` on `p`: it comes behind those of `p`, and the others stay. -/
theorem waitersOn_concat : waitersOn (sleeping ++ [(p, l)]) q =
    if q = p then waitersOn sleeping p ++ [l] else waitersOn sleeping q := by
  by_cases hqp : q = p
  · simp [waitersOn, hqp]
  · simp [waitersOn, hqp, Ne.symm hqp]

/-- The waiters after a wakeup of `p`: its first one is gone, and the others stay. -/
theorem waitersOn_erase : waitersOn (sleeping.eraseP fun y => y.1 == p) q =
    if q = p then (waitersOn sleeping p).tail else waitersOn sleeping q := by
  split
  · rename_i hqp
    rw [hqp, waitersOn, waitersOn, filter_eraseP_self, List.map_tail]
  · rename_i hqp
    rw [waitersOn, waitersOn, filter_eraseP_of_disjoint]
    intro y hp hq
    exact hqp ((beq_iff_eq.mp hq).symm.trans (beq_iff_eq.mp hp))

/-- A wakeup shortens the list by one entry, if there is a waiter. -/
theorem length_erase_sleeping : (sleeping.eraseP fun y => y.1 == p).length =
    sleeping.length - (waitersOn sleeping p).head?.toList.length := by
  have hany : sleeping.any (fun y => y.1 == p) = (waitersOn sleeping p).head?.isSome := by
    rw [Bool.eq_iff_iff, List.any_eq_true, List.isSome_head?]
    simp [waitersOn]
  rw [List.length_eraseP, hany]
  cases (waitersOn sleeping p).head? <;> rfl

end Sleeping

/-! ## The functions of the shipped build on queues -/

namespace State

variable {s s' : State} {p q : Addr} {xs ys : List Addr} {k : PrimKind}

/-- The memory after `extract_first_waiting` on the queue `xs` of `p`, which changes nothing if the
queue is empty. -/
def popHead (s : State) (p : Addr) : List Addr → State
  | [] => s
  | l :: _ => s.popWaiting p l

/-- `extract_first_waiting` returns the head of the queue, or the null pointer. -/
theorem extractFirstWaiting_queue (h : IsQueue s.next (s.waiting p) xs) :
    s.extractFirstWaiting p = .ok (s.popHead p xs, xs.head?) := by
  cases xs with
  | nil =>
    rw [State.extractFirstWaiting, h.eq_nil, if_pos ⟨rfl, rfl⟩]
    rfl
  | cons l xs =>
    have hstart : (s.waiting p).start = some l := h.start
    rw [State.extractFirstWaiting, if_neg (by simp [hstart]), hstart]
    rfl

theorem popHead_same (s : State) (p : Addr) (xs : List Addr) :
    SamePrims s (s.popHead p xs) ∧ (s.popHead p xs).waitingNum = s.waitingNum ∧
      ∀ n, { s with waitingNum := n }.popHead p xs = { s.popHead p xs with waitingNum := n } := by
  cases xs with
  | nil => exact ⟨.refl s, rfl, fun _ => rfl⟩
  | cons l xs => exact ⟨⟨rfl, rfl, rfl, rfl⟩, rfl, fun _ => rfl⟩

/-- The queue of `p` without its head. -/
theorem popHead_queue (h : IsQueue s.next (s.waiting p) xs) :
    IsQueue (s.popHead p xs).next ((s.popHead p xs).waiting p) xs.tail := by
  cases xs with
  | nil => exact h
  | cons l xs =>
    change IsQueue (Function.update s.next l none)
      (Function.update s.waiting p ((s.waiting p).shift s.next l) p) xs
    rw [Function.update_self]
    refine h.shift.congr fun a ha => Function.update_of_ne ?_ ..
    rintro rfl
    exact (List.nodup_cons.mp h.nodup).1 ha

/-- Another queue does not notice, as long as it has no link in common with this one. -/
theorem popHead_queue_of_ne (hqp : q ≠ p) (hd : ∀ a ∈ ys, a ∉ xs)
    (h : IsQueue s.next (s.waiting q) ys) :
    IsQueue (s.popHead p xs).next ((s.popHead p xs).waiting q) ys := by
  cases xs with
  | nil => exact h
  | cons l xs =>
    change IsQueue (Function.update s.next l none)
      (Function.update s.waiting p ((s.waiting p).shift s.next l) q) ys
    rw [Function.update_of_ne hqp]
    refine h.congr fun a ha => Function.update_of_ne ?_ ..
    rintro rfl
    exact hd a ha (by simp)

/-- `sync_prim_initial` does not look at the waiters: it gives the block an empty queue, and does
the same whatever `waiting_num` is. -/
theorem syncPrimInitial_frame (he : s.syncPrimInitial p k = .ok s') : s'.next = s.next ∧
    s'.waiting = Function.update s.waiting p ⟨none, none⟩ ∧
    s'.kind = Function.update s.kind p (some k) ∧ s'.waitingNum = s.waitingNum ∧
    ∀ n, { s with waitingNum := n }.syncPrimInitial p k = .ok { s' with waitingNum := n } := by
  simp only [State.syncPrimInitial] at he ⊢
  split at he
  · obtain rfl := Except.ok.inj he
    rename_i hstart
    exact ⟨rfl, rfl, rfl, rfl, fun n => by rw [if_pos hstart]⟩
  · rename_i hstart
    obtain ⟨e, hstop, he⟩ := bind_eq_ok he
    obtain rfl := Except.ok.inj he
    refine ⟨rfl, rfl, rfl, rfl, fun n => ?_⟩
    rw [if_neg hstart, hstop]
    rfl

/-- `waiting_to_running` on the extracted link, if there is one. This is what the callers of
`extract_first_waiting` do. -/
def runWoken (s : State) : Ptr → Except Fault State
  | none => .ok s
  | some linker => s.waitingToRunning linker

/-- The thread that is woken runs and is counted out; the queues stay. -/
theorem runWoken_eq {r : Ptr} (he : s.runWoken r = .ok s') : ∃ st run,
    s' = { s with
      status := st
      tRunning := run
      waitingNum := s.waitingNum - r.toList.length } := by
  cases r with
  | none =>
    obtain rfl := Except.ok.inj he
    exact ⟨_, _, rfl⟩
  | some l =>
    obtain ⟨_, -, he⟩ := bind_eq_ok he
    obtain rfl := Except.ok.inj he
    exact ⟨_, _, rfl⟩

end State

/-! ## The queues are the parts of the list -/

/-- **The queue of each primitive is its part of the list of sleepers**, each thread sleeps once,
and `waiting_num` is the length of the list. -/
structure QueuesOf (s : State) (sleeping : List (Addr × Addr)) : Prop where
  queues : ∀ p, s.kind p ≠ none → IsQueue s.next (s.waiting p) (waitersOn sleeping p)
  distinct : (sleeping.map Prod.snd).Nodup
  /-- nobody waits on a primitive that does not exist -/
  known : ∀ y ∈ sleeping, s.kind y.1 ≠ none
  waitingNum : s.waitingNum = sleeping.length

namespace QueuesOf

variable {s s' : State} {sleeping : List (Addr × Addr)} {p q l : Addr} {k : PrimKind}

/-- On a fresh pool nobody sleeps, and there is no primitive to sleep on. -/
theorem initial {mem : State} (hblank : Blank mem) (t link : Addr) :
    QueuesOf (mem.threadInitial t link) [] :=
  ⟨fun p hp => absurd (hblank.kind p) hp, .nil, by simp, rfl⟩

/-- A link waits on one primitive only, because it is in the list once. -/
theorem disjoint (h : QueuesOf s sleeping) (hp : l ∈ waitersOn sleeping p)
    (hq : l ∈ waitersOn sleeping q) : p = q := by
  have heq := List.inj_on_of_nodup_map h.distinct (mem_waitersOn.mp hp) (mem_waitersOn.mp hq) rfl
  exact (Prod.mk.inj heq).1

/-- `sync_prim_initial` gives the new primitive an empty queue, and nobody waits on it yet. -/
theorem create (h : QueuesOf s sleeping) (hk : s.kind p = none)
    (he : s.syncPrimInitial p k = .ok s') : QueuesOf s' sleeping := by
  obtain ⟨hnext, hwaiting, hkind, hnum, -⟩ := State.syncPrimInitial_frame he
  refine ⟨?_, h.distinct, ?_, hnum.trans h.waitingNum⟩
  · intro q hq
    rw [hnext, hwaiting]
    by_cases hqp : q = p
    · have hnone : waitersOn sleeping p = [] := by
        refine List.eq_nil_iff_forall_not_mem.mpr fun l hl => ?_
        exact h.known _ (mem_waitersOn.mp hl) hk
      rw [hqp, Function.update_self, hnone]
      exact .nil _
    · rw [Function.update_of_ne hqp]
      rw [hkind, Function.update_of_ne hqp] at hq
      exact h.queues q hq
  · intro y hy
    rw [hkind]
    by_cases hyp : y.1 = p
    · simp [hyp]
    · rw [Function.update_of_ne hyp]
      exact h.known y hy

/-- `running_to_lock_waiting` puts a new sleeper at the end of the list and of the queue of the
primitive. -/
theorem wait (h : QueuesOf s sleeping) (hk : s.kind p ≠ none) (hl : l ∉ sleeping.map Prod.snd) :
    QueuesOf (s.runningToLockWaiting l p) (sleeping ++ [(p, l)]) := by
  have hfree : ∀ r, l ∉ waitersOn sleeping r := by
    intro r hm
    exact hl (List.mem_map_of_mem (mem_waitersOn.mp hm))
  refine ⟨?_, ?_, ?_, ?_⟩
  · intro q hq
    rw [waitersOn_concat]
    change IsQueue ((s.waiting p).append s.next l).1
      (Function.update s.waiting p ((s.waiting p).append s.next l).2 q) _
    by_cases hqp : q = p
    · rw [if_pos hqp, hqp, Function.update_self]
      exact (h.queues p hk).append (hfree p)
    · rw [if_neg hqp, Function.update_of_ne hqp]
      refine (h.queues q hq).congr fun a ha => ?_
      apply (h.queues p hk).append_next_of_notMem
      · intro ham
        exact hqp (h.disjoint ha ham)
      · rintro rfl
        exact hfree q ha
  · rw [List.map_append]
    refine List.nodup_append.mpr ⟨h.distinct, List.nodup_singleton _, ?_⟩
    rintro a ha b hb rfl
    obtain rfl : a = l := by simpa using hb
    exact hl ha
  · intro y hy
    rcases List.mem_append.mp hy with hy | hy
    · exact h.known y hy
    · obtain rfl := List.mem_singleton.mp hy
      exact hk
  · change s.waitingNum + 1 = _
    simp [h.waitingNum]

/-- The queues after `extract_first_waiting` on `p` are the parts of the shorter list. -/
theorem pop (h : QueuesOf s sleeping) (hk : s.kind p ≠ none) (hq : s.kind q ≠ none) :
    IsQueue (s.popHead p (waitersOn sleeping p)).next
      ((s.popHead p (waitersOn sleeping p)).waiting q)
      (waitersOn (sleeping.eraseP fun y => y.1 == p) q) := by
  rw [waitersOn_erase]
  by_cases hqp : q = p
  · rw [if_pos hqp, hqp]
    exact State.popHead_queue (h.queues p hk)
  · rw [if_neg hqp]
    refine State.popHead_queue_of_ne hqp (fun a ha ham => ?_) (h.queues q hq)
    exact hqp (h.disjoint ha ham)

/-- The first sleeper of `p` is extracted and runs. If there is none, nothing changes. -/
theorem wake (h : QueuesOf s sleeping) (hk : s.kind p ≠ none)
    (he : (s.popHead p (waitersOn sleeping p)).runWoken (waitersOn sleeping p).head? = .ok s') :
    QueuesOf s' (sleeping.eraseP fun y => y.1 == p) := by
  obtain ⟨hprims, hnum, -⟩ := State.popHead_same s p (waitersOn sleeping p)
  obtain ⟨st, run, rfl⟩ := State.runWoken_eq he
  refine ⟨?_, h.distinct.sublist (List.eraseP_sublist.map _), ?_, ?_⟩
  · intro q hq
    exact h.pop hk (hprims.kind ▸ hq)
  · intro y hy
    change (s.popHead p (waitersOn sleeping p)).kind y.1 ≠ none
    rw [hprims.kind]
    exact h.known y (List.mem_of_mem_eraseP hy)
  · change (s.popHead p (waitersOn sleeping p)).waitingNum - _ = _
    rw [hnum, h.waitingNum, length_erase_sleeping]

end QueuesOf

end GreenLib
