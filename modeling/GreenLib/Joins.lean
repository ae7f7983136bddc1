import GreenLib.Effects
import Mathlib.Data.List.Perm.Subperm

/-!
# Join blocks

`thread_join` hangs a block of its caller into the list `joined_start` … `joined_end` of the thread
it waits for, `thread_exit` walks over the list of the exiting thread and sets `joinable` in each
block, and the caller takes its block out again, from the record of a thread that has been freed by
then.

What joins are about is a `JoinView` of the machine: which threads live, which of them are inside
`thread_join` and with which locals, and the memory. `JoinStep` says what can happen to it. Two of
its steps have a condition that the library does not provide for: a block that becomes the only one
of a list must have a null `next` field, which `append_join_block` does not write, and the record of
a thread that has exited must not be used again, nor the two ends of its list be overwritten, while
somebody has still to leave the list. `JoinView.Inv` is the invariant.
-/

namespace GreenLib

/-! ## Lists of blocks -/

/-- A list of nodes that ends in a null pointer. A walk that follows `next` needs this, and
`IsQueue` alone does not give it. -/
structure Chained (next : Addr → Ptr) (q : Ends Addr) (bs : List Addr) : Prop where
  queue : IsQueue next q bs
  last : ∀ e, bs.getLast? = some e → next e = none

namespace Chained

variable {next next' : Addr → Ptr} {q : Ends Addr} {bs : List Addr} {b : Addr}

theorem nil (next : Addr → Ptr) : Chained next ⟨none, none⟩ [] := ⟨.nil next, nofun⟩

/-- A list does not notice a change of `next` elsewhere, its last pointer included. -/
theorem congr (h : Chained next q bs) (hn : ∀ a ∈ bs, next' a = next a) : Chained next' q bs :=
  ⟨h.queue.congr hn, fun e he => (hn e (List.mem_of_getLast? he)).trans (h.last e he)⟩

/-- The pointer of the first node is the head of the rest, and null if there is no rest. -/
theorem next_head (h : Chained next q (b :: bs)) : next b = bs.head? := by
  cases bs with
  | nil => exact h.last b rfl
  | cons c cs => exact (List.isChain_cons_cons.mp h.queue.chain).1

theorem tail (h : Chained next q (b :: bs)) : ∃ q', Chained next q' bs := by
  cases bs with
  | nil => exact ⟨_, .nil next⟩
  | cons c cs =>
    refine ⟨_, h.queue.tail (List.cons_ne_nil _ _), fun e he => h.last e ?_⟩
    rw [List.getLast?_cons_cons]
    exact he

/-- A node is appended. The pointer of the only node of a list is not written, so it has to be null
already: this is where a list can lose its end. -/
theorem append (h : Chained next q bs) (hb : b ∉ bs) (hnull : bs = [] → next b = none) :
    Chained (q.append next b).1 (q.append next b).2 (bs ++ [b]) := by
  refine ⟨h.queue.append hb, fun e he => ?_⟩
  rw [List.getLast?_concat] at he
  obtain rfl := Option.some.inj he
  cases hq : q.stop with
  | none =>
    rw [Ends.append, hq]
    exact hnull (h.queue.stop_eq_none.mp hq)
  | some c =>
    rw [Ends.append, hq]
    exact Function.update_self ..

/-- A node is taken out, and the list still ends in a null pointer. -/
theorem unlink {ys zs : List Addr} (h : Chained next q (ys ++ b :: zs)) :
    ∃ n' q', Ends.unlink next q ys.getLast? b = some (n', q') ∧ Chained n' q' (ys ++ zs) ∧
      ∀ a, a ∉ ys ++ b :: zs → n' a = next a := by
  obtain ⟨n', q', hu, hq, hn⟩ := h.queue.unlink
  exact ⟨n', q', hu, ⟨hq, (h.queue.unlink_last h.last hu).2⟩, hn⟩

end Chained

namespace State

/-- The blocks that the loop of `thread_exit` visits, in this order. -/
def walk (s : State) : ℕ → Ptr → List Addr
  | _, none => []
  | 0, some _ => []
  | n + 1, some b => b :: s.walk n (s.joinNext b)

/-- The walk visits the blocks of the list, one after the other, and then stops. -/
theorem walk_eq {s : State} {q : Ends Addr} {bs : List Addr} {n : ℕ}
    (h : Chained s.joinNext q bs) (hn : bs.length ≤ n) : s.walk n bs.head? = bs := by
  induction bs generalizing q n with
  | nil => cases n <;> rfl
  | cons b bs ih =>
    obtain ⟨k, rfl⟩ : ∃ k, n = k + 1 := ⟨n - 1, by simp at hn; omega⟩
    obtain ⟨q', htail⟩ := h.tail
    change b :: s.walk k (s.joinNext b) = b :: bs
    rw [h.next_head, ih htail (by simpa using hn)]

/-- **The walk ends**, and it marks the blocks of the list and no others. -/
theorem markJoinable_ok {s : State} {q : Ends Addr} {bs : List Addr} {n : ℕ}
    (h : Chained s.joinNext q bs) (hlive : ∀ b ∈ bs, s.blockLive b = true) (hn : bs.length ≤ n) :
    s.markJoinable n bs.head? =
      .ok { s with joinable := fun b => s.joinable b || decide (b ∈ bs) } := by
  induction bs generalizing s q n with
  | nil =>
    have hmark : s.markJoinable n none = .ok s := by cases n <;> rfl
    simpa using hmark
  | cons b bs ih =>
    obtain ⟨k, rfl⟩ : ∃ k, n = k + 1 := ⟨n - 1, by simp at hn; omega⟩
    obtain ⟨q', htail⟩ := h.tail
    have hrest := ih (s := { s with joinable := Function.update s.joinable b true }) htail
      (fun c hc => hlive c (List.mem_cons_of_mem _ hc)) (n := k) (by simpa using hn)
    change (if s.blockLive b then _ else _) = _
    rw [if_pos (hlive b List.mem_cons_self), h.next_head, hrest]
    congr 2
    funext c
    rcases eq_or_ne c b with rfl | hne
    · simp
    · simp [hne]

end State

/-! ## Steps -/

/-- Threads and their joins: what the invariant is about. The machine is reduced to it, so that the
invariant does not depend on how threads are scheduled. -/
structure JoinView : Type where
  /-- the threads that have been created and have not exited -/
  alive : ℕ → Prop
  gone : ℕ → Prop
  /-- the locals `cur`, `new` and `thread_id` of a thread inside `thread_join` -/
  waits : ℕ → Option (Addr × Addr × ℕ)
  st : State

/-- Somebody inside `thread_join` works with the record `t`, which may have been freed in the
meantime. -/
def JoinView.Awaited (v : JoinView) (t : Addr) : Prop :=
  ∃ i cur id, v.waits i = some (cur, t, id)

/-- The fields that joins are about are the same, whatever else has changed. -/
structure KeepsJoins (s s' : State) : Prop where
  addrs : s'.addrs = s.addrs
  newId : s'.newId = s.newId
  tId : s'.tId = s.tId
  threadLive : s'.threadLive = s.threadLive
  join : s'.join = s.join
  joined : s'.joined = s.joined
  joinNext : s'.joinNext = s.joinNext
  joinable : s'.joinable = s.joinable
  blockLive : s'.blockLive = s.blockLive
  blockNum : s'.blockNum = s.blockNum

theorem KeepsJoins.refl (s : State) : KeepsJoins s s :=
  ⟨rfl, rfl, rfl, rfl, rfl, rfl, rfl, rfl, rfl, rfl⟩

theorem Schedules.keepsJoins {s s' : State} (h : Schedules s s') : KeepsJoins s s' := by
  obtain ⟨_, _, _, _, _, _, _, _, _, _, _, rfl⟩ := h
  exact ⟨rfl, rfl, rfl, rfl, rfl, rfl, rfl, rfl, rfl, rfl⟩

/-- The record `t`, which nobody knows, is written; it may be registered under the next id, as one
that nobody joins. -/
structure Rewrites (s s' : State) (t : Addr) : Prop where
  addrs : s'.addrs = s.addrs ∨ s'.addrs = Function.update s.addrs s.newId (some t) ∧
    s'.tId t = s.newId ∧ s'.threadLive t = true ∧ s'.join t = none ∧
    s'.joined t = ⟨none, none⟩ ∧ s'.newId = s.newId + 1
  newId : s.newId ≤ s'.newId
  tId : ∀ r, r ≠ t → s'.tId r = s.tId r
  threadLive : ∀ r, r ≠ t → s'.threadLive r = s.threadLive r
  join : ∀ r, r ≠ t → s'.join r = s.join r
  joined : ∀ r, r ≠ t → s'.joined r = s.joined r
  joinNext : s'.joinNext = s.joinNext
  joinable : s'.joinable = s.joinable
  blockLive : s'.blockLive = s.blockLive
  blockNum : s'.blockNum = s.blockNum

/-- The other ids keep their records, whether or not the new one is registered. -/
theorem Rewrites.addrs_of_ne {s s' : State} {t : Addr} (h : Rewrites s s' t) {i : ℕ}
    (hi : i ≠ s.newId) : s'.addrs i = s.addrs i := by
  rcases h.addrs with he | ⟨he, -⟩
  · rw [he]
  · rw [he, Function.update_of_ne hi]

/-- A registered record was registered before, or it is the new one: nobody joins it yet. -/
theorem Rewrites.addrs_cases {s s' : State} {t r : Addr} (h : Rewrites s s' t) {i : ℕ}
    (hr : s'.addrs i = some r) : s.addrs i = some r ∨
      r = t ∧ s'.tId t = i ∧ s'.threadLive t = true ∧ s'.join t = none ∧
        s'.joined t = ⟨none, none⟩ ∧ i < s'.newId := by
  rcases h.addrs with he | ⟨he, htid, htl, hj, hjd, hn⟩
  · exact .inl (he ▸ hr)
  · rw [he] at hr
    rcases eq_or_ne i s.newId with rfl | hi
    · rw [Function.update_self] at hr
      exact .inr ⟨(Option.some.inj hr).symm, htid, htl, hj, hjd, by omega⟩
    · rw [Function.update_of_ne hi] at hr
      exact .inl hr

/-- What a step may do to the freed record `t` while the joiners of its thread still have to leave
the list: it does not register the record, and it keeps the two ends of the list. -/
structure Spares (s s' : State) (t : Addr) : Prop where
  addrs : s'.addrs = s.addrs
  threadLive : s'.threadLive t = s.threadLive t
  joined : s'.joined t = s.joined t

/-- `thread_join` has allocated the block `b` for its caller `cur`; `caller` and `joiner` are for
information only. -/
def State.hangBlock (s : State) (cur b caller id : ℕ) : State :=
  { s with
    join := Function.update s.join cur (some b)
    blockLive := Function.update s.blockLive b true
    blockNum := s.blockNum + 1
    caller := Function.update s.caller b caller
    joiner := Function.update s.joiner b id
    joinable := Function.update s.joinable b false }

/-- Thread `i` with the record `cur` calls `thread_join` on thread `id` and comes to the loop: its
block `b` has been appended to the list of the record `new`. If it is the only block of that list,
its `next` field was null before. -/
structure JoinView.Enters (v v' : JoinView) (i : ℕ) (cur new b : Addr) (id : ℕ) : Prop where
  caller : v.alive i
  record : v.st.addrs i = some cur
  outside : v.waits i = none
  target : v.st.addrs id = some new
  fresh : v.st.blockLive b = false
  null : (v.st.joined new).stop = none → v.st.joinNext b = none
  alive : v'.alive = v.alive
  gone : v'.gone = v.gone
  waits : v'.waits = Function.update v.waits i (some (cur, new, id))
  addrs : v'.st.addrs = v.st.addrs
  tId : v'.st.tId = v.st.tId
  threadLive : v'.st.threadLive = v.st.threadLive
  newId : v'.st.newId = v.st.newId
  join : v'.st.join = Function.update v.st.join cur (some b)
  joinable : v'.st.joinable = Function.update v.st.joinable b false
  blockLive : v'.st.blockLive = Function.update v.st.blockLive b true
  blockNum : v'.st.blockNum = v.st.blockNum + 1
  joinNext : v'.st.joinNext = ((v.st.joined new).append v.st.joinNext b).1
  joined : v'.st.joined =
    Function.update v.st.joined new ((v.st.joined new).append v.st.joinNext b).2

/-- **What happens to joins** in a step: nothing, a record is written, a thread exits, enters
`thread_join` or leaves it. -/
inductive JoinStep (v v' : JoinView) : Prop where
  | quiet (halive : v'.alive = v.alive) (hgone : v'.gone = v.gone) (hwaits : v'.waits = v.waits)
    (hst : KeepsJoins v.st v'.st)
  /-- `thread_create`, or a change of a freed record; if somebody has still to leave the list of
  the record, its ends are kept -/
  | rewrite {t : Addr} (hlive : v.st.threadLive t = false)
    (hspare : v.Awaited t → Spares v.st v'.st t)
    (hgone : v'.gone = v.gone) (hwaits : v'.waits = v.waits) (hst : Rewrites v.st v'.st t)
    (hkeep : ∀ i, v.alive i → v'.alive i)
    (hnew : ∀ i, v'.alive i → v.alive i ∨ v'.st.addrs i = some t)
  | exit {i : ℕ} {t : Addr} {s : State} (hi : v.alive i) (ht : v.st.addrs i = some t)
    (hw : v.waits i = none)
    (hmark : v.st.markJoinable (v.st.blockNum + 1) (v.st.joined t).start = .ok s)
    (hst : KeepsJoins (s.removeThread t) v'.st) (halive : ∀ j, v'.alive j ↔ v.alive j ∧ j ≠ i)
    (hgone : ∀ j, v'.gone j ↔ v.gone j ∨ j = i) (hwaits : v'.waits = v.waits)
  | enter {i cur new b id : ℕ} (h : v.Enters v' i cur new b id)
  | leave {i : ℕ} {cur new b id : ℕ} {s : State} (hw : v.waits i = some (cur, new, id))
    (hb : v.st.join cur = some b) (hs : v.st.deleteJoinBlock b new = .ok s)
    (hst : v'.st = { s with join := Function.update s.join cur none })
    (halive : v'.alive = v.alive) (hgone : v'.gone = v.gone)
    (hwaits : v'.waits = Function.update v.waits i none)

/-! ## The calls -/

namespace State

variable {s s' : State} {al : Alloc} {id : ℕ}

/-- `thread_create` changes nothing and reports a failure, or it writes a record that it has just
allocated. If it returns an id, the record is registered under it. -/
theorem threadCreate_rewrites (he : s.threadCreate al = .ok (s', id)) (hpos : 0 < s.newId) :
    s' = s ∧ id = 0 ∨ ∃ t, al.thread = some t ∧ s.threadLive t = false ∧ Rewrites s s' t ∧
      (id ≠ 0 → id = s.newId ∧ s'.addrs id = some t) := by
  have hfree : s' = s ∧ id = 0 ∨ ∀ t, al.thread = some t → s.threadLive t = false := by
    rw [threadCreate] at he
    split at he
    · obtain ⟨rfl, rfl⟩ := Prod.mk.inj (Except.ok.inj he)
      exact .inl ⟨rfl, rfl⟩
    · obtain ⟨q, hq, -⟩ := bind_eq_ok he
      refine .inr fun t ht => ?_
      cases q with
      | none => cases (malloc_eq_none hq).symm.trans ht
      | some r =>
        obtain ⟨hr, hlive⟩ := malloc_eq_some hq
        rwa [← Option.some.inj (hr.symm.trans ht)]
  rcases hfree with hsame | hfree
  · exact .inl hsame
  have hother : ∀ {α : Type} {f : Addr → α} {x : α} {t : Addr}, ∀ r, r ≠ t →
      Function.update f t x r = f r := fun r hr => Function.update_of_ne hr ..
  cases threadCreate_creates he with
  | off => exact .inl ⟨rfl, rfl⟩
  | noRecord => exact .inl ⟨rfl, rfl⟩
  | noId h => omega
  | @noStack sl t ht =>
    exact .inr ⟨t, ht, hfree t ht, ⟨.inl rfl, Nat.le_succ _, hother, hother, hother, hother, rfl,
      rfl, rfl, rfl⟩, fun h0 => absurd rfl h0⟩
  | @noLink sl t ht =>
    exact .inr ⟨t, ht, hfree t ht, ⟨.inr ⟨rfl, Function.update_self .., Function.update_self ..,
      Function.update_self .., Function.update_self .., rfl⟩, Nat.le_succ _, hother, hother, hother,
      hother, rfl, rfl, rfl, rfl⟩, fun h0 => absurd rfl h0⟩
  | @linked sl t l ht =>
    exact .inr ⟨t, ht, hfree t ht, ⟨.inr ⟨rfl, Function.update_self .., Function.update_self ..,
      Function.update_self .., Function.update_self .., rfl⟩, Nat.le_succ _, hother, hother, hother,
      hother, rfl, rfl, rfl, rfl⟩, fun _ => ⟨rfl, Function.update_self ..⟩⟩

/-- `thread_create` does not change who runs, and the links it writes are those of the new
record. -/
theorem threadCreate_control (he : s.threadCreate al = .ok (s', id)) :
    s'.coCurrentId = s.coCurrentId ∧ s'.tRunning = s.tRunning ∧ (id ≠ 0 → id < maxCapacity) ∧
      ∀ l, s'.thread l = s.thread l ∨ al.thread = some (s'.thread l) := by
  cases threadCreate_creates he with
  | @linked _ t l₀ ht _ _ hcap =>
    refine ⟨rfl, rfl, fun _ => hcap, fun l => ?_⟩
    change Function.update s.thread l₀ t l = s.thread l ∨
      al.thread = some (Function.update s.thread l₀ t l)
    rcases eq_or_ne l l₀ with rfl | hne
    · exact .inr (ht.trans (congrArg some (Function.update_self l t s.thread).symm))
    · exact .inl (Function.update_of_ne hne ..)
  | _ => exact ⟨rfl, rfl, fun h0 => absurd rfl h0, fun l => .inl rfl⟩

/-- Whatever a freed record becomes, no other record changes and nothing is registered. -/
theorem scribble_rewrites (s : State) (t : Addr) (junk : State) :
    Rewrites s (s.scribble t junk) t := by
  have hother : ∀ {α : Type} {f : Addr → α} {x : α}, ∀ r, r ≠ t →
      Function.update f t x r = f r := fun r hr => Function.update_of_ne hr ..
  exact ⟨.inl rfl, le_rfl, hother, fun _ _ => rfl, hother, hother, rfl, rfl, rfl, rfl⟩

/-- `append_join_block` writes the list of `new` and the `next` field of its last block. -/
theorem appendJoinBlock_eq {b new : Addr} (he : s.appendJoinBlock b new = .ok s') :
    s' = { s with
      joinNext := ((s.joined new).append s.joinNext b).1
      joined := Function.update s.joined new ((s.joined new).append s.joinNext b).2 } := by
  obtain ⟨-, -, he⟩ := bind_eq_ok he
  exact (Except.ok.inj he).symm

theorem getThread_eq_ok {q : Ptr} (h : s.getThread id = .ok q) : s.addrs id = q := by
  rw [getThread] at h
  split at h
  · exact Except.ok.inj h
  · cases h

/-- `thread_exit` walks, frees its caller and schedules. The walk starts from the record that
`co_current_id` leads to. -/
theorem threadExit_marks {tr : Transfer} (he : s.threadExit = .ok (s', tr)) :
    ∃ cur s₁, s.addrs s.coCurrentId = some cur ∧
      s.markJoinable (s.blockNum + 1) (s.joined cur).start = .ok s₁ ∧
      (s₁.removeThread cur).exitSwitch = .ok (s', tr) := by
  obtain ⟨q, hq, he⟩ := bind_eq_ok he
  obtain ⟨cur, hcur, he⟩ := bind_eq_ok he
  obtain ⟨s₁, hmark, he⟩ := bind_eq_ok he
  split at he
  · cases he
  · exact ⟨cur, s₁, (getThread_eq_ok hq).trans (deref_eq_ok hcur), hmark, he⟩

/-- `thread_join` returns at once, because the thread has exited or because there is no memory for a
block, or it comes to its loop. -/
theorem threadJoinEnter_cases {q : Option (Addr × Addr)}
    (he : s.threadJoinEnter al id = .ok (s', q)) :
    ∃ cur, s.addrs s.coCurrentId = some cur ∧
      (s' = s ∧ q = none ∧ s.join cur = none ∧
          (s.addrs id = none ∧ id < s.newId ∨ al.block = none ∧ s.addrs id ≠ none) ∨
        ∃ new b caller, s.addrs id = some new ∧ al.block = some b ∧ s.blockLive b = false ∧
          q = some (cur, new) ∧ (s.hangBlock cur b caller id).appendJoinBlock b new = .ok s') := by
  obtain ⟨q₁, hq₁, he⟩ := bind_eq_ok he
  obtain ⟨cur, hcur, he⟩ := bind_eq_ok he
  obtain ⟨_, hcheck, he⟩ := bind_eq_ok he
  obtain ⟨q₂, hq₂, he⟩ := bind_eq_ok he
  have hjoin : s.join cur = none := by simpa using check_eq_ok hcheck
  refine ⟨cur, (getThread_eq_ok hq₁).trans (deref_eq_ok hcur), ?_⟩
  cases q₂ with
  | none =>
    simp only at he
    split at he
    · cases he
    · rename_i hlt
      obtain ⟨rfl, rfl⟩ := Prod.mk.inj (Except.ok.inj he)
      exact .inl ⟨rfl, rfl, hjoin, .inl ⟨getThread_eq_ok hq₂, Nat.lt_of_not_le hlt⟩⟩
  | some new =>
    obtain ⟨q₃, hq₃, he⟩ := bind_eq_ok he
    cases q₃ with
    | none =>
      obtain ⟨rfl, rfl⟩ := Prod.mk.inj (Except.ok.inj he)
      exact .inl ⟨rfl, rfl, hjoin, .inr ⟨malloc_eq_none hq₃, by rw [getThread_eq_ok hq₂]; nofun⟩⟩
    | some b =>
      obtain ⟨hb, hlive⟩ := malloc_eq_some hq₃
      obtain ⟨run, -, he⟩ := bind_eq_ok he
      obtain ⟨s₁, hs₁, he⟩ := bind_eq_ok he
      obtain ⟨rfl, rfl⟩ := Prod.mk.inj (Except.ok.inj he)
      exact .inr ⟨new, b, _, getThread_eq_ok hq₂, hb, hlive, rfl, hs₁⟩

/-- A turn of the loop of `thread_join` ends it, if the block is marked, or passes control on with
`thread_resume`. -/
theorem threadJoinTurn_cases {cur new : Addr} {tu : Turn}
    (he : s.threadJoinTurn cur new id = .ok (s', tu)) :
    ∃ b, s.join cur = some b ∧
      (s.joinable b = true ∧ tu = .done ∧ (∃ s₁, s.deleteJoinBlock b new = .ok s₁ ∧
          s' = { s₁ with join := Function.update s₁.join cur none }) ∨
        s.joinable b = false ∧ ∃ k tr, tu = .again tr ∧ s.threadResume k = .ok (s', tr)) := by
  obtain ⟨b, hb, he⟩ := bind_eq_ok he
  refine ⟨b, deref_eq_ok hb, ?_⟩
  split at he
  · rename_i hj
    obtain ⟨s₁, hs₁, he⟩ := bind_eq_ok he
    obtain ⟨rfl, rfl⟩ := Prod.mk.inj (Except.ok.inj he)
    exact .inl ⟨hj, rfl, s₁, hs₁, rfl⟩
  · rename_i hj
    refine .inr ⟨Bool.eq_false_iff.mpr hj, ?_⟩
    split at he
    · obtain ⟨⟨s₁, tr⟩, hs₁, he⟩ := bind_eq_ok he
      obtain ⟨rfl, rfl⟩ := Prod.mk.inj (Except.ok.inj he)
      exact ⟨id, tr, rfl, hs₁⟩
    · obtain ⟨⟨s₁, tr⟩, hs₁, he⟩ := bind_eq_ok he
      obtain ⟨rfl, rfl⟩ := Prod.mk.inj (Except.ok.inj he)
      rw [threadYield] at hs₁
      split at hs₁
      · exact ⟨0, tr, rfl, hs₁⟩
      · obtain ⟨head, -, hs₁⟩ := bind_eq_ok hs₁
        exact ⟨_, tr, rfl, hs₁⟩
    · cases he

/-- The last turn: the block is marked, so it is taken out of the list, and its thread forgets
it. -/
theorem threadJoinTurn_done {cur new b : Addr} {s₁ : State} (hb : s.join cur = some b)
    (hj : s.joinable b = true) (hs : s.deleteJoinBlock b new = .ok s₁) :
    s.threadJoinTurn cur new id =
      .ok ({ s₁ with join := Function.update s₁.join cur none }, .done) := by
  rw [threadJoinTurn, hb]
  change (if s.joinable b then _ else _) = _
  rw [if_pos hj, hs]
  rfl

end State

/-! ## The invariant -/

namespace JoinView

variable {v v' : JoinView} {i j : ℕ} {cur new b id : ℕ} {t : Addr}

/-- The block `b` belongs to a thread that is inside `thread_join` with the record `new`. -/
def Hangs (v : JoinView) (new b : Addr) : Prop :=
  ∃ i cur id, v.waits i = some (cur, new, id) ∧ v.st.join cur = some b

/-- The thread `id` with the record `new` has not exited, or it has and the block `b` says so. -/
def Announced (v : JoinView) (new b : Addr) (id : ℕ) : Prop :=
  v.st.addrs id = some new ∧ v.st.joinable b = false ∨
    v.gone id ∧ v.st.threadLive new = false ∧ v.st.joinable b = true

structure Inv (v : JoinView) : Prop where
  /-- whatever is registered is a live record that knows its id -/
  record : ∀ i t, v.st.addrs i = some t →
    v.st.tId t = i ∧ v.st.threadLive t = true ∧ i < v.st.newId
  alive : ∀ i, v.alive i → ∃ t, v.st.addrs i = some t
  gone : ∀ i, v.gone i → v.st.addrs i = none ∧ i < v.st.newId
  waits : ∀ i cur new id, v.waits i = some (cur, new, id) →
    v.alive i ∧ v.st.addrs i = some cur ∧
      ∃ b, v.st.join cur = some b ∧ v.st.blockLive b = true ∧ v.Announced new b id
  idle : ∀ i t, v.alive i → v.st.addrs i = some t → v.waits i = none → v.st.join t = none
  /-- the list of a record has the blocks of those who wait for it -/
  list : ∀ new, (∃ i, v.st.addrs i = some new) ∨ v.Awaited new →
    ∃ bs, Chained v.st.joinNext (v.st.joined new) bs ∧ ∀ b, b ∈ bs ↔ v.Hangs new b
  own : ∀ i j cur new id cur' new' id' b, v.waits i = some (cur, new, id) →
    v.waits j = some (cur', new', id') → v.st.join cur = some b → v.st.join cur' = some b → i = j
  blocks : ∃ bl : List Addr, bl.length ≤ v.st.blockNum ∧
    ∀ b, v.st.blockLive b = true → b ∈ bl

namespace Inv

/-- Two threads do not share a record, since a record knows its id. -/
theorem record_inj (h : v.Inv) (hi : v.st.addrs i = some t) (hj : v.st.addrs j = some t) :
    i = j :=
  (h.record i t hi).1.symm.trans (h.record j t hj).1

/-- The blocks of a list are allocated, so that the walk of an exiting thread writes into no freed
block, -/
theorem live_of_hangs (h : v.Inv) (hb : v.Hangs new b) : v.st.blockLive b = true := by
  obtain ⟨i, cur, id, hw, hj⟩ := hb
  obtain ⟨-, -, c, hc, hlive, -⟩ := h.waits i cur new id hw
  rwa [Option.some.inj (hj.symm.trans hc)]

/-- and a block is in one list only, so an edit of one list leaves the others alone. -/
theorem new_eq_of_hangs {new' : Addr} (h : v.Inv) (hb : v.Hangs new b) (hb' : v.Hangs new' b) :
    new = new' := by
  obtain ⟨i, cur, id, hw, hj⟩ := hb
  obtain ⟨j, cur', id', hw', hj'⟩ := hb'
  obtain rfl := h.own i j _ _ _ _ _ _ b hw hw' hj hj'
  rw [hw] at hw'
  cases hw'
  rfl

/-- A list is not longer than the number of blocks ever allocated, so the fuel of the walks
suffices. -/
theorem length_le (h : v.Inv) {bs : List Addr} (hnd : bs.Nodup)
    (hbs : ∀ b, b ∈ bs ↔ v.Hangs new b) : bs.length ≤ v.st.blockNum := by
  obtain ⟨bl, hlen, hmem⟩ := h.blocks
  have hsub : bs ⊆ bl := fun b hb => hmem b (h.live_of_hangs ((hbs b).mp hb))
  exact (List.Nodup.subperm hnd hsub).length_le.trans hlen

/-! ## The steps -/

/-- A step that leaves the memory of joins alone keeps the invariant, field by field. -/
theorem quiet (h : v.Inv) (halive : v'.alive = v.alive) (hgone : v'.gone = v.gone)
    (hwaits : v'.waits = v.waits) (hst : KeepsJoins v.st v'.st) : v'.Inv := by
  obtain ⟨alive', gone', waits', s'⟩ := v'
  simp only at halive hgone hwaits hst
  subst halive hgone hwaits
  have hann : ∀ {new b id}, Announced ⟨v.alive, v.gone, v.waits, s'⟩ new b id ↔
      v.Announced new b id := by
    intro new b id
    simp only [Announced, hst.addrs, hst.joinable, hst.threadLive]
  have hhang : ∀ {new b}, Hangs ⟨v.alive, v.gone, v.waits, s'⟩ new b ↔ v.Hangs new b := by
    intro new b
    simp only [Hangs, hst.join]
  constructor
  · simpa only [hst.addrs, hst.tId, hst.threadLive, hst.newId] using h.record
  · simpa only [hst.addrs] using h.alive
  · simpa only [hst.addrs, hst.newId] using h.gone
  · simpa only [hst.addrs, hst.join, hst.blockLive, hann] using h.waits
  · simpa only [hst.addrs, hst.join] using h.idle
  · simpa only [hst.addrs, hst.joinNext, hst.joined, hhang, Awaited] using h.list
  · simpa only [hst.join] using h.own
  · simpa only [hst.blockNum, hst.blockLive] using h.blocks

/-- A record that is not in use is written, and perhaps registered. No list of a registered thread
is touched, and an awaited record keeps its list. -/
theorem rewrite (h : v.Inv) (hlive : v.st.threadLive t = false)
    (hspare : v.Awaited t → Spares v.st v'.st t)
    (hgone : v'.gone = v.gone) (hwaits : v'.waits = v.waits) (hst : Rewrites v.st v'.st t)
    (hkeep : ∀ i, v.alive i → v'.alive i)
    (hnew : ∀ i, v'.alive i → v.alive i ∨ v'.st.addrs i = some t) : v'.Inv := by
  -- the registered records are others, and an awaited one keeps its list
  have hne : ∀ {i r}, v.st.addrs i = some r → r ≠ t := by
    rintro i r hr rfl
    cases hlive.symm.trans (h.record i r hr).2.1
  have hkept : ∀ {new}, v.Awaited new →
      v'.st.threadLive new = v.st.threadLive new ∧ v'.st.joined new = v.st.joined new := by
    intro new hw
    rcases eq_or_ne new t with rfl | hnt
    · exact ⟨(hspare hw).threadLive, (hspare hw).joined⟩
    · exact ⟨hst.threadLive new hnt, hst.joined new hnt⟩
  have hold : ∀ {i r}, v.st.addrs i = some r → v'.st.addrs i = some r := by
    intro i r hr
    exact (hst.addrs_of_ne (h.record i r hr).2.2.ne).trans hr
  have hjoin : ∀ {i cur new id}, v.waits i = some (cur, new, id) →
      v'.st.join cur = v.st.join cur := fun hw => hst.join _ (hne (h.waits _ _ _ _ hw).2.1)
  have hhang : ∀ {new b}, v'.Hangs new b ↔ v.Hangs new b := by
    intro new b
    constructor <;> rintro ⟨i, cur, id, hw, hb⟩
    · rw [hwaits] at hw
      exact ⟨i, cur, id, hw, hjoin hw ▸ hb⟩
    · exact ⟨i, cur, id, hwaits ▸ hw, (hjoin hw).trans hb⟩
  refine ⟨fun i r hr => ?_, fun i hi => ?_, fun i hi => ?_, fun i cur new id hw => ?_,
    fun i r hi hr hw => ?_, fun new hnew' => ?_, fun i j => ?_, ?_⟩
  · rcases hst.addrs_cases hr with hr | ⟨rfl, htid, htl, -, -, hlt⟩
    · obtain ⟨h₁, h₂, h₃⟩ := h.record i r hr
      exact ⟨(hst.tId r (hne hr)).trans h₁, (hst.threadLive r (hne hr)).trans h₂,
        h₃.trans_le hst.newId⟩
    · exact ⟨htid, htl, hlt⟩
  · rcases hnew i hi with hi | hi
    · obtain ⟨r, hr⟩ := h.alive i hi
      exact ⟨r, hold hr⟩
    · exact ⟨t, hi⟩
  · rw [hgone] at hi
    obtain ⟨hnone, hlt⟩ := h.gone i hi
    exact ⟨(hst.addrs_of_ne hlt.ne).trans hnone, hlt.trans_le hst.newId⟩
  · rw [hwaits] at hw
    obtain ⟨hi, hcur, b, hb, hbl, hann⟩ := h.waits i cur new id hw
    refine ⟨hkeep i hi, hold hcur, b, (hjoin hw).trans hb, hst.blockLive ▸ hbl, hann.imp ?_ ?_⟩
    · rintro ⟨hid, hj⟩
      exact ⟨hold hid, hst.joinable ▸ hj⟩
    · rintro ⟨hg, hl, hj⟩
      exact ⟨hgone ▸ hg, (hkept ⟨i, cur, id, hw⟩).1.trans hl, hst.joinable ▸ hj⟩
  · rw [hwaits] at hw
    rcases hst.addrs_cases hr with hr' | ⟨rfl, -, -, hj, -, -⟩
    · rcases hnew i hi with hi | hi
      · exact (hst.join r (hne hr')).trans (h.idle i r hi hr' hw)
      · exact absurd (Option.some.inj (hr.symm.trans hi)) (hne hr')
    · exact hj
  · -- the list of the new record is empty
    have hlist : (∃ i, v.st.addrs i = some new) ∨ v.Awaited new →
        ∃ bs, Chained v'.st.joinNext (v'.st.joined new) bs ∧ ∀ b, b ∈ bs ↔ v'.Hangs new b := by
      intro hnew
      have hjoined : v'.st.joined new = v.st.joined new := by
        rcases hnew with ⟨i, hi⟩ | hw
        · exact hst.joined new (hne hi)
        · exact (hkept hw).2
      obtain ⟨bs, hc, hbs⟩ := h.list new hnew
      rw [hst.joinNext, hjoined]
      exact ⟨bs, hc, fun b => (hbs b).trans hhang.symm⟩
    rcases hnew' with ⟨i, hi⟩ | ⟨i, cur, id, hw⟩
    · rcases hst.addrs_cases hi with hold' | ⟨rfl, -, -, -, hjd, -⟩
      · exact hlist (.inl ⟨i, hold'⟩)
      · rw [hjd]
        refine ⟨[], .nil _, fun b => ⟨nofun, fun hb => ?_⟩⟩
        obtain ⟨k, cur, id, hw, -⟩ := hhang.mp hb
        rw [(hspare ⟨k, cur, id, hw⟩).addrs] at hi
        exact absurd rfl (hne hi)
    · exact hlist (.inr ⟨i, cur, id, hwaits ▸ hw⟩)
  · intro cur new id cur' new' id' b hw hw' hb hb'
    rw [hwaits] at hw hw'
    exact h.own i j _ _ _ _ _ _ b hw hw' (hjoin hw ▸ hb) (hjoin hw' ▸ hb')
  · rw [hst.blockNum, hst.blockLive]
    exact h.blocks

/-- What a registered record says about its list: the walk from it visits the blocks of its joiners,
each once, and succeeds. -/
theorem walk (h : v.Inv) (ht : v.st.addrs i = some t) :
    ∃ bs : List Addr, bs.Nodup ∧ (∀ b, b ∈ bs ↔ v.Hangs t b) ∧
      v.st.walk (v.st.blockNum + 1) (v.st.joined t).start = bs ∧
      v.st.markJoinable (v.st.blockNum + 1) (v.st.joined t).start =
        .ok { v.st with joinable := fun b => v.st.joinable b || decide (b ∈ bs) } := by
  obtain ⟨bs, hc, hbs⟩ := h.list t (.inl ⟨i, ht⟩)
  have hlen := (h.length_le hc.queue.nodup hbs).trans (Nat.le_succ _)
  rw [hc.queue.start]
  exact ⟨bs, hc.queue.nodup, hbs, State.walk_eq hc hlen,
    State.markJoinable_ok hc (fun b hb => h.live_of_hangs ((hbs b).mp hb)) hlen⟩

end Inv

/-! ### `thread_exit` -/

/-- **Thread `i` with the record `t` exits**: the memory afterwards, field by field. The blocks
`bs` of the list of `t` are marked, the record is freed and its id is no longer registered. -/
structure Exits (v v' : JoinView) (i : ℕ) (t : Addr) (bs : List Addr) : Prop where
  record : v.st.addrs i = some t
  outside : v.waits i = none
  marked : ∀ b, b ∈ bs ↔ v.Hangs t b
  alive : ∀ j, v'.alive j ↔ v.alive j ∧ j ≠ i
  gone : ∀ j, v'.gone j ↔ v.gone j ∨ j = i
  waits : v'.waits = v.waits
  addrs : v'.st.addrs = Function.update v.st.addrs i none
  threadLive : v'.st.threadLive = Function.update v.st.threadLive t false
  joinable : v'.st.joinable = fun b => v.st.joinable b || decide (b ∈ bs)
  tId : v'.st.tId = v.st.tId
  newId : v'.st.newId = v.st.newId
  join : v'.st.join = v.st.join
  joined : v'.st.joined = v.st.joined
  joinNext : v'.st.joinNext = v.st.joinNext
  blockNum : v'.st.blockNum = v.st.blockNum
  blockLive : v'.st.blockLive = v.st.blockLive

namespace Exits

variable {bs : List Addr}

/-- What is registered afterwards was registered, under another id than that of the exiting
thread. -/
theorem addrs_iff (e : v.Exits v' i t bs) {r : Addr} :
    v'.st.addrs j = some r ↔ v.st.addrs j = some r ∧ j ≠ i := by
  rw [e.addrs]
  rcases eq_or_ne j i with rfl | hne
  · simp
  · simp [hne]

theorem hangs_iff (e : v.Exits v' i t bs) : v'.Hangs new b ↔ v.Hangs new b := by
  simp only [Hangs, e.waits, e.join]

/-- **The joiners of the thread are told.** Their blocks are marked, and no others. -/
theorem announced (e : v.Exits v' i t bs) (h : v.Inv) (hj : v.waits j = some (cur, new, id))
    (hb : v.st.join cur = some b) (hann : v.Announced new b id) : v'.Announced new b id := by
  rcases hann with ⟨hidn, hjb⟩ | ⟨hg, hl, hjb⟩
  · rcases eq_or_ne id i with rfl | hne
    · -- the thread that `j` waits for exits
      obtain rfl := Option.some.inj (hidn.symm.trans e.record)
      refine .inr ⟨(e.gone id).mpr (.inr rfl), ?_, ?_⟩
      · rw [e.threadLive, Function.update_self]
      · have hmem : b ∈ bs := (e.marked b).mpr ⟨j, cur, id, hj, hb⟩
        simp [e.joinable, hmem]
    · refine .inl ⟨e.addrs_iff.mpr ⟨hidn, hne⟩, ?_⟩
      have hmem : b ∉ bs := by
        intro hmem
        obtain rfl := h.new_eq_of_hangs ((e.marked b).mp hmem) ⟨j, cur, id, hj, hb⟩
        exact hne (h.record_inj hidn e.record)
      simp [e.joinable, hmem, hjb]
  · refine .inr ⟨(e.gone id).mpr (.inl hg), ?_, by simp [e.joinable, hjb]⟩
    rw [e.threadLive]
    rcases eq_or_ne new t with rfl | hne
    · exact Function.update_self ..
    · rwa [Function.update_of_ne hne]

/-- The lists stay, also that of the freed record: its joiners still have to leave it. -/
theorem list (e : v.Exits v' i t bs) (h : v.Inv)
    (hnew : (∃ j, v'.st.addrs j = some new) ∨ v'.Awaited new) :
    ∃ bs', Chained v'.st.joinNext (v'.st.joined new) bs' ∧ ∀ b, b ∈ bs' ↔ v'.Hangs new b := by
  have hold : (∃ j, v.st.addrs j = some new) ∨ v.Awaited new := by
    refine hnew.imp ?_ ?_
    · rintro ⟨j, hj⟩
      exact ⟨j, (e.addrs_iff.mp hj).1⟩
    · simp only [Awaited, e.waits]
      exact fun hw => hw
  obtain ⟨bs', hc, hbs'⟩ := h.list new hold
  rw [e.joinNext, e.joined]
  exact ⟨bs', hc, fun b => (hbs' b).trans e.hangs_iff.symm⟩

end Exits

namespace Inv

/-- What `thread_exit` does when the invariant holds: its walk marks the whole list. -/
theorem exits (h : v.Inv) {s : State} (hi : v.alive i) (ht : v.st.addrs i = some t)
    (hw : v.waits i = none)
    (hmark : v.st.markJoinable (v.st.blockNum + 1) (v.st.joined t).start = .ok s)
    (hst : KeepsJoins (s.removeThread t) v'.st) (halive : ∀ j, v'.alive j ↔ v.alive j ∧ j ≠ i)
    (hgone : ∀ j, v'.gone j ↔ v.gone j ∨ j = i) (hwaits : v'.waits = v.waits) :
    ∃ bs, v.Exits v' i t bs := by
  obtain ⟨bs, -, hbs, -, hok⟩ := h.walk ht
  obtain rfl := Except.ok.inj (hmark.symm.trans hok)
  have haddrs : v'.st.addrs = Function.update v.st.addrs i none := by
    rw [hst.addrs, ← (h.record i t ht).1]
    rfl
  have hblockLive : v'.st.blockLive = v.st.blockLive := by
    rw [hst.blockLive]
    simp only [State.removeThread, State.threadDestory, h.idle i t hi ht hw]
  exact ⟨bs, ht, hw, hbs, halive, hgone, hwaits, haddrs, hst.threadLive, hst.joinable, hst.tId,
    hst.newId, hst.join, hst.joined, hst.joinNext, hst.blockNum, hblockLive⟩

theorem exit (h : v.Inv) {bs : List Addr} (e : v.Exits v' i t bs) : v'.Inv := by
  refine ⟨fun j r hr => ?_, fun j hj => ?_, fun j hj => ?_, fun j cur new id hwj => ?_,
    fun j r hj hr hwj => ?_, fun new => e.list h, ?_, ?_⟩
  · obtain ⟨hr, hji⟩ := e.addrs_iff.mp hr
    have hrt : r ≠ t := by
      rintro rfl
      exact hji (h.record_inj hr e.record)
    rw [e.tId, e.threadLive, e.newId, Function.update_of_ne hrt]
    exact h.record j r hr
  · obtain ⟨hj, hji⟩ := (e.alive j).mp hj
    obtain ⟨r, hr⟩ := h.alive j hj
    exact ⟨r, e.addrs_iff.mpr ⟨hr, hji⟩⟩
  · rw [e.addrs, e.newId]
    rcases (e.gone j).mp hj with hj | rfl
    · obtain ⟨hnone, hjlt⟩ := h.gone j hj
      refine ⟨?_, hjlt⟩
      rcases eq_or_ne j i with rfl | hne
      · exact Function.update_self ..
      · rwa [Function.update_of_ne hne]
    · exact ⟨Function.update_self .., (h.record j t e.record).2.2⟩
  · rw [e.waits] at hwj
    obtain ⟨hj, hcur, b, hb, hbl, hann⟩ := h.waits j cur new id hwj
    have hji : j ≠ i := by
      rintro rfl
      cases e.outside.symm.trans hwj
    exact ⟨(e.alive j).mpr ⟨hj, hji⟩, e.addrs_iff.mpr ⟨hcur, hji⟩, b, e.join ▸ hb,
      e.blockLive ▸ hbl, e.announced h hwj hb hann⟩
  · rw [e.waits] at hwj
    rw [e.join]
    exact h.idle j r ((e.alive j).mp hj).1 (e.addrs_iff.mp hr).1 hwj
  · simpa only [e.waits, e.join] using h.own
  · simpa only [e.blockNum, e.blockLive] using h.blocks

end Inv

/-! ### `thread_join` up to its loop -/

namespace Enters

/-- The block is in no list, since it was not allocated, -/
theorem not_hangs (e : v.Enters v' i cur new b id) (h : v.Inv) {new' : Addr} :
    ¬ v.Hangs new' b := by
  intro hb
  cases e.fresh.symm.trans (h.live_of_hangs hb)

theorem waits_self (e : v.Enters v' i cur new b id) : v'.waits i = some (cur, new, id) := by
  rw [e.waits, Function.update_self]

theorem waits_of_ne (e : v.Enters v' i cur new b id) (hj : j ≠ i) : v'.waits j = v.waits j := by
  rw [e.waits, Function.update_of_ne hj]

/-- and the other threads keep the blocks they have. -/
theorem join_of_ne (e : v.Enters v' i cur new b id) (h : v.Inv) (hj : v.st.addrs j = some t)
    (hne : j ≠ i) : v'.st.join t = v.st.join t := by
  rw [e.join, Function.update_of_ne]
  rintro rfl
  exact hne (h.record_inj hj e.record)

/-- Whoever is inside `thread_join` with another block was so before, with the same block. -/
theorem waits_old (e : v.Enters v' i cur new b id) (h : v.Inv) {cur' new' b' : Addr} {id' : ℕ}
    (hj : v'.waits j = some (cur', new', id')) (hb : v'.st.join cur' = some b') (hne : b' ≠ b) :
    v.waits j = some (cur', new', id') ∧ v.st.join cur' = some b' := by
  have hji : j ≠ i := by
    rintro rfl
    rw [e.waits_self] at hj
    cases hj
    rw [e.join, Function.update_self] at hb
    exact hne (Option.some.inj hb).symm
  rw [e.waits_of_ne hji] at hj
  rw [e.join_of_ne h (h.waits _ _ _ _ hj).2.1 hji] at hb
  exact ⟨hj, hb⟩

/-- Whoever has the block is the caller: it hung in no list before. -/
theorem eq_of_join (e : v.Enters v' i cur new b id) (h : v.Inv) {cur' new' : Addr} {id' : ℕ}
    (hj : v'.waits j = some (cur', new', id')) (hb : v'.st.join cur' = some b) : j = i := by
  by_contra hji
  rw [e.waits_of_ne hji] at hj
  rw [e.join_of_ne h (h.waits _ _ _ _ hj).2.1 hji] at hb
  exact e.not_hangs h ⟨j, cur', id', hj, hb⟩

/-- One block more hangs in a list, at the record of the thread that is joined. -/
theorem hangs_iff (e : v.Enters v' i cur new b id) (h : v.Inv) {new' b' : Addr} :
    v'.Hangs new' b' ↔ v.Hangs new' b' ∨ new' = new ∧ b' = b := by
  constructor
  · rintro ⟨j, cur', id', hwj, hjb⟩
    by_cases hb : b' = b
    · subst hb
      obtain rfl := e.eq_of_join h hwj hjb
      rw [e.waits_self] at hwj
      cases hwj
      exact .inr ⟨rfl, rfl⟩
    · obtain ⟨hwj, hjb⟩ := e.waits_old h hwj hjb hb
      exact .inl ⟨j, cur', id', hwj, hjb⟩
  · rintro (⟨j, cur', id', hwj, hjb⟩ | ⟨rfl, rfl⟩)
    · have hj : j ≠ i := by
        rintro rfl
        cases e.outside.symm.trans hwj
      exact ⟨j, cur', id', (e.waits_of_ne hj).trans hwj,
        (e.join_of_ne h (h.waits _ _ _ _ hwj).2.1 hj).trans hjb⟩
    · exact ⟨i, cur, id, e.waits_self, by rw [e.join, Function.update_self]⟩

/-- The locals of those who are inside `thread_join` fit their blocks, also those of the new one. -/
theorem waits_inv (e : v.Enters v' i cur new b id) (h : v.Inv) {cur' new' : Addr} {id' : ℕ}
    (hj : v'.waits j = some (cur', new', id')) :
    v'.alive j ∧ v'.st.addrs j = some cur' ∧
      ∃ b', v'.st.join cur' = some b' ∧ v'.st.blockLive b' = true ∧ v'.Announced new' b' id' := by
  rcases eq_or_ne j i with rfl | hji
  · rw [e.waits_self] at hj
    cases hj
    refine ⟨e.alive ▸ e.caller, e.addrs ▸ e.record, b, ?_, ?_, .inl ⟨e.addrs ▸ e.target, ?_⟩⟩
    · rw [e.join, Function.update_self]
    · rw [e.blockLive, Function.update_self]
    · rw [e.joinable, Function.update_self]
  · rw [e.waits_of_ne hji] at hj
    obtain ⟨hja, hjc, b', hb', hbl, hann⟩ := h.waits j cur' new' id' hj
    have hbb : b' ≠ b := by
      rintro rfl
      cases e.fresh.symm.trans hbl
    refine ⟨e.alive ▸ hja, e.addrs ▸ hjc, b', (e.join_of_ne h hjc hji).trans hb', ?_, ?_⟩
    · rwa [e.blockLive, Function.update_of_ne hbb]
    · simpa only [Announced, e.addrs, e.gone, e.threadLive, e.joinable, Function.update_of_ne hbb]
        using hann

/-- The list of `new` has the block at its end, and the others are what they were. -/
theorem list (e : v.Enters v' i cur new b id) (h : v.Inv) {new' : Addr}
    (hnew : (∃ j, v'.st.addrs j = some new') ∨ v'.Awaited new') :
    ∃ bs, Chained v'.st.joinNext (v'.st.joined new') bs ∧ ∀ b', b' ∈ bs ↔ v'.Hangs new' b' := by
  obtain ⟨bs, hc, hbs⟩ := h.list new (.inl ⟨id, e.target⟩)
  rcases eq_or_ne new' new with rfl | hne
  · refine ⟨bs ++ [b], ?_, fun b' => ?_⟩
    · rw [e.joinNext, e.joined, Function.update_self]
      exact hc.append (fun hm => e.not_hangs h ((hbs b).mp hm))
        fun hnil => e.null (hc.queue.stop_eq_none.mpr hnil)
    · rw [e.hangs_iff h, List.mem_append, hbs, List.mem_singleton]
      simp
  · have hold : (∃ j, v.st.addrs j = some new') ∨ v.Awaited new' := by
      rcases hnew with ⟨j, hj⟩ | ⟨j, cur', id', hwj⟩
      · exact .inl ⟨j, e.addrs ▸ hj⟩
      · have hji : j ≠ i := by
          rintro rfl
          rw [e.waits_self] at hwj
          cases hwj
          exact hne rfl
        exact .inr ⟨j, cur', id', (e.waits_of_ne hji).symm.trans hwj⟩
    obtain ⟨bs', hc', hbs'⟩ := h.list new' hold
    refine ⟨bs', ?_, fun b' => ?_⟩
    · rw [e.joinNext, e.joined, Function.update_of_ne hne]
      -- the list that grows has no block of this one
      refine hc'.congr fun a ha => hc.queue.append_next_of_notMem (fun hm => ?_) ?_
      · exact hne (h.new_eq_of_hangs ((hbs' a).mp ha) ((hbs a).mp hm))
      · rintro rfl
        exact e.not_hangs h ((hbs' a).mp ha)
    · rw [e.hangs_iff h, hbs']
      simp [hne]

end Enters

namespace Inv

theorem enter (h : v.Inv) (e : v.Enters v' i cur new b id) : v'.Inv := by
  refine ⟨?_, ?_, ?_, fun j cur' new' id' => e.waits_inv h, fun j r hj hr hwj => ?_,
    fun new' => e.list h, fun j k cur₁ new₁ id₁ cur₂ new₂ id₂ b' hj hk hbj hbk => ?_, ?_⟩
  · rw [e.addrs, e.tId, e.threadLive, e.newId]
    exact h.record
  · rw [e.addrs, e.alive]
    exact h.alive
  · rw [e.addrs, e.gone, e.newId]
    exact h.gone
  · have hji : j ≠ i := by
      rintro rfl
      cases e.waits_self.symm.trans hwj
    rw [e.addrs] at hr
    rw [e.waits_of_ne hji] at hwj
    rw [e.join_of_ne h hr hji]
    exact h.idle j r (e.alive ▸ hj) hr hwj
  · by_cases hbb : b' = b
    · subst hbb
      exact (e.eq_of_join h hj hbj).trans (e.eq_of_join h hk hbk).symm
    · obtain ⟨hj, hbj⟩ := e.waits_old h hj hbj hbb
      obtain ⟨hk, hbk⟩ := e.waits_old h hk hbk hbb
      exact h.own j k _ _ _ _ _ _ b' hj hk hbj hbk
  · obtain ⟨bl, hlen, hmem⟩ := h.blocks
    refine ⟨b :: bl, ?_, fun b' hb' => ?_⟩
    · rw [e.blockNum, List.length_cons]
      omega
    · rw [e.blockLive] at hb'
      rcases eq_or_ne b' b with rfl | hne
      · exact List.mem_cons_self
      · rw [Function.update_of_ne hne] at hb'
        exact List.mem_cons_of_mem _ (hmem b' hb')

/-! ### The end of `thread_join` -/

/-- **`delete_join_block` succeeds**: the list has the block, so the search ends at it, and the
block in front of it is allocated. -/
theorem deleteJoinBlock_ok (h : v.Inv) (hw : v.waits i = some (cur, new, id))
    (hb : v.st.join cur = some b) :
    ∃ ys zs n' q', Chained v.st.joinNext (v.st.joined new) (ys ++ b :: zs) ∧
      (∀ a, a ∈ ys ++ b :: zs ↔ v.Hangs new a) ∧ Chained n' q' (ys ++ zs) ∧
      (∀ a, a ∉ ys ++ b :: zs → n' a = v.st.joinNext a) ∧
      v.st.deleteJoinBlock b new =
        .ok { v.st with joinNext := n', joined := Function.update v.st.joined new q' } := by
  obtain ⟨bs, hc, hbs⟩ := h.list new (.inr ⟨i, cur, id, hw⟩)
  obtain ⟨ys, zs, rfl⟩ := List.append_of_mem ((hbs b).mpr ⟨i, cur, id, hw, hb⟩)
  obtain ⟨n', q', hu, hc', hn⟩ := hc.unlink
  refine ⟨ys, zs, n', q', hc, hbs, hc', hn, ?_⟩
  have hlen := h.length_le hc.queue.nodup hbs
  have hbys : ∀ a ∈ ys, (a == b) = false := by
    intro a ha
    have hnd := (List.nodup_append.mp hc.queue.nodup).2.2 a ha b List.mem_cons_self
    simpa using hnd
  have hfind := hc.queue.find (n := v.st.blockNum + 1) (by simp) hbys
    (by simp only [List.length_append, List.length_cons] at hlen; omega)
  have hstart : (v.st.joined new).start ≠ none := by
    rw [Ne, hc.queue.start_eq_none]
    simp
  have hstop : (v.st.joined new).stop ≠ none := by
    rw [Ne, hc.queue.stop_eq_none]
    simp
  obtain ⟨a, ha⟩ := Option.ne_none_iff_exists'.mp hstart
  obtain ⟨e, he⟩ := Option.ne_none_iff_exists'.mp hstop
  have hpre : v.st.checkBlock ys.getLast? = .ok () := by
    cases hl : ys.getLast? with
    | none => rfl
    | some y =>
      have hy : y ∈ ys ++ b :: zs := List.mem_append_left _ (List.mem_of_getLast? hl)
      exact if_pos (h.live_of_hangs ((hbs y).mp hy))
  rw [ha] at hfind
  simp only [State.deleteJoinBlock, ha, he, deref, hfind, hpre, hu]
  rfl

end Inv

/-- **Thread `i` leaves `thread_join`**: its block `b` has been taken out of the list of `new`,
whose pointers are `n` and whose ends are `q` now, and its record has no block any more. -/
structure Departs (v v' : JoinView) (i : ℕ) (cur new b : Addr) (id : ℕ) (n : Addr → Ptr)
    (q : Ends Addr) : Prop where
  inside : v.waits i = some (cur, new, id)
  block : v.st.join cur = some b
  alive : v'.alive = v.alive
  gone : v'.gone = v.gone
  waits : v'.waits = Function.update v.waits i none
  st : v'.st = { v.st with
    joinNext := n, joined := Function.update v.st.joined new q,
    join := Function.update v.st.join cur none }

namespace Departs

variable {n : Addr → Ptr} {q : Ends Addr}

theorem waits_of_ne (e : v.Departs v' i cur new b id n q) (hj : j ≠ i) :
    v'.waits j = v.waits j := by
  rw [e.waits, Function.update_of_ne hj]

/-- Whoever is inside afterwards was so before, and is another thread. -/
theorem waits_old (e : v.Departs v' i cur new b id n q) {x : Addr × Addr × ℕ}
    (hj : v'.waits j = some x) : j ≠ i ∧ v.waits j = some x := by
  have hji : j ≠ i := by
    rintro rfl
    rw [e.waits, Function.update_self] at hj
    cases hj
  exact ⟨hji, (e.waits_of_ne hji).symm.trans hj⟩

/-- The others keep their blocks, since they have other records. -/
theorem join_of_ne (e : v.Departs v' i cur new b id n q) (h : v.Inv) {r : Addr}
    (hr : v.st.addrs j = some r) (hj : j ≠ i) : v'.st.join r = v.st.join r := by
  rw [e.st]
  refine Function.update_of_ne ?_ ..
  rintro rfl
  exact hj (h.record_inj hr (h.waits _ _ _ _ e.inside).2.1)

/-- One block less hangs in a list, and all others hang where they did. -/
theorem hangs_iff (e : v.Departs v' i cur new b id n q) (h : v.Inv) {new' b' : Addr} :
    v'.Hangs new' b' ↔ v.Hangs new' b' ∧ b' ≠ b := by
  constructor
  · rintro ⟨j, cur', id', hj, hjb⟩
    obtain ⟨hji, hj⟩ := e.waits_old hj
    rw [e.join_of_ne h (h.waits _ _ _ _ hj).2.1 hji] at hjb
    refine ⟨⟨j, cur', id', hj, hjb⟩, ?_⟩
    rintro rfl
    exact hji (h.own j i _ _ _ _ _ _ b' hj e.inside hjb e.block)
  · rintro ⟨⟨j, cur', id', hj, hjb⟩, hbb⟩
    have hji : j ≠ i := by
      rintro rfl
      rw [e.inside] at hj
      cases hj
      exact hbb (Option.some.inj (hjb.symm.trans e.block))
    exact ⟨j, cur', id', (e.waits_of_ne hji).trans hj,
      (e.join_of_ne h (h.waits _ _ _ _ hj).2.1 hji).trans hjb⟩

/-- The list of `new` is without the block, and the others are what they were. -/
theorem list (e : v.Departs v' i cur new b id n q) (h : v.Inv) {ys zs : List Addr}
    (hc : Chained v.st.joinNext (v.st.joined new) (ys ++ b :: zs))
    (hbs : ∀ a, a ∈ ys ++ b :: zs ↔ v.Hangs new a) (hc' : Chained n q (ys ++ zs))
    (hn : ∀ a, a ∉ ys ++ b :: zs → n a = v.st.joinNext a) {new' : Addr}
    (hnew : (∃ j, v'.st.addrs j = some new') ∨ v'.Awaited new') :
    ∃ bs, Chained v'.st.joinNext (v'.st.joined new') bs ∧ ∀ b', b' ∈ bs ↔ v'.Hangs new' b' := by
  have hst := e.st
  rcases eq_or_ne new' new with rfl | hne
  · refine ⟨ys ++ zs, ?_, fun b' => ?_⟩
    · rw [hst]
      simpa using hc'
    · have hb : b ∉ ys ++ zs := (List.nodup_cons.mp (List.nodup_middle.mp hc.queue.nodup)).1
      have hmem : b' ∈ ys ++ b :: zs ↔ b' = b ∨ b' ∈ ys ++ zs := by
        simp only [List.mem_append, List.mem_cons]
        tauto
      rw [e.hangs_iff h, ← hbs, hmem]
      constructor
      · intro hm
        exact ⟨.inr hm, fun he => hb (he ▸ hm)⟩
      · rintro ⟨hm, hbb⟩
        exact hm.resolve_left hbb
  · have hold : (∃ j, v.st.addrs j = some new') ∨ v.Awaited new' := by
      refine hnew.imp ?_ ?_
      · rintro ⟨j, hj⟩
        rw [hst] at hj
        exact ⟨j, hj⟩
      · rintro ⟨j, cur', id', hj⟩
        exact ⟨j, cur', id', (e.waits_old hj).2⟩
    obtain ⟨bs', hc₂, hbs'⟩ := h.list new' hold
    -- the lists of two records have no block in common
    have hdisj : ∀ a ∈ bs', a ∉ ys ++ b :: zs := fun a ha hm =>
      hne (h.new_eq_of_hangs ((hbs' a).mp ha) ((hbs a).mp hm))
    refine ⟨bs', ?_, fun b' => ?_⟩
    · rw [hst]
      simp only [Function.update_of_ne hne]
      exact hc₂.congr fun a ha => hn a (hdisj a ha)
    · rw [e.hangs_iff h, hbs']
      refine ⟨fun hb' => ⟨hb', ?_⟩, And.left⟩
      rintro rfl
      exact hne (h.new_eq_of_hangs hb' ⟨i, cur, id, e.inside, e.block⟩)

end Departs

namespace Inv

/-- `thread_join` behind its loop: the block is taken out and forgotten, and the thread goes on. -/
theorem leave (h : v.Inv) {s : State} (hw : v.waits i = some (cur, new, id))
    (hb : v.st.join cur = some b) (hs : v.st.deleteJoinBlock b new = .ok s)
    (hst : v'.st = { s with join := Function.update s.join cur none })
    (halive : v'.alive = v.alive) (hgone : v'.gone = v.gone)
    (hwaits : v'.waits = Function.update v.waits i none) : v'.Inv := by
  obtain ⟨ys, zs, n', q', hc, hbs, hc', hn, hok⟩ := h.deleteJoinBlock_ok hw hb
  obtain rfl := Except.ok.inj (hs.symm.trans hok)
  have e : v.Departs v' i cur new b id n' q' := ⟨hw, hb, halive, hgone, hwaits, hst⟩
  refine ⟨?_, ?_, ?_, fun j cur' new' id' hj => ?_, fun j r hj hr hwj => ?_,
    fun new' => e.list h hc hbs hc' hn,
    fun j k cur₁ new₁ id₁ cur₂ new₂ id₂ b' hj hk hbj hbk => ?_, ?_⟩
  · rw [hst]
    exact h.record
  · rw [hst, halive]
    exact h.alive
  · rw [hst, hgone]
    exact h.gone
  · obtain ⟨hji, hj⟩ := e.waits_old hj
    obtain ⟨hja, hjc, b', hb', hbl, hann⟩ := h.waits j cur' new' id' hj
    refine ⟨halive ▸ hja, hst ▸ hjc, b', (e.join_of_ne h hjc hji).trans hb', hst ▸ hbl, ?_⟩
    simpa only [Announced, hst, hgone] using hann
  · have hr' : v.st.addrs j = some r := by
      rw [hst] at hr
      exact hr
    rcases eq_or_ne j i with rfl | hji
    · obtain rfl := Option.some.inj ((h.waits _ _ _ _ hw).2.1.symm.trans hr')
      rw [hst]
      exact Function.update_self ..
    · rw [e.waits_of_ne hji] at hwj
      rw [e.join_of_ne h hr' hji]
      exact h.idle j r (halive ▸ hj) hr' hwj
  · obtain ⟨hji, hj⟩ := e.waits_old hj
    obtain ⟨hki, hk⟩ := e.waits_old hk
    rw [e.join_of_ne h (h.waits _ _ _ _ hj).2.1 hji] at hbj
    rw [e.join_of_ne h (h.waits _ _ _ _ hk).2.1 hki] at hbk
    exact h.own j k _ _ _ _ _ _ b' hj hk hbj hbk
  · rw [hst]
    exact h.blocks

/-- **Every step of the joins keeps the invariant.** -/
theorem next (h : v.Inv) (hs : JoinStep v v') : v'.Inv := by
  cases hs with
  | quiet halive hgone hwaits hst => exact h.quiet halive hgone hwaits hst
  | rewrite hlive hspare hgone hwaits hst hkeep hnew =>
    exact h.rewrite hlive hspare hgone hwaits hst hkeep hnew
  | exit hi ht hw hmark hst halive hgone hwaits =>
    obtain ⟨bs, he⟩ := h.exits hi ht hw hmark hst halive hgone hwaits
    exact h.exit he
  | enter he => exact h.enter he
  | leave hw hb hs hst halive hgone hwaits => exact h.leave hw hb hs hst halive hgone hwaits

end Inv

end JoinView

end GreenLib
