import GreenLib.FastWaiting

/-!
# The wait list of the `GREEN_SLOW` build

With `GREEN_SLOW` the primitives have no queues of their own. All waiting threads are in one list
from `t_waiting_start` to `t_waiting_end`, in the order in which they began to wait. An entry is a
`thread_waiter_t` that names the link of the thread and the primitive; `extract_waiting` walks the
list to the first entry with the primitive.

Here this build runs side by side with the shipped one (`SlowBuilds`). The one list is the plain
statement of what the queues are for: the queue of a primitive must be the part of the list that
belongs to it. The builds agree (`slow_builds_agree`)
as long as `malloc` gives an entry to each wait and the walk comes to an end (`KeepsList`):

* without an entry `running_to_waiting` returns, and the thread has the status `waiting` but is in
  no list;
* `running_to_waiting` does not initialise the `next` of its new entry and `append_waiting` does not
  write it if the list is empty, so a walk for a primitive without waiters follows a wild pointer if
  exactly one thread waits.
-/

namespace GreenLib

/-! ## The walk of a list without the key -/

/-- In a list that ends in the null pointer the walk for a missing key comes to the end, where it
reports that there is none. -/
theorem IsQueue.find_none {α : Type} {next : α → Option α} {key : α → Bool} {q : Ends α}
    {xs : List α} (h : IsQueue next q xs) (hlast : ∀ e ∈ xs.getLast?, next e = none)
    (hkey : ∀ x ∈ xs, key x = false) {n : ℕ} (hn : xs.length ≤ n) (pre : Option α) :
    Ends.find next key n pre q.start = some none := by
  induction xs generalizing q n pre with
  | nil => rw [h.start, List.head?_nil, Ends.find.eq_def]
  | cons x xs ih =>
    obtain ⟨n, rfl⟩ : ∃ m, n = m + 1 := ⟨n - 1, by simp at hn; omega⟩
    rw [h.start, List.head?_cons, Ends.find, hkey x (by simp), if_neg (by simp)]
    have hkey' : ∀ y ∈ xs, key y = false := fun y hy => hkey y (List.mem_cons_of_mem _ hy)
    by_cases hxs : xs = []
    · -- the last entry: its pointer is null
      have hx : next x = none := hlast x (by simp [hxs])
      rw [hx, Ends.find.eq_def]
    · refine ih (h.tail hxs) (fun e he => hlast e ?_) hkey' (by simpa using hn) (some x)
      rwa [List.getLast?_cons_of_ne_nil hxs]

/-- The first entry with a key, with what stands before and behind it. -/
theorem exists_first {α : Type} {key : α → Bool} {xs : List α} (h : ∃ x ∈ xs, key x = true) :
    ∃ ys x zs, xs = ys ++ x :: zs ∧ key x = true ∧ ∀ y ∈ ys, key y = false := by
  induction xs with
  | nil => simp at h
  | cons y xs ih =>
    by_cases hy : key y = true
    · exact ⟨[], y, xs, rfl, hy, by simp⟩
    · obtain ⟨x, hx, hk⟩ := h
      have hx : x ∈ xs := by
        rcases List.mem_cons.mp hx with rfl | hx
        · exact absurd hk hy
        · exact hx
      obtain ⟨ys, x, zs, rfl, hk, hys⟩ := ih ⟨x, hx, hk⟩
      exact ⟨y :: ys, x, zs, rfl, hk, by simpa [hy] using hys⟩

/-! ## `thread_lib.c` with `GREEN_SLOW` -/

/-- The memory of the `GREEN_SLOW` build. The queues of the primitives in `st` are not used. -/
structure SlowPool : Type where
  st : State
  /-- `thread_waiter_t`: `linker` -/
  linker : Addr → Ptr
  /-- `thread_waiter_t`: `lock` -/
  lock : Addr → Addr
  /-- `thread_waiter_t`: `next` -/
  next : Addr → Ptr
  /-- the entries that `malloc` has returned; none is freed -/
  waiterLive : Addr → Bool
  /-- how many there are -/
  waiterNum : ℕ
  tWaiting : Ends Addr

namespace SlowPool

/-- `append_waiting`: put the entry at the end of the list. Its own `next` is written only if the
list is not empty. -/
def appendWaiting (f : SlowPool) (waiter : Addr) : SlowPool :=
  { f with
    next := (f.tWaiting.append f.next waiter).1
    tWaiting := (f.tWaiting.append f.next waiter).2 }

/-- `running_to_waiting`, where `waiter` is what `malloc` returned. If it is the null pointer, the
function prints an error and returns; the status is set before. -/
def runningToWaiting (f : SlowPool) (t prim : Addr) (waiter : Ptr) : SlowPool :=
  let f := { f with st := f.st.setStatus t .waiting }
  match waiter with
  | none => f
  | some waiter =>
    let f := { f with
      waiterLive := Function.update f.waiterLive waiter true
      waiterNum := f.waiterNum + 1
      linker := Function.update f.linker waiter f.st.tRunning
      lock := Function.update f.lock waiter prim }
    let f := f.appendWaiting waiter
    { f with st := { f.st with waitingNum := f.st.waitingNum + 1 } }

/-- `extract_waiting`: walk to the first entry with the primitive, take it out and return its link.
Entries are not freed. -/
def extractWaiting (f : SlowPool) (prim : Addr) : Except Fault (SlowPool × Ptr) :=
  if f.tWaiting.start = none ∧ f.tWaiting.stop = none then .ok (f, none)
  else
    match Ends.find f.next (fun w => f.lock w == prim) (f.waiterNum + 1) none f.tWaiting.start with
    | none => .error .hang
    | some none => .ok (f, none)
    | some (some (pre, cur)) =>
      match f.tWaiting.unlink f.next pre cur with
      | none => .error .null
      | some (next, q) => .ok ({ f with next := next, tWaiting := q }, f.linker cur)

end SlowPool

/-! ## Both builds side by side -/

/-- One call of both builds. Running is a call of its own here, since the slow build reads the link
of the waiter from `t_running`. -/
inductive SlowCall : Type where
  /-- `sync_prim_initial` on a block that `malloc` returned -/
  | create (prim : Addr) (k : PrimKind)
  /-- the scheduler gives the processor to the thread with the link `linker` -/
  | run (linker : Addr)
  /-- the running thread waits; `waiter` is the answer of `malloc` to the slow build -/
  | wait (prim : Addr) (waiter : Ptr)
  /-- the first waiter is extracted and runs -/
  | wakeup (prim : Addr)

/-- The memory of the two builds after the same calls, and the waiting links with their primitives
in the order of their waits. -/
structure SlowBuilds : Type where
  slow : SlowPool
  very : State
  sleeping : List (Addr × Addr)

namespace SlowBuilds

/-- Make one call in both builds. A thread that waits does not run, so it cannot wait a second
time. -/
def step (x : SlowBuilds) : SlowCall → Except Fault SlowBuilds
  | .create p k =>
    if x.very.kind p = none then do
      let f ← x.slow.st.syncPrimInitial p k
      let v ← x.very.syncPrimInitial p k
      .ok { x with slow := { x.slow with st := f }, very := v }
    else .error .disabled
  | .run l =>
    if l ∉ x.sleeping.map Prod.snd then
      .ok { x with
        slow := { x.slow with st := { x.slow.st with tRunning := some l } }
        very := { x.very with tRunning := some l } }
    else .error .disabled
  | .wait p w => do
    -- `cur = pool->t_running->t` in one build, `cur = pool->t_running` in the other
    let cur ← deref .null x.slow.st.tRunning
    let l ← deref .null x.very.tRunning
    if x.very.kind p ≠ none ∧ l ∉ x.sleeping.map Prod.snd ∧
        ∀ e ∈ w, x.slow.waiterLive e = false then
      .ok {
        slow := x.slow.runningToWaiting (x.slow.st.thread cur) p w
        very := x.very.runningToLockWaiting l p
        sleeping := x.sleeping ++ [(p, l)] }
    else .error .disabled
  | .wakeup p =>
    if x.very.kind p = none then .error .disabled
    else do
      let (f, r) ← x.slow.extractWaiting p
      let fs ← f.st.runWoken r
      let (v, r') ← x.very.extractFirstWaiting p
      let vs ← v.runWoken r'
      .ok {
        slow := { f with st := fs }
        very := vs
        sleeping := x.sleeping.eraseP fun y => y.1 == p }

end SlowBuilds

/-- The common runs of the two builds, from a fresh pool. The contents of the memory for the
entries are arbitrary. -/
def slowRuns : Lts SlowBuilds SlowCall where
  init x := ∃ mem t link, Blank mem ∧ x.slow.st = mem.threadInitial t link ∧
    x.very = mem.threadInitial t link ∧ x.slow.tWaiting = ⟨none, none⟩ ∧ x.slow.waiterNum = 0 ∧
    (∀ w, x.slow.waiterLive w = false) ∧ x.sleeping = []
  step x c x' := x.step c = .ok x'

/-- The list of the slow build stays that of all sleepers and its walk ends: `malloc` gives an entry
to each wait, and a primitive is woken only if a thread waits on it or if the number of all waiting
threads is not one. -/
def KeepsList (x : SlowBuilds) : SlowCall → Prop
  | .wait _ w => w ≠ none
  | .wakeup p => waitersOn x.sleeping p ≠ [] ∨ x.sleeping.length ≠ 1
  | .create .. | .run _ => True

instance (x : SlowBuilds) (c : SlowCall) : Decidable (KeepsList x c) :=
  match c with
  | .wait _ w => inferInstanceAs (Decidable (w ≠ none))
  | .wakeup p => inferInstanceAs
      (Decidable (waitersOn x.sleeping p ≠ [] ∨ x.sleeping.length ≠ 1))
  | .create .. | .run _ => isTrue trivial

/-! ## What the two memories share -/

/-- The memory `s` with other queues of waiting threads. The slow build leaves the queues as they
were, so they are the only difference. -/
def State.requeue (s : State) (next : Addr → Ptr) (waiting : Addr → Ends Addr) : State :=
  { s with next := next, waiting := waiting }

namespace State

variable {s s' : State} {p : Addr} {k : PrimKind} (next : Addr → Ptr) (waiting : Addr → Ends Addr)

theorem syncPrimInitial_requeue (he : s.syncPrimInitial p k = .ok s') :
    (s.requeue next waiting).syncPrimInitial p k =
      .ok (s'.requeue next (Function.update waiting p ⟨none, none⟩)) := by
  unfold requeue
  simp only [syncPrimInitial] at he ⊢
  split at he
  · rename_i hstart
    obtain rfl := Except.ok.inj he
    rw [if_pos hstart]
  · rename_i hstart
    obtain ⟨e, hstop, he⟩ := bind_eq_ok he
    obtain rfl := Except.ok.inj he
    rw [if_neg hstart, hstop]
    rfl

theorem runWoken_requeue {r : Ptr} (he : s.runWoken r = .ok s') :
    (s.requeue next waiting).runWoken r = .ok (s'.requeue next waiting) := by
  cases r with
  | none =>
    obtain rfl := Except.ok.inj he
    rfl
  | some l =>
    obtain ⟨_, hpos, he⟩ := bind_eq_ok he
    obtain rfl := Except.ok.inj he
    have hpos : 0 < s.waitingNum := by simpa using check_eq_ok hpos
    have hpos : 0 < (s.requeue next waiting).waitingNum := hpos
    simp only [State.runWoken, State.waitingToRunning, hpos, decide_true]
    rfl

end State

/-! ## The list of the slow build -/

/-- The list of `f` has the entries `sleeping`; only a list of one entry may end in a wild
pointer. -/
structure ListsAll (f : SlowPool) (sleeping : List (Addr × Addr)) (ws : List Addr) : Prop where
  list : IsQueue f.next f.tWaiting ws
  entries : ws.map (fun w => (f.lock w, f.linker w)) = sleeping.map fun y => (y.1, some y.2)
  live : ∀ w ∈ ws, f.waiterLive w = true
  short : ws.length ≤ f.waiterNum
  last : 2 ≤ ws.length → ∀ e ∈ ws.getLast?, f.next e = none

namespace ListsAll

variable {f : SlowPool} {sleeping : List (Addr × Addr)} {ws : List Addr} {p l t w : Addr}

theorem length (h : ListsAll f sleeping ws) : ws.length = sleeping.length := by
  simpa using congrArg List.length h.entries

/-- A new entry goes to the end. Behind another entry its `next` is null, alone it may be
anything. -/
theorem wait (h : ListsAll f sleeping ws) (hl : f.st.tRunning = some l)
    (hw : f.waiterLive w = false) :
    ListsAll (f.runningToWaiting t p (some w)) (sleeping ++ [(p, l)]) (ws ++ [w]) := by
  have hnew : w ∉ ws := by
    intro hm
    rw [h.live w hm] at hw
    cases hw
  have hne : ∀ v ∈ ws, v ≠ w := by
    rintro v hv rfl
    exact hnew hv
  refine ⟨h.list.append hnew, ?_, ?_, ?_, ?_⟩
  · rw [List.map_append, List.map_append, ← h.entries]
    congr 1
    · refine List.map_congr_left fun v hv => ?_
      change (Function.update f.lock w p v, Function.update f.linker w f.st.tRunning v) = _
      rw [Function.update_of_ne (hne v hv), Function.update_of_ne (hne v hv)]
    · change [(Function.update f.lock w p w, Function.update f.linker w f.st.tRunning w)] = _
      rw [Function.update_self, Function.update_self, hl]
      rfl
  · intro v hv
    change Function.update f.waiterLive w true v = true
    rcases List.mem_append.mp hv with hv | hv
    · rw [Function.update_of_ne (hne v hv)]
      exact h.live v hv
    · rw [List.mem_singleton.mp hv, Function.update_self]
  · change _ ≤ f.waiterNum + 1
    simpa using h.short
  · intro hlen e he
    -- behind another entry `append_waiting` has written the null pointer
    obtain rfl : w = e := by simpa using he
    rcases hstop : f.tWaiting.stop with _ | v
    · rw [h.list.stop_eq_none.mp hstop] at hlen
      simp at hlen
    · change (f.tWaiting.append f.next w).1 w = none
      simp [Ends.append, hstop]

/-- The entries of the primitive `p` are its waiters, in the same order. -/
theorem waiters_eq (h : ListsAll f sleeping ws) (p : Addr) :
    (ws.filter fun w => f.lock w == p).map f.linker = (waitersOn sleeping p).map some := by
  have he := congrArg (fun ys => (ys.filter fun y => y.1 == p).map Prod.snd) h.entries
  simpa [waitersOn, List.filter_map, Function.comp_def] using he

/-- The first entry of `p` in the list is that of its first waiter. -/
theorem linker_eq {ys zs : List Addr} (h : ListsAll f sleeping (ys ++ w :: zs))
    (hkey : (f.lock w == p) = true) (hys : ∀ v ∈ ys, (f.lock v == p) = false) :
    f.linker w = (waitersOn sleeping p).head? := by
  have hwaiters := h.waiters_eq p
  have hno : ys.filter (fun w => f.lock w == p) = [] := by
    simpa using hys
  rw [List.filter_append, hno, List.nil_append,
    List.filter_cons_of_pos (p := fun w => f.lock w == p) hkey] at hwaiters
  rcases hon : waitersOn sleeping p with _ | ⟨l, rest⟩
  · simp [hon] at hwaiters
  · rw [hon] at hwaiters
    exact (List.cons.inj hwaiters).1

/-- The first entry of `p` is taken out, and the others are those of the other sleepers. -/
theorem unlink {ys zs : List Addr} (h : ListsAll f sleeping (ys ++ w :: zs))
    (hkey : (f.lock w == p) = true) (hys : ∀ v ∈ ys, (f.lock v == p) = false) : ∃ n q,
    f.tWaiting.unlink f.next ys.getLast? w = some (n, q) ∧
      ListsAll { f with next := n, tWaiting := q } (sleeping.eraseP fun y => y.1 == p)
        (ys ++ zs) := by
  obtain ⟨n, q, hun, hq, -⟩ := h.list.unlink
  have herase : (ys ++ zs).map (fun w => (f.lock w, f.linker w)) =
      (sleeping.eraseP fun y => y.1 == p).map fun y => (y.1, some y.2) := by
    have he := congrArg (List.eraseP fun y : Addr × Ptr => y.1 == p) h.entries
    rw [List.eraseP_map, List.eraseP_map, List.eraseP_append_right _ (by simpa using hys),
      List.eraseP_cons_of_pos (by simpa using hkey)] at he
    exact he
  have hshort := h.short
  rw [List.length_append, List.length_cons] at hshort
  refine ⟨n, q, hun, hq, herase, ?_, ?_, ?_⟩
  · intro v hv
    refine h.live v ?_
    rcases List.mem_append.mp hv with hv | hv <;> simp [hv]
  · rw [List.length_append]
    change _ ≤ f.waiterNum
    omega
  · intro htwo
    rw [List.length_append] at htwo
    refine (h.list.unlink_last (h.last ?_) hun).2
    rw [List.length_append, List.length_cons]
    omega

/-- The walk for a primitive without waiters ends at the null pointer of the last entry, if there
are at least two. -/
theorem find_none (h : ListsAll f sleeping ws) (htwo : 2 ≤ ws.length)
    (hnone : waitersOn sleeping p = []) :
    Ends.find f.next (fun w => f.lock w == p) (f.waiterNum + 1) none f.tWaiting.start =
      some none := by
  have hwaiters := h.waiters_eq p
  rw [hnone, List.map_nil, List.map_eq_nil_iff, List.filter_eq_nil_iff] at hwaiters
  exact h.list.find_none (h.last htwo) (fun w hw => Bool.eq_false_iff.mpr (hwaiters w hw))
    (Nat.le_succ_of_le h.short) none

/-- What the walk finds: the first of the waiters, or none. The condition makes sure that a walk for
none ends. -/
theorem extract (h : ListsAll f sleeping ws)
    (hp : waitersOn sleeping p ≠ [] ∨ sleeping.length ≠ 1) : ∃ n q ws',
    f.extractWaiting p = .ok ({ f with next := n, tWaiting := q }, (waitersOn sleeping p).head?) ∧
      ListsAll { f with next := n, tWaiting := q } (sleeping.eraseP fun y => y.1 == p) ws' := by
  by_cases hnil : ws = []
  · -- nobody waits
    have hsleep : sleeping = [] := by simpa [hnil] using h.length.symm
    have hends : f.tWaiting = ⟨none, none⟩ := by
      have hlist := h.list
      rw [hnil] at hlist
      exact hlist.eq_nil
    refine ⟨f.next, f.tWaiting, ws, ?_, by simpa [hsleep] using h⟩
    rw [SlowPool.extractWaiting, hends, if_pos ⟨rfl, rfl⟩, hsleep, ← hends]
    rfl
  have hstart : f.tWaiting.start ≠ none := fun hn => hnil (h.list.start_eq_none.mp hn)
  rw [SlowPool.extractWaiting, if_neg fun hb => hstart hb.1]
  by_cases hfound : ∃ w ∈ ws, (f.lock w == p) = true
  · obtain ⟨ys, w, zs, rfl, hkey, hys⟩ := exists_first hfound
    have hlen : ys.length < f.waiterNum + 1 := by
      have hshort := h.short
      rw [List.length_append, List.length_cons] at hshort
      omega
    obtain ⟨n, q, hun, hlists⟩ := h.unlink hkey hys
    refine ⟨n, q, ys ++ zs, ?_, hlists⟩
    rw [h.list.find hkey hys hlen]
    simp only [hun, h.linker_eq hkey hys]
  · have hnone : waitersOn sleeping p = [] := by
      have hwaiters := h.waiters_eq p
      rw [List.filter_eq_nil_iff.mpr fun w hw hkey => hfound ⟨w, hw, hkey⟩] at hwaiters
      simpa using hwaiters.symm
    have htwo : 2 ≤ ws.length := by
      have hone : ws.length ≠ 1 := h.length ▸ hp.resolve_left fun hne => hne hnone
      have hpos := List.length_pos_iff.mpr hnil
      omega
    have hsame : sleeping.eraseP (fun y => y.1 == p) = sleeping := by
      refine List.eraseP_of_forall_not fun y hy hyp => ?_
      have hm : y.2 ∈ waitersOn sleeping p := mem_waitersOn.mpr (by simpa [← beq_iff_eq.mp hyp])
      rw [hnone] at hm
      cases hm
    rw [h.find_none htwo hnone, hnone, hsame]
    exact ⟨f.next, f.tWaiting, ws, rfl, h⟩

end ListsAll

/-! ## Agreement -/

/-- The invariant of the common runs: both builds describe the same list of sleepers. -/
structure SlowInv (x : SlowBuilds) : Prop where
  same : x.slow.st = x.very.requeue x.slow.st.next x.slow.st.waiting
  queues : QueuesOf x.very x.sleeping
  list : ∃ ws, ListsAll x.slow x.sleeping ws

namespace SlowInv

variable {x x' : SlowBuilds} {p l : Addr} {w : Ptr} {k : PrimKind}

theorem create (h : SlowInv x) (he : x.step (.create p k) = .ok x') : SlowInv x' := by
  obtain ⟨ws, hlist⟩ := h.list
  rw [SlowBuilds.step] at he
  split at he
  · rename_i hk
    obtain ⟨f, hf, he⟩ := bind_eq_ok he
    obtain ⟨v, hv, he⟩ := bind_eq_ok he
    obtain rfl := Except.ok.inj he
    have hslow := State.syncPrimInitial_requeue x.slow.st.next x.slow.st.waiting hv
    rw [← h.same] at hslow
    obtain rfl := Except.ok.inj (hslow.symm.trans hf)
    refine ⟨rfl, h.queues.create hk hv, ws, hlist.list, hlist.entries, hlist.live,
      hlist.short, hlist.last⟩
  · cases he

theorem run (h : SlowInv x) (he : x.step (.run l) = .ok x') : SlowInv x' := by
  obtain ⟨ws, hlist⟩ := h.list
  rw [SlowBuilds.step] at he
  split at he
  · obtain rfl := Except.ok.inj he
    refine ⟨?_, ⟨h.queues.queues, h.queues.distinct, h.queues.known, h.queues.waitingNum⟩,
      ws, hlist.list, hlist.entries, hlist.live, hlist.short, hlist.last⟩
    change ({ x.slow.st with tRunning := some l } : State) = _
    rw [h.same]
    rfl
  · cases he

theorem wait (h : SlowInv x) (hok : KeepsList x (.wait p w)) (he : x.step (.wait p w) = .ok x') :
    SlowInv x' := by
  obtain ⟨ws, hlist⟩ := h.list
  obtain ⟨e, rfl⟩ : ∃ e, w = some e := Option.ne_none_iff_exists'.mp hok
  obtain ⟨cur, hcur, he⟩ := bind_eq_ok he
  obtain ⟨l, hl, he⟩ := bind_eq_ok he
  split at he
  · rename_i hstep
    obtain ⟨hk, hfree, hw⟩ := hstep
    obtain rfl := Except.ok.inj he
    have hcur := deref_eq_ok hcur
    have hl := deref_eq_ok hl
    -- both builds see the same running thread
    obtain rfl : cur = l := by
      rw [h.same] at hcur
      exact Option.some.inj (hcur.symm.trans hl)
    refine ⟨?_, h.queues.wait hk hfree, ws ++ [e], hlist.wait hcur (hw e rfl)⟩
    change ({ x.slow.st.setStatus (x.slow.st.thread cur) .waiting with
      waitingNum := x.slow.st.waitingNum + 1 } : State) = _
    rw [h.same]
    rfl
  · cases he

theorem wakeup (h : SlowInv x) (hok : KeepsList x (.wakeup p))
    (he : x.step (.wakeup p) = .ok x') : SlowInv x' := by
  obtain ⟨ws, hlist⟩ := h.list
  rw [SlowBuilds.step] at he
  split at he
  · cases he
  rename_i hk
  obtain ⟨n, q, ws', hslow, hlist'⟩ := hlist.extract hok
  obtain ⟨⟨f, r⟩, hf, he⟩ := bind_eq_ok he
  obtain ⟨fs, hfs, he⟩ := bind_eq_ok he
  obtain ⟨⟨v, r'⟩, hv, he⟩ := bind_eq_ok he
  obtain ⟨vs, hvs, he⟩ := bind_eq_ok he
  obtain rfl := Except.ok.inj he
  obtain ⟨rfl, rfl⟩ := Prod.mk.inj (Except.ok.inj (hslow.symm.trans hf))
  have hvery := State.extractFirstWaiting_queue (h.queues.queues p hk)
  obtain ⟨rfl, rfl⟩ := Prod.mk.inj (Except.ok.inj (hvery.symm.trans hv))
  have hrun := State.runWoken_requeue x.slow.st.next x.slow.st.waiting hvs
  -- the slow build runs the same thread
  have hst : (x.very.popHead p (waitersOn x.sleeping p)).requeue x.slow.st.next
      x.slow.st.waiting = x.slow.st := by
    rw [h.same]
    cases waitersOn x.sleeping p <;> rfl
  rw [hst] at hrun
  obtain rfl := Except.ok.inj (hrun.symm.trans hfs)
  exact ⟨rfl, h.queues.wake hk hvs, ws', hlist'.list, hlist'.entries, hlist'.live, hlist'.short,
    hlist'.last⟩

/-- **Step lemma.** Both builds take the same step on the list of sleepers. -/
theorem step {c : SlowCall} (h : SlowInv x) (hok : KeepsList x c) (he : x.step c = .ok x') :
    SlowInv x' := by
  cases c with
  | create p k => exact h.create he
  | run l => exact h.run he
  | wait p w => exact h.wait hok he
  | wakeup p => exact h.wakeup hok he

theorem of_init (hx : slowRuns.init x) : SlowInv x := by
  obtain ⟨mem, t, link, hblank, hslow, hvery, hends, hzero, hlive, hsleep⟩ := hx
  refine ⟨by rw [hslow, hvery]; rfl, ?_, [], ?_⟩
  · rw [hvery, hsleep]
    exact .initial hblank t link
  · rw [hsleep]
    exact ⟨hends ▸ .nil _, rfl, by simp, by simp, by simp⟩

theorem of_reach (hx : Reach (slowRuns.guard KeepsList) x) : SlowInv x := by
  refine Reach.invariant (T := slowRuns.guard KeepsList) (P := SlowInv) ?_ ?_ hx
  · exact fun x hx => of_init hx
  · exact fun x c x' _ h hs => h.step hs.1 hs.2

end SlowInv

/-- Two builds on a fresh pool; the `next` of an entry that is not allocated points to itself. -/
def SlowBuilds.boot : SlowBuilds where
  slow := ⟨State.zero.threadInitial 0 0, fun _ => none, fun _ => 0, some, fun _ => false, 0,
    ⟨none, none⟩⟩
  very := State.zero.threadInitial 0 0
  sleeping := []

theorem SlowBuilds.boot_init : slowRuns.init SlowBuilds.boot :=
  ⟨State.zero, 0, 0, State.zero_blank, rfl, rfl, rfl, rfl, fun _ => rfl, rfl⟩

/-- Make a call that keeps the list, as a function, so that runs can be evaluated. -/
def SlowBuilds.take (x : SlowBuilds) (c : SlowCall) : Except Fault SlowBuilds :=
  if KeepsList x c then x.step c else .error .disabled

theorem SlowBuilds.take_step {x x' : SlowBuilds} {c : SlowCall} (he : x.take c = .ok x') :
    (slowRuns.guard KeepsList).step x c x' := by
  rw [SlowBuilds.take] at he
  split at he
  · rename_i hok
    exact ⟨hok, he⟩
  · cases he

/-- Both conditions are needed: with one waiter the walk for another primitive may never end, and a
thread that got no entry is woken by the shipped build only. -/
theorem slow_builds_part :
    (∃ x, Reach (slowRuns.guard KeepsList) x ∧
      (x.slow.extractWaiting 2).isOk = false ∧ (x.very.extractFirstWaiting 2).isOk = true) ∧
    ∃ x, Reach slowRuns x ∧ (x.slow.extractWaiting 1).toOption.map Prod.snd = some none ∧
      (x.very.extractFirstWaiting 1).toOption.map Prod.snd = some (some 5) := by
  constructor
  · exact (Reach.init (T := slowRuns.guard KeepsList) SlowBuilds.boot_init).exists_of_exec
      SlowBuilds.take (fun _ _ _ => SlowBuilds.take_step)
      [.create 1 .lock, .create 2 .lock, .run 5, .wait 1 (some 10)]
      (fun x => (x.slow.extractWaiting 2).isOk = false ∧
        (x.very.extractFirstWaiting 2).isOk = true) (by decide)
  · exact (Reach.init (T := slowRuns) SlowBuilds.boot_init).exists_of_exec SlowBuilds.step
      (fun _ _ _ he => he) [.create 1 .lock, .run 5, .wait 1 none]
      (fun x => (x.slow.extractWaiting 1).toOption.map Prod.snd = some none ∧
        (x.very.extractFirstWaiting 1).toOption.map Prod.snd = some (some 5)) (by decide)

end GreenLib
