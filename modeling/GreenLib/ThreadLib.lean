import GreenLib.State

/-!
# `thread_lib.c`

The functions of the library in the build that is shipped, with
`GREEN_VERY_FAST` defined. Each is a function on `State`; a function that may
abort, dereference a null pointer or loop forever returns `Except Fault`. A
function that ends in `swap_context` or `switch_context` returns the transfer,
because what runs afterwards is the continuation stored in the other context.

Loops that follow pointers take fuel. There is one `thread_link_t` per thread id
handed out and one join block counted by `blockNum`, so a chain that is longer
than that is a cycle, and running out of fuel is `Fault.hang`.
-/

namespace GreenLib

namespace State

/-! ## Ids and records -/

/-- `get_thread`: the record of an id, null if the thread has exited or does not exist. Reading
behind `addrs` is an error of its own. -/
def getThread (s : State) (id : ℕ) : Except Fault Ptr :=
  if id < maxCapacity then .ok (s.addrs id) else .error .bounds

/-- Set the `status` field of a `thread_t`. No queue is touched: status and queues are kept in step
by the callers. -/
def setStatus (s : State) (t : Addr) (st : Status) : State :=
  { s with status := Function.update s.status t st }

/-! ## Queues of links -/

/-- `append_ready`: link behind the ready queue. The counter `ready_num` is left to the callers. -/
def appendReady (s : State) (linker : Addr) : State :=
  { s with
    next := (s.tReady.append s.next linker).1
    tReady := (s.tReady.append s.next linker).2 }

/-- `append_waiting` on the queue of the primitive `prim`: the links of all queues share one `next`
field. -/
def appendWaiting (s : State) (linker prim : Addr) : State :=
  { s with
    next := ((s.waiting prim).append s.next linker).1
    waiting := Function.update s.waiting prim ((s.waiting prim).append s.next linker).2
    waitingNum := s.waitingNum + 1 }

/-- `extract_thread` on the ready queue: search the link of `t` and splice it out. A search that
runs longer than there are threads has met a cycle. -/
def extractThread (s : State) (t : Addr) : Except Fault (State × Ptr) := do
  let _ ← deref .assert s.tReady.start
  let _ ← deref .assert s.tReady.stop
  match Ends.find s.next (fun l => s.thread l == t) (s.newId + 1) none s.tReady.start with
  | none => .error .hang
  | some none => .ok (s, none)
  | some (some (pre, cur)) =>
    match s.tReady.unlink s.next pre cur with
    | none => .error .null
    | some (next, q) => .ok ({ s with next := next, tReady := q }, some cur)

/-- The lines of `extract_first_waiting` that take the head `cur` of the queue. They clear its
`next` field, which the corresponding lines of `thread_sleep` do not. -/
def popWaiting (s : State) (prim cur : Addr) : State :=
  { s with
    waiting := Function.update s.waiting prim ((s.waiting prim).shift s.next cur)
    next := Function.update s.next cur none }

/-- `extract_first_waiting` on the queue of `prim` (`extract_lock_waiting`): null if nobody waits,
which is when both cells are null. -/
def extractFirstWaiting (s : State) (prim : Addr) : Except Fault (State × Ptr) :=
  if (s.waiting prim).start = none ∧ (s.waiting prim).stop = none then .ok (s, none)
  else do
    let cur ← deref .null (s.waiting prim).start
    .ok (s.popWaiting prim cur, some cur)

/-! ## Changing the status of a thread -/

/-- `running_to_ready`: the caller goes behind the ready queue, and until the next thread is chosen
`t_running` is null. -/
def runningToReady (s : State) (linker : Addr) : State :=
  let s := (s.setStatus (s.thread linker) .ready).appendReady linker
  { s with readyNum := s.readyNum + 1, tRunning := none }

/-- `running_to_lock_waiting`: the caller goes behind the queue of the primitive, and `waiting_num`
counts it. -/
def runningToLockWaiting (s : State) (linker prim : Addr) : State :=
  (s.setStatus (s.thread linker) .waiting).appendWaiting linker prim

/-- `waiting_to_running`: a thread that has been taken from a queue of waiters runs. The assertion
is on the global counter, not on the queue. -/
def waitingToRunning (s : State) (linker : Addr) : Except Fault State := do
  check (decide (0 < s.waitingNum))
  let s := s.setStatus (s.thread linker) .running
  .ok { s with tRunning := some linker, waitingNum := s.waitingNum - 1 }

/-- `ready_to_running`; the result says if the link was found. The status is written before the
search, so it is wrong if the search fails. -/
def readyToRunning (s : State) (t : Addr) : Except Fault (State × Bool) := do
  check (decide (0 < s.readyNum))
  match ← (s.setStatus t .running).extractThread t with
  | (s, none) => .ok (s, false)
  | (s, some linker) =>
    .ok ({ s with tRunning := some linker, readyNum := s.readyNum - 1 }, true)

/-! ## Sleep and wakeup -/

/-- The lines of `thread_sleep` that take the head of the ready queue. Its
`next` field keeps its value. -/
def popReady (s : State) (new : Addr) : State :=
  let s := { s with tReady := s.tReady.shift s.next new }
  let s := s.setStatus (s.thread new) .running
  { s with
    tRunning := some new
    readyNum := s.readyNum - 1
    coCurrentId := s.tId (s.thread new) }

/-- The primitive a call works on must be allocated. The C code has no such test: it would read and
write freed memory. -/
def checkPrim (s : State) (prim : Addr) : Except Fault Unit :=
  if s.kind prim = none then .error .stale else .ok ()

/-- `thread_sleep`. With an empty ready queue it returns at once, and the caller, which is in no
queue then, runs on. -/
def threadSleep (s : State) (prim : Addr) : Except Fault (State × Transfer) :=
  if s.readyNum = 0 then .ok (s, .stay)
  else do
    let cur ← deref .assert s.tRunning
    s.checkPrim prim
    let s := s.runningToLockWaiting cur prim
    let new ← deref .assert s.tReady.start
    let _ ← deref .assert s.tReady.stop
    let s := s.popReady new
    .ok (s, .swap (s.thread cur) (s.thread new))

/-- The lines `thread_wakeup` and `thread_wakeup_wait` end with: `new` takes the
processor from `cur`. -/
def wakeSwitch (s : State) (cur new : Addr) : Except Fault (State × Transfer) := do
  let s ← s.waitingToRunning new
  .ok ({ s with coCurrentId := s.tId (s.thread new) }, .swap (s.thread cur) (s.thread new))

/-- `thread_wakeup`: run the first waiter now, the caller goes to the ready queue. If nobody waits
nothing happens and nothing is remembered. -/
def threadWakeup (s : State) (prim : Addr) : Except Fault (State × Transfer) := do
  s.checkPrim prim
  match ← s.extractFirstWaiting prim with
  | (s, none) => .ok (s, .stay)
  | (s, some new) => do
    let cur ← deref .assert s.tRunning
    (s.runningToReady cur).wakeSwitch cur new

/-- `thread_wakeup_wait`: run the first waiter now, the caller waits in its place. If nobody waits
the caller does not wait either. -/
def threadWakeupWait (s : State) (prim : Addr) : Except Fault (State × Transfer) := do
  let cur ← deref .assert s.tRunning
  s.checkPrim prim
  match ← s.extractFirstWaiting prim with
  | (s, none) => .ok (s, .stay)
  | (s, some new) => (s.runningToLockWaiting cur prim).wakeSwitch cur new

/-! ## Life of a thread -/

/-- `thread_initial`, on whatever memory `malloc` returns. The `status` and the
joined list of thread 0 are not initialised by the source. -/
def threadInitial (s : State) (t linker : Addr) : State :=
  { s with
    initialised := true
    coCurrentId := 0
    num := 1
    newId := 1
    tRunning := some linker
    readyNum := 0
    tReady := ⟨none, none⟩
    waitingNum := 0
    syncPrim := ⟨none, none⟩
    addrs := Function.update (fun _ => none) 0 (some t)
    tId := Function.update s.tId t 0
    join := Function.update s.join t none
    threadLive := Function.update s.threadLive t true
    thread := Function.update s.thread linker t
    next := Function.update s.next linker none
    linkLive := Function.update s.linkLive linker true }

/-- The last lines of `thread_create`: link the new thread into the ready queue and count it. The
new thread does not run yet. -/
def linkThread (s : State) (t link : Addr) : State :=
  let next := Function.update s.next link none
  { s with
    thread := Function.update s.thread link t
    linkLive := Function.update s.linkLive link true
    num := s.num + 1
    readyNum := s.readyNum + 1
    next :=
      match s.tReady.stop with
      | none => next
      | some e => Function.update next e (some link)
    tReady :=
      match s.tReady.stop with
      | none => ⟨some link, some link⟩
      | some _ => ⟨s.tReady.start, some link⟩ }

/-- The first lines of `thread_create`: a record without joiners, and the next id. The id is used up
even if a later allocation fails. -/
def newThread (s : State) (t : Addr) : State :=
  { s with
    newId := s.newId + 1
    threadLive := Function.update s.threadLive t true
    join := Function.update s.join t none
    joined := Function.update s.joined t ⟨none, none⟩ }

/-- `thread_create` fills in the record; `slot` is what `allocman_cspace_alloc` gave. The slot is
not given back on the paths that fail behind it. -/
def fillThread (s : State) (t id slot : ℕ) : State :=
  { s with
    tId := Function.update s.tId t id
    status := Function.update s.status t .ready
    slot := Function.update s.slot t slot
    slotUsed := Function.update s.slotUsed slot true }

/-- `pool->addrs[t_id] = t;` From here on `get_thread` finds the thread, although it may never be
linked. -/
def registerThread (s : State) (id t : ℕ) : State :=
  { s with addrs := Function.update s.addrs id (some t) }

/-- `thread_create`; the result is the id, 0 when an allocation failed. The paths that fail late
leave a registered record, a used slot and a skipped id behind. -/
def threadCreate (s : State) (m : Alloc) : Except Fault (State × ℕ) :=
  if s.initialised = false then .ok (s, 0)
  else do
    match ← malloc s.threadLive m.thread with
    | none => .ok (s, 0)
    | some t =>
      let id := s.newId
      let s := s.newThread t
      if id = 0 then .ok (s, 0)
      else do
        let slot ← deref .assert m.slot
        if s.slotUsed slot then .error .disabled
        else
          let s := s.fillThread t id slot
          if m.context = false then .ok (s, 0)
          else if m.stack = false then .ok (s, 0)
          else if maxCapacity ≤ id then .error .bounds
          else do
            let s := s.registerThread id t
            match ← malloc s.linkLive m.link with
            | none => .ok (s, 0)
            | some link => .ok (s.linkThread t link, id)

/-- The loop of `thread_exit` over the join blocks of the exiting thread. It ends at the null
pointer, which the last block of the list must therefore have. -/
def markJoinable (s : State) : ℕ → Ptr → Except Fault State
  | _, none => .ok s
  | 0, some _ => .error .hang
  | n + 1, some b =>
    if s.blockLive b then
      { s with joinable := Function.update s.joinable b true }.markJoinable n (s.joinNext b)
    else .error .stale

/-- The walk writes `joinable` fields only, so it disturbs neither the queues nor the list it
walks. -/
theorem markJoinable_eq {s s' : State} {n : ℕ} {q : Ptr} (he : s.markJoinable n q = .ok s') :
    ∃ j, s' = { s with joinable := j } := by
  induction n generalizing s q with
  | zero =>
    cases q with
    | none => exact ⟨s.joinable, (Except.ok.inj he).symm⟩
    | some b => cases he
  | succ n ih =>
    cases q with
    | none => exact ⟨s.joinable, (Except.ok.inj he).symm⟩
    | some b =>
      rw [markJoinable] at he
      split at he
      · obtain ⟨j, rfl⟩ := ih he
        exact ⟨j, rfl⟩
      · cases he

/-- `thread_destory`: free the record, and the join block that it points to. The links of the thread
are never freed. -/
def threadDestory (s : State) (t : Addr) : State :=
  { s with
    threadLive := Function.update s.threadLive t false
    blockLive :=
      match s.join t with
      | none => s.blockLive
      | some b => Function.update s.blockLive b false }

/-- The lines of `thread_exit` that unregister and free the caller. Nothing else is cleared:
`t_running` still leads to the freed record. -/
def removeThread (s : State) (cur : Addr) : State :=
  let s := { s with addrs := Function.update s.addrs (s.tId cur) none }.threadDestory cur
  { s with num := s.num - 1 }

/-- The lines of `thread_exit` that choose the next thread and switch to it: thread 0 if nobody is
ready. Its context is loaded and the caller's is not saved. -/
def exitSwitch (s : State) : Except Fault (State × Transfer) :=
  if s.readyNum = 0 then do
    let new ← deref .null (← s.getThread 0)
    .ok ({ s with coCurrentId := 0 }.setStatus new .running, .switch new)
  else do
    let head ← deref .null s.tReady.start
    let id := s.tId (s.thread head)
    let new ← deref .null (← s.getThread id)
    let (s, _) ← { s with coCurrentId := id }.readyToRunning new
    .ok (s, .switch new)

/-- `thread_exit`: tell the joiners, free the record, switch. The caller is found through
`co_current_id` and not through `t_running`. -/
def threadExit (s : State) : Except Fault (State × Transfer) := do
  let cur ← deref .assert (← s.getThread s.coCurrentId)
  let s ← s.markJoinable (s.blockNum + 1) (s.joined cur).start
  if maxCapacity ≤ s.tId cur then .error .bounds
  else (s.removeThread cur).exitSwitch

/-- `thread_resume`: run the given thread now. Thread 0 is never put into the ready queue, neither
as the caller nor as the target, which is why it does not have to be searched there. -/
def threadResume (s : State) (id : ℕ) : Except Fault (State × Transfer) := do
  let run ← deref .null s.tRunning
  let cur := s.thread run
  check (s.tId cur != id)
  let new ← deref .assert (← s.getThread id)
  let s := if s.tId cur ≠ 0 then s.runningToReady run else s.setStatus cur .ready
  let s := { s with coCurrentId := id }
  if id ≠ 0 then do
    let (s, found) ← s.readyToRunning new
    check found
    .ok (s, .swap cur new)
  else .ok (s.setStatus new .running, .swap cur new)

/-- `thread_yield`: resume the head of the ready queue, and thread 0 if the queue is empty. -/
def threadYield (s : State) : Except Fault (State × Transfer) :=
  if s.readyNum = 0 then s.threadResume 0
  else do
    let head ← deref .null s.tReady.start
    s.threadResume (s.tId (s.thread head))

/-! ## Join -/

/-- The block a join list pointer leads to must be allocated to be written. The C code would write
into freed memory. -/
def checkBlock (s : State) : Ptr → Except Fault Unit
  | none => .ok ()
  | some b => if s.blockLive b then .ok () else .error .stale

/-- `append_join_block` on the joined list of `new`. Like the thread queues, an empty list leaves
the `next` field of its first block as it was. -/
def appendJoinBlock (s : State) (b new : Addr) : Except Fault State := do
  s.checkBlock (s.joined new).stop
  .ok { s with
    joinNext := ((s.joined new).append s.joinNext b).1
    joined := Function.update s.joined new ((s.joined new).append s.joinNext b).2 }

/-- `delete_join_block` on the joined list of `new`. The block is searched by address, and not
finding it is no error. -/
def deleteJoinBlock (s : State) (b new : Addr) : Except Fault State := do
  let _ ← deref .assert (s.joined new).start
  let _ ← deref .assert (s.joined new).stop
  match Ends.find s.joinNext (fun c => c == b) (s.blockNum + 1) none (s.joined new).start with
  | none => .error .hang
  | some none => .ok s
  | some (some (pre, cur)) => do
    s.checkBlock pre
    match (s.joined new).unlink s.joinNext pre cur with
    | none => .error .null
    | some (next, q) =>
      .ok { s with joinNext := next, joined := Function.update s.joined new q }

/-- `thread_join` up to its loop. `none`: the thread has exited already, the call
returns. Otherwise the two locals `cur` and `new` the loop works with. The `next`
field of the new block is not initialised by the source. -/
def threadJoinEnter (s : State) (m : Alloc) (id : ℕ) :
    Except Fault (State × Option (Addr × Addr)) := do
  let cur ← deref .null (← s.getThread s.coCurrentId)
  check (s.join cur == none)
  match ← s.getThread id with
  | none => if s.newId ≤ id then .error .assert else .ok (s, none)
  | some new =>
    match ← malloc s.blockLive m.block with
    | none => .ok (s, none)
    | some b => do
      let run ← deref .null s.tRunning
      let s := { s with
        join := Function.update s.join cur (some b)
        blockLive := Function.update s.blockLive b true
        blockNum := s.blockNum + 1
        caller := Function.update s.caller b (s.tId (s.thread run))
        joiner := Function.update s.joiner b id
        joinable := Function.update s.joinable b false }
      .ok (← s.appendJoinBlock b new, some (cur, new))

/-- One turn of the loop of `thread_join`, with the lines behind it. While the block is not marked,
the target is resumed if its status is ready and the caller yields if it is waiting; any other
status ends the program. -/
def threadJoinTurn (s : State) (cur new : Addr) (id : ℕ) : Except Fault (State × Turn) := do
  let b ← deref .null (s.join cur)
  if s.joinable b then do
    let s ← s.deleteJoinBlock b new
    .ok ({ s with join := Function.update s.join cur none }, .done)
  else
    match s.status new with
    | .ready => do
      let (s, tr) ← s.threadResume id
      .ok (s, .again tr)
    | .waiting => do
      let (s, tr) ← s.threadYield
      .ok (s, .again tr)
    | .running => .error .quit

/-! ## Reading the queues -/

/-- The ids in the ready queue, by following `next` from `t_ready_start` to `t_ready_end`. This is
what the theorems mean by the contents of the queue. -/
def readyIds (s : State) : List ℕ :=
  (Ends.toList s.next s.tReady.stop s.newId s.tReady.start).map fun l => s.tId (s.thread l)

/-- The ids waiting on `prim`, from `waiting_start` to `waiting_end`, in the order in which they
will be woken. -/
def waitingIds (s : State) (prim : Addr) : List ℕ :=
  (Ends.toList s.next (s.waiting prim).stop s.newId (s.waiting prim).start).map
    fun l => s.tId (s.thread l)

end State

end GreenLib
