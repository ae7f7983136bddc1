import GreenLib.ThreadLib

/-!
# `sync_prim.c`

Locks, semaphores and condition variables over `thread_sleep`, `thread_wakeup`
and `thread_wakeup_wait`. The loops of `thread_lock_acquire_intern` and
`thread_semaphore_P` may switch to another thread in each turn, so a function
models one turn (`Turn`), and the machine of `GreenLib.Machine` repeats it.

`thread_lock_acquire` and `thread_lock_release` only fill in the second argument
of the internal functions, which the build with `GREEN_VERY_FAST` ignores.
-/

namespace GreenLib

namespace State

/-! ## The registry -/

/-- `sync_prim_initial`: clear the primitive and link it behind the registry. The tail cell is
followed without a test, so a registry with a head and no tail would be a fault. -/
def syncPrimInitial (s : State) (prim : Addr) (k : PrimKind) : Except Fault State :=
  let s := { s with
    kind := Function.update s.kind prim (some k)
    primPre := Function.update s.primPre prim none
    primNext := Function.update s.primNext prim none
    waiting := Function.update s.waiting prim ⟨none, none⟩ }
  if s.syncPrim.start = none then .ok { s with syncPrim := ⟨some prim, some prim⟩ }
  else do
    let e ← deref .null s.syncPrim.stop
    .ok { s with
      primPre := Function.update s.primPre prim (some e)
      primNext := Function.update s.primNext e (some prim)
      syncPrim := ⟨s.syncPrim.start, some prim⟩ }

/-- The four cases of `sync_prim_destroy`: the only primitive, the first, the last, one in the
middle. Each clears the pointers of the primitive that it can have. -/
def syncPrimUnlink (s : State) (prim : Addr) : Except Fault State :=
  if s.syncPrim.start = some prim ∧ s.syncPrim.stop = some prim then
    .ok { s with syncPrim := ⟨none, none⟩ }
  else if s.syncPrim.start = some prim then do
    let n ← deref .null (s.primNext prim)
    .ok { s with
      syncPrim := ⟨some n, s.syncPrim.stop⟩
      primPre := Function.update s.primPre n none
      primNext := Function.update s.primNext prim none }
  else if s.syncPrim.stop = some prim then do
    let p ← deref .null (s.primPre prim)
    .ok { s with
      syncPrim := ⟨s.syncPrim.start, some p⟩
      primNext := Function.update s.primNext p none
      primPre := Function.update s.primPre prim none }
  else do
    let p ← deref .null (s.primPre prim)
    let n ← deref .null (s.primNext prim)
    .ok { s with
      primNext := Function.update (Function.update s.primNext p (some n)) prim none
      primPre := Function.update (Function.update s.primPre n (some p)) prim none }

/-- `sync_prim_destroy`, with its two assertions: behind the unlinking the primitive points
nowhere. -/
def syncPrimDestroy (s : State) (prim : Addr) : Except Fault State := do
  let s ← s.syncPrimUnlink prim
  check (s.primPre prim == none)
  check (s.primNext prim == none)
  .ok s

/-- `malloc` of a primitive of one of the three kinds, and `sync_prim_initial`. A
failed `malloc` is the null pointer. -/
def createPrim (s : State) (k : PrimKind) (m : Alloc) : Except Fault (State × Ptr) := do
  match ← malloc (fun a => (s.kind a).isSome) m.prim with
  | none => .ok (s, none)
  | some prim => .ok (← s.syncPrimInitial prim k, some prim)

/-- The body shared by `thread_lock_destory` and `thread_semaphore_destory`. Nobody may wait;
whether the lock is held does not matter. -/
def destroyPrim (s : State) (k : PrimKind) (prim : Addr) : Except Fault State :=
  if s.kind prim ≠ some k then .error .stale
  else do
    check ((s.waiting prim).start == none)
    let s ← s.syncPrimDestroy prim
    .ok { s with kind := Function.update s.kind prim none }

/-! ## Locks -/

/-- `lock->helder = h; lock->held = v;` The two fields are always written together. -/
def setLock (s : State) (lock : Addr) (h v : ℤ) : State :=
  { s with
    helder := Function.update s.helder lock h
    held := Function.update s.held lock v }

/-- The argument of a lock function must be an allocated lock. The C code does not test it, so the
model stops where the code would work on other memory. -/
def checkKind (s : State) (k : PrimKind) (prim : Addr) : Except Fault Unit :=
  if s.kind prim = some k then .ok () else .error .stale

/-- `thread_lock_create`. A new lock is free, and names -1 as its holder. -/
def threadLockCreate (s : State) (m : Alloc) : Except Fault (State × Ptr) := do
  match ← s.createPrim .lock m with
  | (s, none) => .ok (s, none)
  | (s, some lock) => .ok (s.setLock lock (-1) 0, some lock)

/-- `thread_lock_destory`. -/
def threadLockDestory (s : State) (lock : Addr) : Except Fault State :=
  s.destroyPrim .lock lock

/-- The assertions `thread_lock_acquire_intern` begins with: a thread that holds the lock must not
ask for it again. -/
def threadLockAcquireEnter (s : State) (lock : Addr) : Except Fault Unit := do
  s.checkKind .lock lock
  check (s.helder lock != (s.coCurrentId : ℤ))

/-- One turn of the loop of `thread_lock_acquire_intern`, with the lines behind it. The test is made
again after every wakeup, and the lock is taken without giving up the processor in between. -/
def threadLockAcquireTurn (s : State) (lock : Addr) : Except Fault (State × Turn) := do
  s.checkKind .lock lock
  if s.held lock ≠ 0 then do
    let (s, tr) ← s.threadSleep lock
    .ok (s, .again tr)
  else do
    let run ← deref .null s.tRunning
    .ok (s.setLock lock (s.tId (s.thread run)) 1, .done)

/-- `thread_lock_release_intern`: free the lock, then run the first waiter. It does not test that
the caller holds the lock. -/
def threadLockReleaseIntern (s : State) (lock : Addr) : Except Fault (State × Transfer) := do
  s.checkKind .lock lock
  (s.setLock lock (-1) 0).threadWakeup lock

/-- `thread_lock_release_acquire`: free the lock and wait for it behind the others. It returns
without having taken the lock again, in spite of its name. -/
def threadLockReleaseAcquire (s : State) (lock : Addr) : Except Fault (State × Transfer) := do
  s.checkKind .lock lock
  (s.setLock lock (-1) 0).threadWakeupWait lock

/-! ## Semaphores -/

/-- `semaphore->count = v;` -/
def setCount (s : State) (sem : Addr) (v : ℤ) : State :=
  { s with count := Function.update s.count sem v }

/-- `thread_semaphore_create`. The counter starts at 0, there is no initial value to give. -/
def threadSemaphoreCreate (s : State) (m : Alloc) : Except Fault (State × Ptr) := do
  match ← s.createPrim .semaphore m with
  | (s, none) => .ok (s, none)
  | (s, some sem) => .ok (s.setCount sem 0, some sem)

/-- `thread_semaphore_destory`. -/
def threadSemaphoreDestory (s : State) (sem : Addr) : Except Fault State :=
  s.destroyPrim .semaphore sem

/-- One turn of the loop of `thread_semaphore_P`, with the lines behind it. The loop tests for 0 and
the assertion behind it for a positive counter. -/
def threadSemaphorePTurn (s : State) (sem : Addr) : Except Fault (State × Turn) := do
  s.checkKind .semaphore sem
  if s.count sem = 0 then do
    let (s, tr) ← s.threadSleep sem
    .ok (s, .again tr)
  else do
    check (decide (0 < s.count sem))
    .ok (s.setCount sem (wrap32 (s.count sem - 1)), .done)

/-- `thread_semaphore_V`: count, then run the first waiter. The assertion fails when the counter
wraps around. -/
def threadSemaphoreV (s : State) (sem : Addr) : Except Fault (State × Transfer) := do
  s.checkKind .semaphore sem
  let s := s.setCount sem (wrap32 (s.count sem + 1))
  check (decide (0 < s.count sem))
  s.threadWakeup sem

/-! ## Condition variables

`thread_cv_wait` is `thread_lock_release_intern`, then `thread_sleep`, then
`thread_lock_acquire_intern`; each of the three may switch to another thread, so
the sequence is in the machine. -/

/-- `thread_cv_signal`: it is `thread_wakeup` on the primitive, so the woken thread runs at once and
without the lock. -/
def threadCvSignal (s : State) (cv : Addr) : Except Fault (State × Transfer) :=
  s.threadWakeup cv

end State

end GreenLib
