import GreenLib.Queue
import Mathlib.Algebra.Ring.Int.Defs

/-!
# The memory of the green thread library

The records of `thread_lib.h` and `sync_prim.h`. A struct on the heap is
modelled field by field: `status : Addr → Status` is the `status` field of every
`thread_t`, `next : Addr → Ptr` the `next` field of every `thread_link_t`, and so
on. Writing one field of one record is a `Function.update`, so two fields never
alias, and a field of a freed or never allocated record keeps whatever it held.

`malloc` and `free` appear through the `…Live` maps: a block may be handed out
when it is not live, whatever its old contents were.
-/

namespace GreenLib

/-- An address on the heap. Blocks of different types live in different maps of `State`, so one
number may name a record, a link and a primitive at the same time. -/
abbrev Addr : Type := ℕ

/-- A C pointer; `none` is `NULL`. -/
abbrev Ptr : Type := Option Addr

/-- `MAX_CAPACITY` of `thread_lib.h`: the length of `pool->addrs`. Ids are never reused, so it
bounds the threads ever created and not those that live. -/
def maxCapacity : ℕ := 2000

/-- How a call can fail to give a next state. The first four are errors of the program or the
library, `hang` and `quit` end it, and `disabled` means that the label asked for something
impossible. -/
inductive Fault : Type where
  /-- an `assert` of the source failed, the program aborts -/
  | assert
  /-- a null pointer was dereferenced -/
  | null
  /-- an access outside `addrs` -/
  | bounds
  /-- an access to memory that is not allocated -/
  | stale
  /-- a loop of the source runs forever -/
  | hang
  /-- the source called `exit` -/
  | quit
  /-- the thread or the allocator cannot do this here -/
  | disabled
  deriving DecidableEq

/-- `enum status_t`. Apart from the functions that print, the library reads the field in
`thread_join` only, but it writes it at every switch. -/
inductive Status : Type where
  | running
  | ready
  | waiting
  deriving DecidableEq

/-- What a `thread_sync_prim_t` is the first field of. The C code casts a lock or a semaphore to its
primitive; here the kind of the block is remembered beside it. -/
inductive PrimKind : Type where
  /-- a bare primitive, as a condition variable uses it -/
  | plain
  /-- a `thread_lock_t` -/
  | lock
  /-- a `thread_semaphore_t` -/
  | semaphore
  deriving DecidableEq

/-- The globals of the library, its pool and its heap. Each field of each struct is a map from
addresses, so that a write through a pointer is a `Function.update` and aliasing is what it is in
C. -/
structure State : Type where
  /-- `initialised` -/
  initialised : Bool
  /-- `co_current_id` -/
  coCurrentId : ℕ
  /-- `pool->num` -/
  num : ℤ
  /-- `pool->new_id` -/
  newId : ℕ
  /-- `pool->t_running` -/
  tRunning : Ptr
  /-- `pool->ready_num` -/
  readyNum : ℕ
  /-- `pool->t_ready_start` and `pool->t_ready_end` -/
  tReady : Ends Addr
  /-- `pool->waiting_num` -/
  waitingNum : ℕ
  /-- `pool->sync_prim_start` and `pool->sync_prim_end` -/
  syncPrim : Ends Addr
  /-- `pool->addrs` -/
  addrs : ℕ → Ptr
  /-- `thread_t`: `t_id` -/
  tId : Addr → ℕ
  /-- `thread_t`: `status` -/
  status : Addr → Status
  /-- `thread_t`: `join` -/
  join : Addr → Ptr
  /-- `thread_t`: `joined_start` and `joined_end` -/
  joined : Addr → Ends Addr
  /-- `thread_t`: `slot.offset` -/
  slot : Addr → ℕ
  /-- the allocated `thread_t` blocks -/
  threadLive : Addr → Bool
  /-- `thread_link_t`: `t` -/
  thread : Addr → Addr
  /-- `thread_link_t`: `next` -/
  next : Addr → Ptr
  /-- the allocated `thread_link_t` blocks (none is ever freed) -/
  linkLive : Addr → Bool
  /-- `thread_join_link_t`: `caller` -/
  caller : Addr → ℕ
  /-- `thread_join_link_t`: `joiner` -/
  joiner : Addr → ℕ
  /-- `thread_join_link_t`: `joinable` -/
  joinable : Addr → Bool
  /-- `thread_join_link_t`: `next` -/
  joinNext : Addr → Ptr
  /-- the allocated `thread_join_link_t` blocks -/
  blockLive : Addr → Bool
  /-- how many join blocks were ever allocated -/
  blockNum : ℕ
  /-- the allocated primitives -/
  kind : Addr → Option PrimKind
  /-- `thread_sync_prim_t`: `pre` -/
  primPre : Addr → Ptr
  /-- `thread_sync_prim_t`: `next` -/
  primNext : Addr → Ptr
  /-- `thread_sync_prim_t`: `waiting_start` and `waiting_end` -/
  waiting : Addr → Ends Addr
  /-- `thread_lock_t`: `helder` -/
  helder : Addr → ℤ
  /-- `thread_lock_t`: `held` -/
  held : Addr → ℤ
  /-- `thread_semaphore_t`: `count` -/
  count : Addr → ℤ
  /-- the capability slots `allocman_cspace_alloc` has handed out -/
  slotUsed : ℕ → Bool

/-- What `swap_context` or `switch_context` does at the end of a call. A context
is named by the `thread_t` that owns it. -/
inductive Transfer : Type where
  /-- the caller runs on -/
  | stay
  /-- `swap_context(cur->context, new->context)` -/
  | swap (cur new : Addr)
  /-- `switch_context(new->context)` -/
  | switch (new : Addr)
  deriving DecidableEq

/-- What one turn of a waiting loop of the source does. The loops can be left by a context switch in
every turn, so they are not run to their end in one call. -/
inductive Turn : Type where
  /-- the loop goes on, in this thread or in another one -/
  | again (tr : Transfer)
  /-- the loop ended and the call returns -/
  | done
  deriving DecidableEq

/-- What the allocators answer during one call (`none` is a failed allocation). The label of a step
carries it, so a run may have any answers, also failing ones. -/
structure Alloc : Type where
  /-- `malloc(sizeof(thread_t))` -/
  thread : Ptr
  /-- `malloc(sizeof(thread_context_t))` succeeds -/
  context : Bool
  /-- `vspace_new_stack` succeeds -/
  stack : Bool
  /-- `malloc(sizeof(thread_link_t))` -/
  link : Ptr
  /-- `malloc(sizeof(thread_join_link_t))` -/
  block : Ptr
  /-- `malloc` of a lock, a semaphore or a bare primitive -/
  prim : Ptr
  /-- `allocman_cspace_alloc`; its callers assert that it succeeds -/
  slot : Option ℕ

/-- Use a pointer that must not be null, either dereferenced or asserted; the fault says which of
the two it is. -/
def deref (f : Fault) : Ptr → Except Fault Addr
  | none => .error f
  | some a => .ok a

/-- An `assert` of the source. The library is built with assertions, so a failed one ends the
program. -/
def check (b : Bool) : Except Fault Unit :=
  if b then .ok () else .error .assert

/-- An answer of `malloc`: null, or a block that is not in use. An answer that names a live block is
no answer `malloc` can give, and such a step does not exist. -/
def malloc (live : Addr → Bool) (p : Ptr) : Except Fault Ptr :=
  match p with
  | none => .ok none
  | some a => if live a then .error .disabled else .ok (some a)

/-- Arithmetic on an `int`: the result wraps around at 32 bits, which is what the compiled code does
where C leaves it open. -/
def wrap32 (z : ℤ) : ℤ := (z + 2 ^ 31) % 2 ^ 32 - 2 ^ 31

theorem wrap32_of_lt {z : ℤ} (h₀ : -2 ^ 31 ≤ z) (h₁ : z < 2 ^ 31) : wrap32 z = z := by
  unfold wrap32
  omega

/-- An increment that stays positive has not wrapped around. This is what the assertion in
`thread_semaphore_V` is worth. -/
theorem wrap32_succ_of_pos {z : ℤ} (h₀ : 0 ≤ z) (h₁ : z < 2 ^ 31) (h : 0 < wrap32 (z + 1)) :
    wrap32 (z + 1) = z + 1 ∧ z + 1 < 2 ^ 31 := by
  unfold wrap32 at h ⊢
  omega

@[simp] theorem deref_some (f : Fault) (a : Addr) : deref f (some a) = .ok a := rfl

/-- Inversion for `deref`: it succeeds on pointers that are not null only. -/
theorem deref_eq_ok {f : Fault} {p : Ptr} {a : Addr} (h : deref f p = .ok a) : p = some a := by
  rcases p with _ | b
  · cases h
  · exact congrArg some (Except.ok.inj h)

/-- Inversion for `check`: behind an assertion its condition holds. -/
theorem check_eq_ok {b : Bool} {u : Unit} (h : check b = .ok u) : b = true := by
  unfold check at h
  split at h
  · assumption
  · cases h

@[simp] theorem check_true : check true = .ok () := rfl

/-- Inversion for `malloc`: the block is the one that the label names, and it was free. -/
theorem malloc_eq_some {live : Addr → Bool} {p : Ptr} {a : Addr}
    (h : malloc live p = .ok (some a)) : p = some a ∧ live a = false := by
  rcases p with _ | b
  · cases h
  · simp only [malloc] at h
    split at h
    · cases h
    · rename_i hb
      obtain rfl : b = a := Option.some.inj (Except.ok.inj h)
      exact ⟨rfl, by simpa using hb⟩

/-- Inversion for `malloc`, when it fails. -/
theorem malloc_eq_none {live : Addr → Bool} {p : Ptr} (h : malloc live p = .ok none) :
    p = none := by
  rcases p with _ | b
  · rfl
  · simp only [malloc] at h
    split at h <;> cases h

/-- Inversion for a sequence of two computations that may fail. The calls of the library are taken
apart with it, line by line. -/
theorem bind_eq_ok {β γ : Type} {m : Except Fault β} {f : β → Except Fault γ} {c : γ}
    (h : (m >>= f) = .ok c) : ∃ b, m = .ok b ∧ f b = .ok c := by
  rcases m with e | b
  · cases h
  · exact ⟨b, rfl, h⟩

end GreenLib
