import Mathlib.Data.List.Nodup
import Mathlib.Data.BitVec

/-!
# Notifications

The notification object of the kernel, with the two operations that threads perform on it:
`sendSignal` behind `seL4_Signal` and `receiveSignal` behind `seL4_Wait`. A notification is idle, or
threads wait in its queue, or it is active and carries the badges of the signals that nobody has
received. The three states exclude each other and the queue of a waiting notification is not empty,
so the type has no other values; the kernel asserts the latter.

Signals are not counted. One that finds the notification active is merged with the signals before
it, so who relies on each of his signals has to show that the notification is not active when he
sends it.
-/

namespace GreenLib

/-- `notification_t`, of a notification that no thread is bound to. The three states are those of
the kernel; a waiting notification has at least one waiter, so the queue is given by its head and
its rest. -/
inductive Ntfn (T : Type) : Type where
  /-- `NtfnState_Idle` -/
  | idle
  /-- `NtfnState_Waiting`, with the queue of the waiting threads -/
  | waiting (head : T) (rest : List T)
  /-- `NtfnState_Active`, with `ntfnMsgIdentifier` -/
  | active (badge : BitVec 32)
  deriving DecidableEq

namespace Ntfn

variable {T : Type}

/-- The threads that wait, in the order in which they will be released. It is empty unless the state
is `waiting`. -/
def queue : Ntfn T → List T
  | .waiting head rest => head :: rest
  | _ => []

/-- Whether a signal is there that nobody has received. At most one is remembered: further signals
only change the badge. -/
def isActive : Ntfn T → Bool
  | .active _ => true
  | _ => false

/-- `sendSignal(ntfnPtr, badge)`: the notification, and the thread that goes on with the signal. -/
def sendSignal (n : Ntfn T) (badge : BitVec 32) : Ntfn T × Option T :=
  match n with
  | .idle => (.active badge, none)
  | .waiting dest [] => (.idle, some dest)
  | .waiting dest (head :: rest) => (.waiting head rest, some dest)
  | .active badge2 => (.active (badge2 ||| badge), none)

/-- `receiveSignal(thread, cap, isBlocking)` with `isBlocking`: the notification, and the badge that
the thread goes on with. With none it waits. -/
def receiveSignal (n : Ntfn T) (thread : T) : Ntfn T × Option (BitVec 32) :=
  match n with
  | .idle => (.waiting thread [], none)
  | .waiting head rest => (.waiting head (rest ++ [thread]), none)
  | .active badge => (.idle, some badge)

variable {n : Ntfn T}

theorem not_isActive_of_mem {u : T} (hu : u ∈ n.queue) : n.isActive = false := by
  cases n with
  | active badge => cases hu
  | _ => rfl

/-- **What a signal does**: it releases the head of the queue, or leaves the notification active. -/
theorem sendSignal_cases (n : Ntfn T) (badge : BitVec 32) :
    (n.queue = [] ∧ (n.sendSignal badge).2 = none ∧ (n.sendSignal badge).1.queue = [] ∧
      (n.sendSignal badge).1.isActive = true) ∨
    ∃ u rest, n.queue = u :: rest ∧ (n.sendSignal badge).2 = some u ∧
      (n.sendSignal badge).1.queue = rest ∧ (n.sendSignal badge).1.isActive = false := by
  rcases n with _ | ⟨dest, _ | ⟨head, rest⟩⟩ | badge2
  · exact .inl ⟨rfl, rfl, rfl, rfl⟩
  · exact .inr ⟨dest, [], rfl, rfl, rfl, rfl⟩
  · exact .inr ⟨dest, head :: rest, rfl, rfl, rfl, rfl⟩
  · exact .inl ⟨rfl, rfl, rfl, rfl⟩

/-- **What a wait does**: it takes the signal of an active notification, or joins the queue. -/
theorem receiveSignal_cases (n : Ntfn T) (t : T) :
    (n.isActive = true ∧ n.queue = [] ∧ (n.receiveSignal t).2.isSome = true ∧
      (n.receiveSignal t).1.queue = [] ∧ (n.receiveSignal t).1.isActive = false) ∨
    (n.isActive = false ∧ (n.receiveSignal t).2 = none ∧
      (n.receiveSignal t).1.queue = n.queue ++ [t] ∧ (n.receiveSignal t).1.isActive = false) := by
  cases n with
  | idle => exact .inr ⟨rfl, rfl, rfl, rfl⟩
  | waiting head rest => exact .inr ⟨rfl, rfl, rfl, rfl⟩
  | active badge => exact .inl ⟨rfl, rfl, rfl, rfl, rfl⟩

/-! ## The queue and the threads in it -/

/-- The queue holds, once each, the threads that `waits` says. This is the link between the kernel
object and the states of the threads. -/
structure Holds (n : Ntfn T) (waits : T → Prop) : Prop where
  mem : ∀ u, u ∈ n.queue ↔ waits u
  nodup : n.queue.Nodup

namespace Holds

variable {waits waits' : T → Prop} {t u : T}

/-- Nobody begins or ends to wait, so the same queue will do. -/
theorem keep (h : n.Holds waits) (hw : ∀ v, waits' v ↔ waits v) : n.Holds waits' :=
  ⟨fun v => (h.mem v).trans (hw v).symm, h.nodup⟩

/-- A thread joins the queue at its end. It was not there before, so no thread waits twice. -/
theorem append {n' : Ntfn T} (h : n.Holds waits) (hq : n'.queue = n.queue ++ [t])
    (ht : ¬ waits t) (hw : ∀ v, waits' v ↔ waits v ∨ v = t) : n'.Holds waits' where
  mem v := by
    rw [hq, List.mem_append, List.mem_singleton, hw, h.mem]
  nodup := by
    rw [hq]
    refine List.nodup_append'.mpr ⟨h.nodup, List.nodup_singleton t, ?_⟩
    rw [List.disjoint_singleton, h.mem]
    exact ht

/-- The head leaves the queue and the others keep their order. -/
theorem tail {n' : Ntfn T} {rest : List T} (h : n.Holds waits) (hq : n.queue = u :: rest)
    (hq' : n'.queue = rest) (hw : ∀ v, waits' v ↔ waits v ∧ v ≠ u) : n'.Holds waits' where
  mem v := by
    have hnd := h.nodup
    rw [hq, List.nodup_cons] at hnd
    rw [hq', hw, ← h.mem, hq, List.mem_cons]
    constructor
    · intro hv
      exact ⟨.inr hv, ne_of_mem_of_not_mem hv hnd.1⟩
    · rintro ⟨hv | hv, hne⟩
      · exact absurd hv hne
      · exact hv
  nodup := by
    have hnd := h.nodup
    rw [hq, List.nodup_cons] at hnd
    rw [hq']
    exact hnd.2

/-- The queue was empty and is empty. -/
theorem of_nil {n' : Ntfn T} (h : n.Holds waits) (hq : n.queue = []) (hq' : n'.queue = [])
    (hw : ∀ v, waits' v ↔ waits v) : n'.Holds waits' where
  mem v := by rw [hq', hw, ← h.mem, hq]
  nodup := by rw [hq']; exact List.nodup_nil

end Holds

end Ntfn

end GreenLib
