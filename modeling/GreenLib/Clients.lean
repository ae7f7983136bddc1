import GreenLib.Buffer
import Mathlib.Data.Nat.Basic

/-!
# The clients

The clients of the consumer/producer servers. A client first calls `INIT` and learns its id from the
answer, then it makes one call after the other and waits for each answer; `TMNT` is the last one.
-/

namespace GreenLib

/-- The labels of the requests, which are in the tag of a message. -/
inductive Request : Type where
  | init
  /-- `PRODUCER` or `CONSUMER` -/
  | op (role : Role)
  | tmnt
  | immd
  deriving DecidableEq

/-- Where a client is in its protocol: it has at most one request on its way. -/
inductive ClientPhase : Type where
  | fresh
  /-- the request waits at the endpoint -/
  | asked (r : Request)
  /-- a server thread has received the request, there is no answer yet -/
  | served (r : Request)
  /-- the answer has arrived -/
  | idle
  /-- its `TMNT` has been handled -/
  | gone
  deriving DecidableEq

structure Client : Type where
  phase : ClientPhase
  /-- message register 0 of the answer to `INIT` -/
  id : ℕ
  /-- how many `PRODUCER` and `CONSUMER` calls it has made -/
  sent : ℕ
  /-- history: the `client_id` that the handler of its `INIT` took -/
  given : Option ℕ
  /-- history: how often its requests have changed the buffer -/
  ops : ℕ
  /-- history: how many of its requests have been received -/
  asks : ℕ
  /-- history: how many answers it has received -/
  answers : ℕ
  /-- history: the message registers of its answers to `INIT` -/
  inits : List (ℕ × ℕ)
  deriving DecidableEq

/-- The length of `reply_eps`, so there can be no more clients than this. -/
def clientMax : ℕ := 10000

/-- The message registers of the answer to the `INIT` of client id `j`: its id, and whether it is
the first one. -/
def initMessage (j : ℕ) : ℕ × ℕ := (j, if j = 0 then 1 else 0)

namespace Client

/-- A client before its first call, with an empty history. -/
def new : Client := ⟨.fresh, 0, 0, none, 0, 0, 0, []⟩

/-- A call is made. The request waits at the endpoint until a server thread receives it. -/
def ask (x : Client) (r : Request) : Client :=
  { x with
    phase := .asked r
    sent := match r with
      | .op _ => x.sent + 1
      | _ => x.sent }

/-- A request is received, and counts as one that is owed an answer. -/
def receive (x : Client) (r : Request) : Client := { x with phase := .served r, asks := x.asks + 1 }

/-- An answer arrives, with message registers if it is that to `INIT`. -/
def answer (x : Client) (m : Option (ℕ × ℕ)) : Client :=
  { x with
    phase := .idle
    id := m.elim x.id (·.1)
    answers := x.answers + 1
    inits := x.inits ++ m.toList }

end Client

/-! ## The pool of clients -/

/-- The variables of a server that are about its clients, and the reply capabilities that the kernel
holds for it. The servers differ in what they know of a client, which is `C` here. -/
structure ClientPool (n : ℕ) (C : Type) : Type where
  /-- `client_new` -/
  clientNew : ℕ
  /-- `terminate_num` -/
  terminateNum : ℕ
  /-- `reply_eps` -/
  replyEps : ℕ → ℕ
  /-- the client whose reply capability the kernel holds for the current caller -/
  caller : Option (Fin n)
  /-- the client whose reply capability is in a slot -/
  cap : ℕ → Option (Fin n)
  client : Fin n → C

namespace ClientPool

variable {n : ℕ} {C : Type} {p : ClientPool n C} {sl : ℕ} {answer : C → C}

/-- `client_barrier`: whether all clients have come. -/
def clientBarrier (p : ClientPool n C) : Bool := n == p.clientNew

/-- `vka_cnode_saveCaller`: the reply capability of the current caller is moved into a slot, where
it survives the next `seL4_Recv`. -/
def saveCaller (p : ClientPool n C) (sl : ℕ) : ClientPool n C :=
  { p with cap := Function.update p.cap sl p.caller, caller := none }

/-- `seL4_Send` through a slot. The client whose capability is there gets the answer, and the
capability is used up. -/
def send (p : ClientPool n C) (sl : ℕ) (answer : C → C) : ClientPool n C :=
  match p.cap sl with
  | none => p
  | some c =>
    { p with
      client := Function.update p.client c (answer (p.client c))
      cap := Function.update p.cap sl none }

theorem send_of_none (h : p.cap sl = none) : p.send sl answer = p := by
  rw [send, h]

theorem send_of_cap {c : Fin n} (h : p.cap sl = some c) : p.send sl answer =
    { p with
      client := Function.update p.client c (answer (p.client c))
      cap := Function.update p.cap sl none } := by
  rw [send, h]

@[simp] theorem send_terminateNum : (p.send sl answer).terminateNum = p.terminateNum := by
  rw [send]
  split <;> rfl

end ClientPool

/-- `process_message_multicast`: the clients with the ids from 1 on are answered one after the
other, where `send` answers one of them. -/
def multicast {G : Type} (n : ℕ) (send : G → ℕ → G) (g : G) : G :=
  (List.range' 1 (n - 1)).foldl send g

/-- What every send keeps, the answers to `INIT` keep, however many clients there are. -/
theorem multicast_induction {G : Type} {n : ℕ} {send : G → ℕ → G} {P : G → Prop} {g : G} (h : P g)
    (hsend : ∀ g i, P g → P (send g i)) : P (multicast n send g) := by
  unfold multicast
  induction List.range' 1 (n - 1) generalizing g with
  | nil => exact h
  | cons i is ih => exact ih (hsend g i h)

end GreenLib
