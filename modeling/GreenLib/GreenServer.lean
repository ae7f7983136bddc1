import GreenLib.Clients
import GreenLib.Handover

/-!
# The green server

`main.c` in the builds `GREEN_THREAD`, `CONSUMER_PRODUCER`: `main_continued` sets up the client pool
and creates the server threads, which all run `server_loop`. A thread receives a request from the
endpoint, handles it in `process_message` and answers through the reply capability that it has saved
in its own slot. There are two versions of `process_message`: the one of `main.c` guards the buffer
with `lock_global` (`locked`), the newer one does not. Everything else they share.

A program counter `GreenPc` is a point of this code at which a thread may be switched away from, or
at which it talks to the kernel or to the thread library. The shared data (`Shared`) are the global
variables of the server, the reply capabilities and the clients. There are `n` clients, and
`client_num` is `n`. They are the environment: a client sends `INIT`, waits for the answer, and then
makes one call after the other, as `GreenServer.may` allows.
-/

namespace GreenLib

/-! ## Shared data -/

/-- The global variables that hold primitives. All four are created as locks; the last two are slept
on and never acquired. -/
inductive Global : Type where
  | lockUniverse
  | lockGlobal
  | producerList
  | consumerList
  deriving DecidableEq

/-- What the threads of the server share: its global variables, the reply capabilities, and the
clients. -/
structure Shared (n : ℕ) : Type extends ClientPool n Client where
  prim : Global → Ptr
  /-- `wait_count` -/
  waitCount : ℕ
  /-- `buffer` and `buffer_limit` -/
  buf : Buffer
  /-- history: how often a role has changed the buffer -/
  changes : Role → ℕ

namespace Shared

variable {n : ℕ}

/-- The list that handlers of a role sleep on while the buffer does not allow them to go on. -/
def list (g : Shared n) : Role → Ptr
  | .producer => g.prim .producerList
  | .consumer => g.prim .consumerList

/-- The client `c` changes, and nothing else does. -/
def setClient (g : Shared n) (c : Fin n) (x : Client) : Shared n :=
  { g with client := Function.update g.client c x }

/-- `buffer ++` or `buffer --`, for client `c`, with the history of both. -/
def change (g : Shared n) (role : Role) (c : Fin n) : Shared n :=
  { g.setClient c { g.client c with ops := (g.client c).ops + 1 } with
    buf := g.buf.change role
    changes := Function.update g.changes role (g.changes role + 1) }

/-- `seL4_Recv` delivers the request `r` of client `c`. The kernel holds the reply capability of
this client now, and of no other. -/
def receive (g : Shared n) (c : Fin n) (r : Request) : Shared n :=
  { g.setClient c ((g.client c).receive r) with caller := some c }

/-- `vka_cnode_saveCaller` into the slot `sl`, which is that of the calling thread. -/
def saveCaller (g : Shared n) (sl : ℕ) : Shared n :=
  { g with toClientPool := g.toClientPool.saveCaller sl }

/-- `seL4_Send` through a slot, with the message registers `m` if it is an answer to `INIT`. -/
def send (g : Shared n) (sl : ℕ) (m : Option (ℕ × ℕ)) : Shared n :=
  { g with toClientPool := g.toClientPool.send sl (·.answer m) }

theorem send_of_cap {g : Shared n} {sl : ℕ} {m : Option (ℕ × ℕ)} {c : Fin n}
    (h : g.cap sl = some c) : g.send sl m =
      { g.setClient c ((g.client c).answer m) with cap := Function.update g.cap sl none } := by
  rw [send, ClientPool.send_of_cap h]
  rfl

/-- `initial_client`, for the request of client `c`: it takes the next client id. -/
def initialClient (g : Shared n) (c : Fin n) : Shared n :=
  { g.setClient c { g.client c with given := some g.clientNew } with clientNew := g.clientNew + 1 }

/-- `process_message_multicast`, through the slots in `reply_eps`. -/
def processMessageMulticast (g : Shared n) : Shared n :=
  multicast n (fun g i => g.send (g.replyEps i) (some (i, 0))) g

/-- The end of the `INIT` handler: `reply_eps[client_id]` is set, and the last client opens the
barrier. -/
def registerClient (g : Shared n) (id sl : ℕ) : Shared n :=
  let g := { g with replyEps := Function.update g.replyEps id sl }
  if g.clientBarrier then (g.send (g.replyEps 0) (some (0, 1))).processMessageMulticast else g

/-- What a send keeps, the answers to `INIT` keep, for any property of the shared data. -/
theorem registerClient_keeps {α : Type} (f : Shared n → α) (g : Shared n) (id sl : ℕ)
    (hsend : ∀ g sl m, f (g.send sl m) = f g)
    (heps : f { g with replyEps := Function.update g.replyEps id sl } = f g) :
    f (g.registerClient id sl) = f g := by
  rw [registerClient]
  split
  · refine multicast_induction (P := fun g' => f g' = f g) ?_ fun g' i h => ?_
    · rw [hsend, heps]
    · rw [hsend, h]
  · exact heps

/-- `TMNT` of client `c`, which gets no answer. -/
def terminate (g : Shared n) (c : Fin n) : Shared n :=
  { g.setClient c { g.client c with phase := .gone } with terminateNum := g.terminateNum + 1 }

/-- What `initial_client_pool` assigns, and the clients before their first call. -/
def initialClientPool (n : ℕ) (limit : ℤ) : Shared n where
  prim _ := none
  clientNew := 0
  terminateNum := 0
  waitCount := n / 2
  buf := ⟨0, limit⟩
  replyEps _ := 0
  caller := none
  cap _ := none
  client _ := .new
  changes _ := 0

end Shared

/-! ## The threads -/

/-- How far a handler of a `PRODUCER` or `CONSUMER` request is. Without a lock only `slept` and
`reply` occur. -/
inductive Stage : Type where
  /-- at the test of the loop, with the lock -/
  | test
  /-- in the loop, behind `thread_lock_release` -/
  | released
  /-- in the loop, behind `thread_sleep` -/
  | slept
  /-- behind `thread_wakeup` -/
  | woke
  /-- `process_message` has returned 1 -/
  | reply
  deriving DecidableEq

/-- A point of `main_continued` or `server_loop`, with the local variables that are still to be
read. -/
inductive GreenPc (n : ℕ) : Type where
  /-- `initial_client_pool` has just assigned `got` and still has to create `todo` -/
  | pool (got : Option (Global × Ptr)) (todo : List Global)
  /-- `thread_creation` has still to create `left` threads, the last result was `res` -/
  | creating (left res : ℕ)
  | done
  /-- at `seL4_Recv` -/
  | recv
  /-- `process_message` with the request `r` of client `c` -/
  | got (c : Fin n) (r : Request)
  /-- in the `INIT` handler, behind `allocman_cspace_alloc`; `id` is `client_id` -/
  | inited (c : Fin n) (id : ℕ)
  /-- in a `PRODUCER` or `CONSUMER` handler that has saved the caller in `sl` -/
  | serve (stage : Stage) (role : Role) (c : Fin n) (sl : ℕ)
  deriving DecidableEq

/-- The server: which version, how many threads, `buffer_limit`, and what its clients do. -/
structure GreenServer (n : ℕ) : Type where
  locked : Bool
  threads : ℕ
  limit : ℤ
  /-- which request a client may make after the answer to its last one -/
  may : Client → Request → Bool

namespace GreenServer

variable {n : ℕ}

/-- A call, where to go on, and the shared data. There is no next call where an assertion fails. -/
abbrev Next (n : ℕ) : Type := Option (Call (GreenPc n) × (Option ℕ → GreenPc n) × Shared n)

/-- `thread_creation` and the `thread_resume` behind it, which resumes the last thread that was
created. -/
def threadCreation (g : Shared n) : ℕ → ℕ → Next n
  | 0, res => some (.resume res, fun _ => .done, g)
  | left + 1, _ => some (.create .recv, fun r => .creating left (r.getD 0), g)

/-- `main_continued` behind `thread_initial`, in the build `THREAD_CV`: the argument `sync_prim` of
the threads is the address of a local variable there, so only the four locks of
`initial_client_pool` are created. The builds `THREAD_LOCK` and `THREAD_SEMAPHORE` create one more
primitive for it, which `process_message` does not use. -/
def mainContinued (S : GreenServer n) (g : Shared n) (todo : List Global) : Next n :=
  match todo with
  | v :: vs => some (.lockCreate, fun r => .pool (some (v, r)) vs, g)
  -- `assert(num > 0)` in `thread_creation`
  | [] => if S.threads = 0 then none else threadCreation g S.threads 0

/-- A handler at the test of its loop: it waits, or changes the buffer and wakes a handler of the
other role. -/
def test (S : GreenServer n) (g : Shared n) (role : Role) (c : Fin n) (sl : ℕ) : Next n :=
  if g.buf.blocked role then
    if S.locked then
      (g.prim .lockGlobal).map fun l => (.release l, fun _ => .serve .released role c sl, g)
    else
      (g.list role).map fun p => (.sleep p, fun _ => .serve .slept role c sl, g)
  else if g.buf.allowed role then
    (g.list role.other).map fun p =>
      (.wakeup p, fun _ => .serve (if S.locked then .woke else .reply) role c sl, g.change role c)
  -- the assertion fails
  else none

/-- A handler in front of its loop, or at the end of the loop's body. -/
def enter (S : GreenServer n) (g : Shared n) (role : Role) (c : Fin n) (sl : ℕ) : Next n :=
  if S.locked then
    (g.prim .lockGlobal).map fun l => (.acquire l, fun _ => .serve .test role c sl, g)
  else S.test g role c sl

/-- `process_message`, from the receipt of a request to the first call of the thread library. -/
def processMessage (S : GreenServer n) (v : View) (g : Shared n) (c : Fin n) : Request → Next n
  | .init => some (.cspaceAlloc, fun _ => .inited c g.clientNew, g.initialClient c)
  | .op role => S.enter (g.saveCaller v.slot) role c v.slot
  | .tmnt => some (.exit, fun _ => .done, g.terminate c)
  | .immd => some (.pause, fun _ => .recv, g)

/-- `process_message` behind `thread_lock_release`, `thread_sleep` and `thread_wakeup`, and the
`seL4_Send` of `server_loop`. -/
def serve (S : GreenServer n) (v : View) (g : Shared n) (role : Role) (c : Fin n) (sl : ℕ) :
    Stage → Next n
  | .test => S.test g role c sl
  | .released => (g.list role).map fun p => (.sleep p, fun _ => .serve .slept role c sl, g)
  | .slept => S.enter { g with waitCount := g.waitCount + 1 } role c sl
  | .woke => (g.prim .lockGlobal).map fun l => (.release l, fun _ => .serve .reply role c sl, g)
  | .reply => some (.pause, fun _ => .recv, g.send v.slot none)

/-- The user code of all threads. At `seL4_Recv` the endpoint chooses the client. -/
def next (S : GreenServer n) (e : Option (Fin n)) (v : View) (u : GreenPc n) (g : Shared n) :
    Next n :=
  match u with
  | .pool none todo => S.mainContinued g todo
  -- the assertion that the primitive has been created
  | .pool (some (_, none)) _ => none
  | .pool (some (x, some p)) todo =>
    S.mainContinued { g with prim := Function.update g.prim x (some p) } todo
  | .creating left res => threadCreation g left res
  | .done => none
  | .recv =>
    match e with
    | none => none
    | some c =>
      match (g.client c).phase with
      | .asked r => some (.pause, fun _ => .got c r, g.receive c r)
      | _ => none
  | .got c r => S.processMessage v g c r
  | .inited _ id =>
    -- `reply_eps` has `CLIENT_MAX` entries
    if id < clientMax then
      some (.pause, fun _ => .recv, (g.saveCaller v.slot).registerClient id v.slot)
    else none
  | .serve stage role c sl => S.serve v g role c sl stage

/-- A client makes its next call. -/
def call (S : GreenServer n) (e : Fin n × Request) (g : Shared n) : Option (Shared n) :=
  let x := g.client e.1
  let first := x.phase = .fresh ∧ e.2 = .init
  let later := x.phase = .idle ∧ e.2 ≠ .init ∧ S.may x e.2 = true
  if first ∨ later then some (g.setClient e.1 (x.ask e.2)) else none

/-- **The server as a program**: thread 0 begins with `initial_client_pool`, and the clients are the
environment. -/
def program (S : GreenServer n) :
    Program (GreenPc n) (Shared n) (Option (Fin n)) (Fin n × Request) where
  main := .pool none [.lockUniverse, .lockGlobal, .producerList, .consumerList]
  init g := g = .initialClientPool n S.limit
  next := S.next
  env := S.call

/-! ## What the threads do -/

/-- A handler with the request of `c` comes to its loop, for the first time or again. -/
inductive Enters (v : View) (g : Shared n) : GreenPc n → Role → Fin n → ℕ → Shared n → Prop where
  | first {c : Fin n} {role : Role} :
    Enters v g (.got c (.op role)) role c v.slot (g.saveCaller v.slot)
  | again {c : Fin n} {role : Role} {sl : ℕ} :
    Enters v g (.serve .slept role c sl) role c sl { g with waitCount := g.waitCount + 1 }

/-- A handler tests the buffer, behind `thread_lock_acquire` if there is a lock. -/
inductive Tests (S : GreenServer n) (v : View) (g : Shared n) :
    GreenPc n → Role → Fin n → ℕ → Shared n → Prop where
  | here {c : Fin n} {role : Role} {sl : ℕ} : Tests S v g (.serve .test role c sl) role c sl g
  | free {u : GreenPc n} {c : Fin n} {role : Role} {sl : ℕ} {g' : Shared n}
    (hl : S.locked = false) (h : Enters v g u role c sl g') : Tests S v g u role c sl g'

/-- **What a server thread does** at `u`: its call, where it goes on, and the shared data. -/
inductive Does (S : GreenServer n) (v : View) (g : Shared n) :
    GreenPc n → Call (GreenPc n) → GreenPc n → Shared n → Prop where
  | recv {c : Fin n} {r : Request} (h : (g.client c).phase = .asked r) :
    Does S v g .recv .pause (.got c r) (g.receive c r)
  | init {c : Fin n} :
    Does S v g (.got c .init) .cspaceAlloc (.inited c g.clientNew) (g.initialClient c)
  | tmnt {c : Fin n} : Does S v g (.got c .tmnt) .exit .done (g.terminate c)
  | immd {c : Fin n} : Does S v g (.got c .immd) .pause .recv g
  | register {c : Fin n} {id : ℕ} (h : id < clientMax) :
    Does S v g (.inited c id) .pause .recv ((g.saveCaller v.slot).registerClient id v.slot)
  | acquire {u : GreenPc n} {c : Fin n} {role : Role} {sl l : ℕ} {g' : Shared n}
    (hl : S.locked = true) (h : Enters v g u role c sl g') (hp : g.prim .lockGlobal = some l) :
    Does S v g u (.acquire l) (.serve .test role c sl) g'
  | change {u : GreenPc n} {c : Fin n} {role : Role} {sl p : ℕ} {g' : Shared n}
    (h : Tests S v g u role c sl g') (hb : g.buf.blocked role = false)
    (ha : g.buf.allowed role = true) (hp : g.list role.other = some p) :
    Does S v g u (.wakeup p) (.serve (if S.locked then .woke else .reply) role c sl)
      (g'.change role c)
  /-- the test fails with the lock held -/
  | giveUp {c : Fin n} {role : Role} {sl l : ℕ} (hl : S.locked = true)
    (hb : g.buf.blocked role = true) (hp : g.prim .lockGlobal = some l) :
    Does S v g (.serve .test role c sl) (.release l) (.serve .released role c sl) g
  | sleepReleased {c : Fin n} {role : Role} {sl p : ℕ} (hp : g.list role = some p) :
    Does S v g (.serve .released role c sl) (.sleep p) (.serve .slept role c sl) g
  /-- the test fails without a lock -/
  | sleep {u : GreenPc n} {c : Fin n} {role : Role} {sl p : ℕ} {g' : Shared n}
    (hl : S.locked = false) (h : Tests S v g u role c sl g') (hb : g.buf.blocked role = true)
    (hp : g.list role = some p) : Does S v g u (.sleep p) (.serve .slept role c sl) g'
  | release {c : Fin n} {role : Role} {sl l : ℕ} (hp : g.prim .lockGlobal = some l) :
    Does S v g (.serve .woke role c sl) (.release l) (.serve .reply role c sl) g
  | reply {c : Fin n} {role : Role} {sl : ℕ} :
    Does S v g (.serve .reply role c sl) .pause .recv (g.send v.slot none)

end GreenServer

/-- A point of `main_continued`, which only thread 0 executes. -/
def GreenPc.InMain {n : ℕ} : GreenPc n → Prop
  | .pool _ _ | .creating _ _ => True
  | _ => False

/-- A point of `server_loop`, which only the server threads execute. -/
def GreenPc.InLoop {n : ℕ} : GreenPc n → Prop
  | .recv | .got _ _ | .inited _ _ | .serve _ _ _ _ => True
  | _ => False

namespace GreenServer

variable {n : ℕ} {S : GreenServer n} {v : View} {g g' : Shared n} {u : GreenPc n} {c : Fin n}
  {role : Role} {sl : ℕ}

/-- What a call of a client is: `INIT` if it is the first one, and otherwise what `may` allows after
an answer. -/
theorem call_eq {e : Fin n × Request} (h : S.call e g = some g') :
    ((g.client e.1).phase = .fresh ∧ e.2 = .init ∨
      (g.client e.1).phase = .idle ∧ e.2 ≠ .init ∧ S.may (g.client e.1) e.2 = true) ∧
    g' = g.setClient e.1 ((g.client e.1).ask e.2) := by
  simp only [call] at h
  split at h
  · rename_i hc
    exact ⟨hc, (Option.some.inj h).symm⟩
  · cases h

/-- Entering the loop changes neither the primitives nor the buffer, only what is known of the
clients. -/
theorem Enters.prim (h : Enters v g u role c sl g') : g'.prim = g.prim ∧ g'.buf = g.buf := by
  cases h <;> exact ⟨rfl, rfl⟩

theorem Tests.prim (h : Tests S v g u role c sl g') : g'.prim = g.prim ∧ g'.buf = g.buf := by
  cases h with
  | here => exact ⟨rfl, rfl⟩
  | free _ h => exact h.prim

theorem Tests.list (h : Tests S v g u role c sl g') (role' : Role) :
    g'.list role' = g.list role' := by
  cases role' <;> simp only [Shared.list, h.prim.1]

/-- What the test leads to is one of the steps in `Does`. -/
theorem test_does {cl : Call (GreenPc n)} {ret : Option ℕ → GreenPc n} {g₁ : Shared n}
    (ht : Tests S v g u role c sl g') (h : S.test g' role c sl = some (cl, ret, g₁)) :
    ∃ w, ret = (fun _ => w) ∧ Does S v g u cl w g₁ := by
  have hbuf := ht.prim.2
  rw [test, hbuf, ht.prim.1, ht.list, ht.list] at h
  split at h
  · rename_i hb
    split at h
    · rename_i hl
      obtain ⟨l, hp, he⟩ := Option.map_eq_some_iff.mp h
      cases he
      cases ht with
      | here => exact ⟨_, rfl, .giveUp hl hb hp⟩
      | free hl' => cases hl.symm.trans hl'
    · rename_i hl
      obtain ⟨p, hp, he⟩ := Option.map_eq_some_iff.mp h
      cases he
      exact ⟨_, rfl, .sleep (by simpa using hl) ht hb hp⟩
  · rename_i hb
    split at h
    · rename_i ha
      obtain ⟨p, hp, he⟩ := Option.map_eq_some_iff.mp h
      cases he
      exact ⟨_, rfl, .change ht (by simpa using hb) ha hp⟩
    · cases h

theorem enter_does {cl : Call (GreenPc n)} {ret : Option ℕ → GreenPc n} {g₁ : Shared n}
    (hE : Enters v g u role c sl g') (h : S.enter g' role c sl = some (cl, ret, g₁)) :
    ∃ w, ret = (fun _ => w) ∧ Does S v g u cl w g₁ := by
  rw [enter] at h
  split at h
  · rename_i hl
    rw [hE.prim.1] at h
    obtain ⟨l, hp, he⟩ := Option.map_eq_some_iff.mp h
    cases he
    exact ⟨_, rfl, .acquire hl hE hp⟩
  · rename_i hl
    exact test_does (.free (by simpa using hl) hE) h

/-- **Inversion.** A step of user code in `server_loop` is one of those of `Does`. -/
theorem next_does (hu : u.InLoop) {e : Option (Fin n)} {cl : Call (GreenPc n)}
    {ret : Option ℕ → GreenPc n} (h : S.program.next e v u g = some (cl, ret, g')) :
    ∃ w, ret = (fun _ => w) ∧ Does S v g u cl w g' := by
  change S.next e v u g = _ at h
  cases u with
  | pool => exact hu.elim
  | creating => exact hu.elim
  | done => exact hu.elim
  | recv =>
    simp only [next] at h
    split at h
    · cases h
    · split at h
      · rename_i hc
        cases h
        exact ⟨_, rfl, .recv hc⟩
      · cases h
  | got c r =>
    cases r with
    | init =>
      cases h
      exact ⟨_, rfl, .init⟩
    | op role => exact enter_does .first h
    | tmnt =>
      cases h
      exact ⟨_, rfl, .tmnt⟩
    | immd =>
      cases h
      exact ⟨_, rfl, .immd⟩
  | inited c id =>
    simp only [next] at h
    split at h
    · rename_i hid
      cases h
      exact ⟨_, rfl, .register hid⟩
    · cases h
  | serve stage role c sl =>
    cases stage with
    | test => exact test_does .here h
    | released =>
      obtain ⟨p, hp, he⟩ := Option.map_eq_some_iff.mp h
      cases he
      exact ⟨_, rfl, .sleepReleased hp⟩
    | slept => exact enter_does .again h
    | woke =>
      obtain ⟨p, hp, he⟩ := Option.map_eq_some_iff.mp h
      cases he
      exact ⟨_, rfl, .release hp⟩
    | reply =>
      cases h
      exact ⟨_, rfl, .reply⟩

/-- A thread stays in the loop, or exits. It leaves the loop in no other way. -/
theorem Does.inLoop {cl : Call (GreenPc n)} {w : GreenPc n} (h : Does S v g u cl w g') :
    u.InLoop ∧ (cl = .exit ∨ w.InLoop) := by
  have hE : ∀ {u role c sl g'}, Enters v g u role c sl g' → u.InLoop := by
    rintro u role c sl g' ⟨⟩ <;> trivial
  have hT : ∀ {u role c sl g'}, Tests S v g u role c sl g' → u.InLoop := by
    rintro u role c sl g' (_ | ⟨_, h⟩)
    · trivial
    · exact hE h
  cases h with
  | tmnt => exact ⟨trivial, .inl rfl⟩
  | acquire _ h => exact ⟨hE h, .inr trivial⟩
  | change h => exact ⟨hT h, .inr trivial⟩
  | sleep _ h => exact ⟨hT h, .inr trivial⟩
  | _ => exact ⟨trivial, .inr trivial⟩

/-- The server threads leave the primitives alone: all variables of the pool keep their values. -/
theorem Does.prim {cl : Call (GreenPc n)} {w : GreenPc n} (h : Does S v g u cl w g') :
    g'.prim = g.prim := by
  cases h with
  | register h =>
    exact Shared.registerClient_keeps Shared.prim _ _ _ (fun _ _ _ => rfl) rfl
  | acquire _ h => exact h.prim.1
  | change h => exact h.prim.1
  | sleep _ h => exact h.prim.1
  | _ => rfl

/-! ## What thread 0 does -/

end GreenServer

/-- `initial_client_pool` assigns the result of `thread_lock_create`. -/
def Shared.assign {n : ℕ} (g : Shared n) : Option (Global × Ptr) → Shared n
  | none => g
  | some (x, p) => { g with prim := Function.update g.prim x p }

namespace GreenServer

/-- **What thread 0 does** at `u`: it creates locks, then threads, then it resumes one. A lock that
could not be created ends it. -/
inductive Sets (S : GreenServer n) (g : Shared n) :
    GreenPc n → Call (GreenPc n) → (Option ℕ → GreenPc n) → Shared n → Prop where
  | lock {got : Option (Global × Ptr)} {x : Global} {xs : List Global}
    (hgot : ∀ y, got ≠ some (y, none)) :
    Sets S g (.pool got (x :: xs)) .lockCreate (fun r => .pool (some (x, r)) xs) (g.assign got)
  | start {got : Option (Global × Ptr)} {k : ℕ} (hgot : ∀ y, got ≠ some (y, none))
    (hk : S.threads = k + 1) :
    Sets S g (.pool got []) (.create .recv) (fun r => .creating k (r.getD 0)) (g.assign got)
  | create {k res : ℕ} :
    Sets S g (.creating (k + 1) res) (.create .recv) (fun r => .creating k (r.getD 0)) g
  | resume {res : ℕ} : Sets S g (.creating 0 res) (.resume res) (fun _ => .done) g

/-- Thread 0 writes only the variables of the pool that hold primitives. -/
theorem Sets.shared {cl : Call (GreenPc n)} {ret : Option ℕ → GreenPc n}
    (h : Sets S g u cl ret g') : ∃ q, g' = { g with prim := q } := by
  have hassign : ∀ got, ∃ q, g.assign got = { g with prim := q } := by
    rintro (_ | ⟨x, p⟩)
    · exact ⟨g.prim, rfl⟩
    · exact ⟨_, rfl⟩
  cases h with
  | lock => exact hassign _
  | start => exact hassign _
  | create => exact ⟨g.prim, rfl⟩
  | resume => exact ⟨g.prim, rfl⟩

theorem mainContinued_sets {got : Option (Global × Ptr)} {todo : List Global}
    {cl : Call (GreenPc n)} {ret : Option ℕ → GreenPc n} (hgot : ∀ y, got ≠ some (y, none))
    (h : S.mainContinued (g.assign got) todo = some (cl, ret, g')) :
    Sets S g (.pool got todo) cl ret g' := by
  cases todo with
  | cons x xs =>
    cases h
    exact .lock hgot
  | nil =>
    simp only [mainContinued] at h
    split at h
    · cases h
    · rename_i h0
      obtain ⟨k, hk⟩ := Nat.exists_eq_succ_of_ne_zero h0
      rw [hk] at h
      cases h
      exact .start hgot hk

/-- **Inversion** for `main_continued`: a step of user code there is one of those of `Sets`. -/
theorem next_sets (hu : u.InMain) {e : Option (Fin n)} {cl : Call (GreenPc n)}
    {ret : Option ℕ → GreenPc n} (h : S.program.next e v u g = some (cl, ret, g')) :
    Sets S g u cl ret g' := by
  change S.next e v u g = _ at h
  cases u with
  | pool got todo =>
    rcases got with _ | ⟨x, _ | p⟩
    · exact mainContinued_sets (by simp) h
    · cases h
    · exact mainContinued_sets (by simp) h
  | creating left res =>
    cases left with
    | zero =>
      cases h
      exact .resume
    | succ k =>
      cases h
      exact .create
  | _ => exact hu.elim

/-- Thread 0 sets up and hands over: after its `thread_resume` it makes no call. -/
theorem handover (S : GreenServer n) : S.program.Handover GreenPc.InMain (· = .done) where
  start := trivial
  next hu hn := by
    cases next_sets hu hn with
    | lock => exact .inl ⟨trivial, fun _ => trivial⟩
    | start => exact .inl ⟨trivial, fun _ => trivial⟩
    | create => exact .inl ⟨trivial, fun _ => trivial⟩
    | resume => exact .inr ⟨⟨_, rfl⟩, rfl⟩
  stop hu := by
    subst hu
    rfl

end GreenServer

end GreenLib
