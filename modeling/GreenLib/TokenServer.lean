import GreenLib.Clients
import GreenLib.Handover

/-!
# The token server

`main.c` in the build `GREEN_THREAD` without `CONSUMER_PRODUCER`. The clients pass a token around:
a client that sends `SEND_WAIT` gives the token to another client and waits until it gets it back.
The token is the primitive `sync_prim`, a lock in the build `THREAD_LOCK` and a semaphore in the
build `THREAD_SEMAPHORE`; `main_continued` creates it and gives it to every server thread.

The lock has no holder when the server starts, and still it is taken: `main_continued` writes its
field `held`. No other write of the program changes a record of the library, so this one is a step
of its own kind (`TokenServer.step`).

There are `n` clients, and `client_num` is `n`. A client first calls `INIT`. Only the one whose
answer says so (message register 1) then sends `WAIT`, and it sends it once; that is the request
with which the server answers the `INIT` of all others. After that clients send `SEND_WAIT` or end
with `TMNT`.
-/

namespace GreenLib

/-! ## Clients -/

/-- What the token is. The two builds differ in what `sync_prim` is created as, and in which
functions wait for it and give it away. -/
inductive TokenBuild : Type where
  /-- `THREAD_LOCK` -/
  | lock
  /-- `THREAD_SEMAPHORE` -/
  | semaphore
  deriving DecidableEq

/-- The kind of `sync_prim`, as the library sees it. -/
def TokenBuild.kind : TokenBuild → PrimKind
  | .lock => .lock
  | .semaphore => .semaphore

/-- The labels of the requests. `IMMD` comes back to `seL4_Recv` without an answer. -/
inductive TokenRequest : Type where
  | init
  | wait
  | sendWait
  | tmnt
  | immd
  deriving DecidableEq

/-- The requests that are answered when the thread has got the token. -/
def TokenRequest.asksToken : TokenRequest → Bool
  | .wait => true
  | .sendWait => true
  | _ => false

/-- Where a client is in its protocol. It makes one call at a time, and waits for the answer. -/
inductive TokenPhase : Type where
  | fresh
  /-- the request waits at the endpoint -/
  | asked (r : TokenRequest)
  /-- a server thread has received the request, there is no answer yet -/
  | served (r : TokenRequest)
  /-- the answer has arrived -/
  | idle
  /-- its `TMNT` has been handled -/
  | gone
  deriving DecidableEq

structure TokenClient : Type where
  phase : TokenPhase
  /-- the message registers of the answer to `INIT` -/
  told : Option (ℕ × ℕ)
  /-- it has sent `WAIT` -/
  waited : Bool
  deriving DecidableEq

namespace TokenClient

/-- A client before its first call, which has been told nothing. -/
def new : TokenClient := ⟨.fresh, none, false⟩

/-- The server has told the client to send `WAIT`, in message register 1 of the answer to `INIT`. -/
def starts (x : TokenClient) : Bool := x.told.any fun m => m.2 == 1

/-- The request of the client for the token has been received, and has not been answered. -/
def waits (x : TokenClient) : Bool :=
  match x.phase with
  | .served r => r.asksToken
  | _ => false

/-- The calls that a client may make next. `WAIT` is sent once, by the client that has been told to,
before any `SEND_WAIT`. -/
def may (x : TokenClient) (r : TokenRequest) : Bool :=
  match x.phase, r with
  | .fresh, .init => true
  | .idle, .wait => x.starts && !x.waited
  | .idle, .sendWait => !x.starts || x.waited
  | .idle, .tmnt => true
  | .idle, .immd => true
  | _, _ => false

/-- A call is made. That it is `WAIT` is remembered, as it is made once. -/
def ask (x : TokenClient) (r : TokenRequest) : TokenClient :=
  { x with phase := .asked r, waited := x.waited || r == .wait }

/-- A request is received by a server thread, from the endpoint. -/
def receive (x : TokenClient) (r : TokenRequest) : TokenClient := { x with phase := .served r }

/-- An answer arrives, with message registers if it is that to `INIT`. The client keeps what it has
been told. -/
def answer (x : TokenClient) (m : Option (ℕ × ℕ)) : TokenClient :=
  { x with phase := .idle, told := m.or x.told }

end TokenClient

/-! ## Shared data -/

/-- What the threads of the server share, besides the pool of clients: the two primitives, and the
histories of the token. -/
structure TokenShared (n : ℕ) : Type extends ClientPool n TokenClient where
  /-- `lock_universe` -/
  lockUniverse : Ptr
  /-- `sync_prim` of `main_continued`, which every server thread gets as its argument -/
  syncPrim : Ptr
  /-- history: the clients whose requests for the token have been received, in this order -/
  received : List (Fin n)
  /-- history: the clients whose requests for the token have been answered, in this order -/
  answered : List (Fin n)

namespace TokenShared

variable {n : ℕ}

/-- The client `c` changes, and nobody else. -/
def setClient (g : TokenShared n) (c : Fin n) (x : TokenClient) : TokenShared n :=
  { g with client := Function.update g.client c x }

/-- `seL4_Recv` delivers the request `r` of client `c`, and the kernel keeps its reply
capability. -/
def receive (g : TokenShared n) (c : Fin n) (r : TokenRequest) : TokenShared n :=
  { g.setClient c ((g.client c).receive r) with
    caller := some c
    received := if r.asksToken then g.received ++ [c] else g.received }

/-- `vka_cnode_saveCaller`: the reply capability of the caller moves into the slot. -/
def saveCaller (g : TokenShared n) (sl : ℕ) : TokenShared n :=
  { g with toClientPool := g.toClientPool.saveCaller sl }

/-- `seL4_Send` through a slot. It is entered into the history, if the client has asked for the
token. -/
def send (g : TokenShared n) (sl : ℕ) (m : Option (ℕ × ℕ)) : TokenShared n :=
  { g with
    toClientPool := g.toClientPool.send sl (·.answer m)
    answered := g.answered ++ ((g.cap sl).filter fun c => (g.client c).waits).toList }

/-- `initial_client`, which hands out the next client id. -/
def initialClient (g : TokenShared n) : TokenShared n := { g with clientNew := g.clientNew + 1 }

/-- `process_message_multicast`: the clients with ids from 1 on are answered, with 0 in message
register 1. -/
def processMessageMulticast (g : TokenShared n) : TokenShared n :=
  multicast n (fun g i => g.send (g.replyEps i) (some (i, 0))) g

/-- The end of the `INIT` handler: `reply_eps[client_id]` is set, and when all clients have come the
first one is answered. -/
def registerClient (g : TokenShared n) (id sl : ℕ) : TokenShared n :=
  let g := { g with replyEps := Function.update g.replyEps id sl }
  if g.clientBarrier then g.send (g.replyEps 0) (some (0, 1)) else g

/-- `TMNT` of client `c`, up to the `thread_exit` of its handler. -/
def terminate (g : TokenShared n) (c : Fin n) : TokenShared n :=
  { g.setClient c { g.client c with phase := .gone } with terminateNum := g.terminateNum + 1 }

/-- What `initial_client_pool` assigns, and the clients before their first call. -/
def initialClientPool (n : ℕ) : TokenShared n where
  lockUniverse := none
  syncPrim := none
  clientNew := 0
  terminateNum := 0
  replyEps _ := 0
  caller := none
  cap _ := none
  client _ := .new
  received := []
  answered := []

end TokenShared

/-! ## The threads -/

/-- A point of `main_continued` or `server_loop`, between two calls of the library or the kernel. -/
inductive TokenPc (n : ℕ) : Type where
  /-- at `initial_client_pool` -/
  | start
  /-- `lock_universe` has been assigned -/
  | pooled (p : Ptr)
  /-- `sync_prim` has been assigned -/
  | made (p : Ptr)
  /-- at `thread_creation` -/
  | creation
  /-- `thread_creation` has still to create `left` threads, the last result was `res` -/
  | creating (left res : ℕ)
  | done
  /-- at `seL4_Recv` -/
  | recv
  /-- `process_message` with the request `r` of client `c` -/
  | got (c : Fin n) (r : TokenRequest)
  /-- in the `INIT` handler, behind `allocman_cspace_alloc`; `id` is `client_id` -/
  | inited (c : Fin n) (id : ℕ)
  /-- in the `SEND_WAIT` handler, behind `thread_semaphore_V` -/
  | posted (c : Fin n)
  /-- `process_message` has returned 1 -/
  | reply (c : Fin n)
  deriving DecidableEq

/-- The server: which build, and how many threads `thread_creation` is to create. -/
structure TokenServer (n : ℕ) : Type where
  build : TokenBuild
  threads : ℕ

/-- `lock->held = v`, as the program writes it, past the functions of the library. -/
def State.setHeld (s : State) (lock : Addr) (v : ℤ) : State :=
  { s with held := Function.update s.held lock v }

namespace TokenServer

variable {n : ℕ}

/-- A call, where to go on with its result, and the shared data; nothing, if the thread cannot go
on. -/
abbrev Next (n : ℕ) : Type :=
  Option (Call (TokenPc n) × (Option ℕ → TokenPc n) × TokenShared n)

/-- The call that creates `sync_prim`, in the build. -/
def makes (T : TokenServer n) : Call (TokenPc n) :=
  match T.build with
  | .lock => .lockCreate
  | .semaphore => .semCreate

/-- The call with which a thread waits for the token, in the build. -/
def takes (T : TokenServer n) (p : Addr) : Call (TokenPc n) :=
  match T.build with
  | .lock => .acquire p
  | .semaphore => .semP p

/-- The call with which a thread gives the token away, and where the thread goes on. In the build
with the lock this call waits for the token as well. -/
def gives (T : TokenServer n) (p : Addr) (c : Fin n) : Call (TokenPc n) × TokenPc n :=
  match T.build with
  | .lock => (.releaseAcquire p, .reply c)
  | .semaphore => (.semV p, .posted c)

/-- `process_message`, from the receipt of a request to the first call of the thread library. -/
def processMessage (T : TokenServer n) (v : View) (g : TokenShared n) (c : Fin n) :
    TokenRequest → Next n
  | .init => some (.cspaceAlloc, fun _ => .inited c g.clientNew, g.initialClient)
  | .wait => g.syncPrim.map fun p =>
    (T.takes p, fun _ => .reply c, g.processMessageMulticast.saveCaller v.slot)
  | .sendWait => g.syncPrim.map fun p =>
    ((T.gives p c).1, fun _ => (T.gives p c).2, g.saveCaller v.slot)
  | .tmnt => some (.exit, fun _ => .done, g.terminate c)
  | .immd => some (.pause, fun _ => .recv, g)

/-- The user code of all threads. At `seL4_Recv` the endpoint chooses the client. -/
def next (T : TokenServer n) (e : Option (Fin n)) (v : View) (u : TokenPc n) (g : TokenShared n) :
    Next n :=
  match u with
  | .start => some (.lockCreate, .pooled, g)
  -- the assertions that the primitives have been created
  | .pooled none => none
  | .pooled (some q) => some (T.makes, .made, { g with lockUniverse := some q })
  | .made none => none
  | .made (some p) => some (.pause, fun _ => .creation, { g with syncPrim := some p })
  | .creation =>
    match T.threads with
    -- `assert(num > 0)`
    | 0 => none
    | left + 1 => some (.create .recv, fun r => .creating left (r.getD 0), g)
  | .creating 0 res => some (.resume res, fun _ => .done, g)
  | .creating (left + 1) _ => some (.create .recv, fun r => .creating left (r.getD 0), g)
  | .done => none
  | .recv =>
    match e with
    | none => none
    | some c =>
      match (g.client c).phase with
      | .asked r => some (.pause, fun _ => .got c r, g.receive c r)
      | _ => none
  | .got c r => T.processMessage v g c r
  | .inited _ id =>
    -- `reply_eps` has `CLIENT_MAX` entries
    if id < clientMax then
      some (.pause, fun _ => .recv, (g.saveCaller v.slot).registerClient id v.slot)
    else none
  | .posted c => g.syncPrim.map fun p => (.semP p, fun _ => .reply c, g)
  | .reply _ => some (.pause, fun _ => .recv, g.send v.slot none)

/-- A client makes its next call, if it may. -/
def call (e : Fin n × TokenRequest) (g : TokenShared n) : Option (TokenShared n) :=
  if (g.client e.1).may e.2 then some (g.setClient e.1 ((g.client e.1).ask e.2)) else none

/-- **The server as a program**, with the clients as its environment. -/
def program (T : TokenServer n) :
    Program (TokenPc n) (TokenShared n) (Option (Fin n)) (Fin n × TokenRequest) where
  main := .start
  init g := g = .initialClientPool n
  next := T.next
  env := call

/-- `sync_prim->held = 1` in `main_continued`, in the build with the lock. -/
def takeLock (T : TokenServer n) (m : Mach (TokenPc n) (TokenShared n)) :
    Mach (TokenPc n) (TokenShared n) :=
  match T.build, m.cpu with
  | .lock, .user (.made (some p)) =>
    { m with st := m.st.setHeld p 1 }
  | _, _ => m

/-- One step of the server: the write of `held` comes with the next call of thread 0. -/
def step (T : TokenServer n) (m : Mach (TokenPc n) (TokenShared n)) :
    Label (Option (Fin n)) (Fin n × TokenRequest) →
      Except Fault (Mach (TokenPc n) (TokenShared n))
  | .call e al => (T.takeLock m).step T.program (.call e al)
  | l => m.step T.program l

/-- **The runs of the server**, with clients that do whatever they may. -/
def runs (T : TokenServer n) :
    Lts (Mach (TokenPc n) (TokenShared n)) (Label (Option (Fin n)) (Fin n × TokenRequest)) where
  init := T.program.runs.init
  step m l m' := T.step m l = .ok m'

/-- The machine on which the server starts, with a blank memory. -/
def boot (T : TokenServer n) : Mach (TokenPc n) (TokenShared n) :=
  Mach.boot T.program State.zero 0 0 (.initialClientPool n)

theorem boot_init (T : TokenServer n) : T.runs.init T.boot :=
  ⟨State.zero, 0, 0, _, State.zero_blank, rfl, rfl⟩

/-- The running thread goes on, with the blocks `k`. -/
def go (k : ℕ) : Label (Option (Fin n)) (Fin n × TokenRequest) := .call none (.at k)

/-- Client `c` makes a call, and the running thread receives it at once. -/
def asks (c : Fin n) (r : TokenRequest) : List (Label (Option (Fin n)) (Fin n × TokenRequest)) :=
  [.env (c, r), .call (some c) (.at 0)]

/-- `main_continued` with two threads, `INIT` of both clients, `WAIT` of client 0, whose thread
sleeps, and `SEND_WAIT` of client 1, with which client 0 gets the token. -/
def twoClients : List (Label (Option (Fin 2)) (Fin 2 × TokenRequest)) :=
  [go 1, go 2, go 0, go 1, go 2, go 0] ++ asks 0 .init ++ [go 5, go 0] ++ asks 1 .init ++
    [go 6, go 0] ++ asks 0 .wait ++ [go 0, .turn] ++ asks 1 .sendWait ++ [go 0, .turn, go 0]

end TokenServer

/-- A point of `main_continued`, where only thread 0 can be. -/
def TokenPc.InMain {n : ℕ} : TokenPc n → Prop
  | .start | .pooled _ | .made _ | .creation | .creating _ _ => True
  | _ => False

/-- A point of `server_loop`, where only the other threads can be. -/
def TokenPc.InLoop {n : ℕ} : TokenPc n → Prop
  | .recv | .got _ _ | .inited _ _ | .posted _ | .reply _ => True
  | _ => False

namespace TokenServer

variable {n : ℕ} {T : TokenServer n} {v : View} {g g' : TokenShared n} {u w : TokenPc n}
  {c : Fin n}

/-! ## What the threads do -/

/-- What a server thread does at `u` without the library: where it goes on, and the shared data. Its
slot is `sl`. -/
inductive Does (sl : ℕ) (g : TokenShared n) : TokenPc n → TokenPc n → TokenShared n → Prop where
  | recv {c : Fin n} {r : TokenRequest} (h : (g.client c).phase = .asked r) :
    Does sl g .recv (.got c r) (g.receive c r)
  | register {c : Fin n} {id : ℕ} (h : id < clientMax) :
    Does sl g (.inited c id) .recv ((g.saveCaller sl).registerClient id sl)
  | immd {c : Fin n} : Does sl g (.got c .immd) .recv g
  | reply {c : Fin n} : Does sl g (.reply c) .recv (g.send sl none)

/-- A server thread begins to wait for the token, for client `c`. With the semaphore, also behind
`thread_semaphore_V`. -/
inductive Enters (T : TokenServer n) (sl : ℕ) (g : TokenShared n) :
    TokenPc n → Fin n → TokenShared n → Prop where
  | wait {c : Fin n} : Enters T sl g (.got c .wait) c (g.processMessageMulticast.saveCaller sl)
  | posted {c : Fin n} (hb : T.build = .semaphore) : Enters T sl g (.posted c) c g

/-- **What a server thread does** at `u`: its call, where it goes on, and the shared data. -/
inductive Calls (T : TokenServer n) (sl : ℕ) (g : TokenShared n) :
    TokenPc n → Call (TokenPc n) → TokenPc n → TokenShared n → Prop where
  | pause {u w : TokenPc n} {g' : TokenShared n} (h : Does sl g u w g') : Calls T sl g u .pause w g'
  | init {c : Fin n} :
    Calls T sl g (.got c .init) .cspaceAlloc (.inited c g.clientNew) g.initialClient
  | tmnt {c : Fin n} : Calls T sl g (.got c .tmnt) .exit .done (g.terminate c)
  | acquire {u : TokenPc n} {c : Fin n} {p : Addr} {g' : TokenShared n} (hb : T.build = .lock)
    (h : Enters T sl g u c g') (hp : g.syncPrim = some p) :
    Calls T sl g u (.acquire p) (.reply c) g'
  | semP {u : TokenPc n} {c : Fin n} {p : Addr} {g' : TokenShared n} (hb : T.build = .semaphore)
    (h : Enters T sl g u c g') (hp : g.syncPrim = some p) :
    Calls T sl g u (.semP p) (.reply c) g'
  | releaseAcquire {c : Fin n} {p : Addr} (hb : T.build = .lock) (hp : g.syncPrim = some p) :
    Calls T sl g (.got c .sendWait) (.releaseAcquire p) (.reply c) (g.saveCaller sl)
  | semV {c : Fin n} {p : Addr} (hb : T.build = .semaphore) (hp : g.syncPrim = some p) :
    Calls T sl g (.got c .sendWait) (.semV p) (.posted c) (g.saveCaller sl)

/-- In the build with the lock no thread is behind `thread_semaphore_V`, because it does not call
it. -/
def Fits (T : TokenServer n) : TokenPc n → Prop
  | .posted _ => T.build = .semaphore
  | _ => True

theorem Enters.calls {sl : ℕ} {p : Addr} (h : Enters T sl g u c g') (hp : g.syncPrim = some p) :
    Calls T sl g u (T.takes p) (.reply c) g' := by
  unfold takes
  split
  · rename_i hb
    exact .acquire hb h hp
  · rename_i hb
    exact .semP hb h hp

theorem gives_calls {sl : ℕ} {p : Addr} (hp : g.syncPrim = some p) :
    Calls T sl g (.got c .sendWait) (T.gives p c).1 (T.gives p c).2 (g.saveCaller sl) := by
  unfold gives
  split
  · rename_i hb
    exact .releaseAcquire hb hp
  · rename_i hb
    exact .semV hb hp

/-- **Inversion.** A step of user code in `server_loop` is one of those of `Calls`. -/
theorem next_calls (hu : u.InLoop) (hfit : T.Fits u) {e : Option (Fin n)} {cl : Call (TokenPc n)}
    {ret : Option ℕ → TokenPc n} (h : T.program.next e v u g = some (cl, ret, g')) :
    ∃ w, ret = (fun _ => w) ∧ Calls T v.slot g u cl w g' := by
  change T.next e v u g = _ at h
  cases u with
  | start | pooled | made | creation | creating | done => exact hu.elim
  | recv =>
    simp only [next] at h
    split at h
    · cases h
    · split at h
      · rename_i hc
        cases h
        exact ⟨_, rfl, .pause (.recv hc)⟩
      · cases h
  | got c r =>
    cases r with
    | init =>
      cases h
      exact ⟨_, rfl, .init⟩
    | wait =>
      obtain ⟨p, hp, he⟩ := Option.map_eq_some_iff.mp h
      cases he
      exact ⟨_, rfl, Enters.wait.calls hp⟩
    | sendWait =>
      obtain ⟨p, hp, he⟩ := Option.map_eq_some_iff.mp h
      cases he
      exact ⟨_, rfl, gives_calls hp⟩
    | tmnt =>
      cases h
      exact ⟨_, rfl, .tmnt⟩
    | immd =>
      cases h
      exact ⟨_, rfl, .pause .immd⟩
  | inited c id =>
    simp only [next] at h
    split at h
    · rename_i hid
      cases h
      exact ⟨_, rfl, .pause (.register hid)⟩
    · cases h
  | posted c =>
    obtain ⟨p, hp, he⟩ := Option.map_eq_some_iff.mp h
    cases he
    exact ⟨_, rfl, .semP hfit (.posted hfit) hp⟩
  | reply c =>
    cases h
    exact ⟨_, rfl, .pause .reply⟩

/-- **What thread 0 does** at `u`: its call, where it goes on with the result, and the shared
data. -/
inductive Sets (T : TokenServer n) (g : TokenShared n) :
    TokenPc n → Call (TokenPc n) → (Option ℕ → TokenPc n) → TokenShared n → Prop where
  | pool : Sets T g .start .lockCreate .pooled g
  | lock {q : Addr} (hb : T.build = .lock) :
    Sets T g (.pooled (some q)) .lockCreate .made { g with lockUniverse := some q }
  | semaphore {q : Addr} (hb : T.build = .semaphore) :
    Sets T g (.pooled (some q)) .semCreate .made { g with lockUniverse := some q }
  | held {p : Addr} :
    Sets T g (.made (some p)) .pause (fun _ => .creation) { g with syncPrim := some p }
  | first {left : ℕ} (h : T.threads = left + 1) :
    Sets T g .creation (.create .recv) (fun r => .creating left (r.getD 0)) g
  | create {left res : ℕ} :
    Sets T g (.creating (left + 1) res) (.create .recv) (fun r => .creating left (r.getD 0)) g
  | resume {res : ℕ} : Sets T g (.creating 0 res) (.resume res) (fun _ => .done) g

/-- **Inversion** for `main_continued`. A step of user code there is one of those of `Sets`. -/
theorem next_sets (hu : u.InMain) {e : Option (Fin n)} {cl : Call (TokenPc n)}
    {ret : Option ℕ → TokenPc n} (h : T.program.next e v u g = some (cl, ret, g')) :
    Sets T g u cl ret g' := by
  change T.next e v u g = _ at h
  cases u with
  | start =>
    cases h
    exact .pool
  | pooled p =>
    cases p with
    | none => cases h
    | some q =>
      simp only [next, makes] at h
      split at h
      · rename_i hb
        cases h
        exact .lock hb
      · rename_i hb
        cases h
        exact .semaphore hb
  | made p =>
    cases p with
    | none => cases h
    | some p =>
      cases h
      exact .held
  | creation =>
    simp only [next] at h
    split at h
    · cases h
    · rename_i left hleft
      cases h
      exact .first hleft
  | creating left res =>
    cases left with
    | zero =>
      cases h
      exact .resume
    | succ left =>
      cases h
      exact .create
  | _ => exact hu.elim

/-- Thread 0 sets up and hands over, once and for all. -/
theorem handover (T : TokenServer n) : T.program.Handover TokenPc.InMain (· = .done) where
  start := trivial
  next hu hn := by
    cases next_sets hu hn with
    | pool => exact .inl ⟨trivial, fun _ => trivial⟩
    | lock => exact .inl ⟨trivial, fun _ => trivial⟩
    | semaphore => exact .inl ⟨trivial, fun _ => trivial⟩
    | held => exact .inl ⟨trivial, fun _ => trivial⟩
    | first => exact .inl ⟨trivial, fun _ => trivial⟩
    | create => exact .inl ⟨trivial, fun _ => trivial⟩
    | resume => exact .inr ⟨⟨_, rfl⟩, rfl⟩
  stop hu := by
    subst hu
    rfl

end TokenServer

/-! ## The write of `main_continued` -/

/-- `lock->held = v` on the abstract machine. -/
def AMach.setHeld {U G : Type} (a : AMach U G) (lock : Addr) (v : ℤ) : AMach U G :=
  { a with held := Function.update a.held lock v }

theorem Sim.setHeld {U G A E : Type} {P : Program U G A E} {clean : Prop} {m : Mach U G}
    {a : AMach U G} (h : Sim P clean m a) (lock : Addr) (v : ℤ) :
    Sim P clean { m with st := m.st.setHeld lock v } (a.setHeld lock v) := by
  have hst : m.st.setHeld lock v = m.st.setLock lock (m.st.helder lock) v := by
    rw [State.setHeld, State.setLock, Function.update_eq_self]
  have ha : a.setHeld lock v = a.setLock lock (m.st.helder lock) v := by
    rw [AMach.setHeld, AMach.setLock, h.helder, Function.update_eq_self]
  rw [hst, ha]
  exact h.setLock lock _ v

namespace TokenServer

variable {n : ℕ} {T : TokenServer n} {m : Mach (TokenPc n) (TokenShared n)}
  {a : AMach (TokenPc n) (TokenShared n)}

/-- The write of `held`, on the abstract machine, when thread 0 is in front of it. -/
def writes (T : TokenServer n) (a : AMach (TokenPc n) (TokenShared n)) :
    AMach (TokenPc n) (TokenShared n) :=
  match T.build, a.sched.running.map a.frame with
  | .lock, some (.user (.made (some p))) => a.setHeld p 1
  | _, _ => a

/-- Both machines make the same write, because the processor is at what the running thread is at. -/
theorem takeLock_sim (h : Sim T.program False m a) :
    Sim T.program False (T.takeLock m) (T.writes a) := by
  rcases hr : a.sched.running with _ | i
  · -- thread 0 is done, so it is not at the assignment
    obtain ⟨-, -, u, hu, hidle⟩ := h.idle hr
    have hm : T.takeLock m = m := by
      unfold takeLock
      split
      · rename_i p hb hcpu
        obtain rfl := Frame.user.inj (hu.symm.trans hcpu)
        exact absurd (hidle none m.st.view m.g) (by simp [program, next])
      · rfl
    have ha : T.writes a = a := by
      unfold writes
      rw [hr]
      split
      · rename_i hfr
        cases hfr
      · rfl
    rwa [hm, ha]
  · unfold takeLock writes
    rw [hr, Option.map_some, ← h.cpu i hr]
    split
    · rename_i p hb hcpu
      have hset := h.setHeld p 1
      rw [hcpu] at hset
      simpa only [hb, hcpu] using hset
    · rename_i hno
      split
      · rename_i p hb hcpu
        exact absurd (Option.some.inj hcpu) (hno p hb)
      · exact h

end TokenServer

end GreenLib
