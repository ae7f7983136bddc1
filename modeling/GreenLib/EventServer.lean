import GreenLib.Continuation

/-!
# The event-driven server

`main.c` in the build `EVENT_CONTINUATION`: one server thread that never waits for the buffer. A
request that cannot be served is stored in a continuation ring (`GreenLib.Continuation`). When a
request changes the buffer and a continuation of the other role is stored, the server sends its
index to a helper thread, and the helper sends it back to the server's own endpoint as a
`PRODUCER_CONTI` or `CONSUMER_CONTI` message. Both sends are synchronous.

The clients are not modelled further: at `seL4_Recv` the server may be given any request at any
time, and the helper's message only when the endpoint chooses it. The received requests are
numbered (`received`), and `tag`, `current` and `done` are history variables that say which of them
a slot, the handler and the recorded orders belong to.

Two things are shown. As long as a request that arrives while the helper has a message in hand does
not retrieve a continuation, the two threads never block on each other (`server_helper_live`). As
long as, besides, the second test of the buffer, in the handler of a forwarded message, passes, no
request is lost, duplicated or altered (`requests_kept`): whenever the server is in `seL4_Recv` each
one is recorded, stored, or in a slot that a message carries, and a request whose handler is in
`seL4_Send(helper_ep)` is recorded by the next step. For both a run is given that shows what happens
otherwise.
-/

namespace GreenLib

/-! ## Messages and data -/

/-- A `PRODUCER` or `CONSUMER` message, with the contents of its two message registers. -/
structure Order : Type where
  role : Role
  orderI : ℤ
  orderJ : ℤ
  deriving DecidableEq

/-- A `PRODUCER_CONTI` or `CONSUMER_CONTI` message, with the index in message register 0. -/
structure ContiMsg : Type where
  role : Role
  index : ℕ
  deriving DecidableEq

/-- The rings and the recorded orders, with the history of the requests. `process_message` works on
nothing else but the buffer and two counters. -/
structure Store : Type where
  /-- the continuations of both roles -/
  ring : Role → Ring
  /-- `order_is`, up to `order_i_cur` -/
  orderIs : List ℤ
  /-- `order_js`, up to `order_j_cur` -/
  orderJs : List ℤ
  /-- history: all requests, in the order they were received -/
  received : List Order
  /-- history: the request a slot was last filled for -/
  tag : Role → ℕ → ℕ
  /-- history: the request the server is working on -/
  current : ℕ
  /-- history: the requests whose orders were recorded, in this order -/
  done : List ℕ

/-- The length of `order_is` and `order_js`, which is not checked by the handlers. -/
def maxOrders : ℕ := 6000

namespace Store

/-- A new request arrives, gets the next number, and is the one the server works on. -/
def receive (d : Store) (o : Order) : Store :=
  { d with received := d.received ++ [o], current := d.received.length }

/-- `save_continuation`, which notes in the history for which request the slot is. -/
def save (d : Store) (role : Role) (orderI orderJ : ℤ) : Except Fault Store := do
  let r ← (d.ring role).saveContinuation orderI orderJ
  .ok { d with
    ring := Function.update d.ring role r
    tag := Function.update d.tag role
      (Function.update (d.tag role) (d.ring role).last d.current) }

/-- `restore_continuation` for a forwarded message, with the two numbers it reads from the slot. -/
def restore (d : Store) (m : ContiMsg) : Except Fault (Store × ℤ × ℤ) := do
  let (r, orderI, orderJ) ← (d.ring m.role).restoreContinuation m.index
  .ok ({ d with ring := Function.update d.ring m.role r }, orderI, orderJ)

/-- `retrieve_start_conti` on the ring of one role, with the index it returns. -/
def retrieve (d : Store) (role : Role) : Store × Option ℕ :=
  let res := (d.ring role).retrieveStartConti
  ({ d with ring := Function.update d.ring role res.1 }, res.2)

/-- `order_is[order_i_cur ++] = order_i; order_js[order_j_cur ++] = order_j;` Behind the end of an
array there is a fault. -/
def record (d : Store) (orderI orderJ : ℤ) : Except Fault Store :=
  if d.orderIs.length < maxOrders ∧ d.orderJs.length < maxOrders then
    .ok { d with
      orderIs := d.orderIs ++ [orderI]
      orderJs := d.orderJs ++ [orderJ]
      done := d.done ++ [d.current] }
  else .error .bounds

/-- The data that `initial_client_pool` sets up: two empty rings and no orders. -/
def initial : Store where
  ring _ := .initial
  orderIs := []
  orderJs := []
  received := []
  tag _ _ := 0
  current := 0
  done := []

end Store

/-! ## The two threads -/

/-- Where the server is. Its steps lead from one blocking system call to the next. -/
inductive ServerPc : Type where
  /-- in `seL4_Recv(env.endpoint)` -/
  | recv
  /-- in `seL4_Send(helper_ep)`; the orders are still to be recorded, and `reply` is the result of
  `process_message` -/
  | sending (m : ContiMsg) (orderI orderJ : ℤ) (reply : Bool)
  /-- in `seL4_Send(client_ep)` -/
  | replying
  deriving DecidableEq

/-- Where the helper is in its loop of receiving and sending. -/
inductive HelperPc : Type where
  /-- in `seL4_Recv(helper_ep)` -/
  | recv
  /-- behind it -/
  | got (m : ContiMsg)
  /-- in `seL4_Send(env.endpoint)` -/
  | sending (m : ContiMsg)
  deriving DecidableEq

structure EventServer : Type where
  store : Store
  /-- `buffer` and `buffer_limit` -/
  buf : Buffer
  /-- `wait_count` -/
  waitCount : ℕ
  /-- `terminate_num` -/
  terminateNum : ℕ
  server : ServerPc
  helper : HelperPc

namespace EventServer

/-- The end of a handler: the orders are recorded and `process_message` returns. -/
def finish (s : EventServer) (orderI orderJ : ℤ) (reply : Bool) : Except Fault EventServer := do
  let d ← s.store.record orderI orderJ
  .ok { s with store := d, server := if reply then .replying else .recv }

/-- A handler whose test of the buffer passed: it changes the buffer, and continues a stored request
of the other role if there is one. -/
def proceed (s : EventServer) (role : Role) (orderI orderJ : ℤ) (reply : Bool) :
    Except Fault EventServer := do
  check (s.buf.allowed role)
  let (d, startConti) := s.store.retrieve role.other
  let s := { s with buf := s.buf.change role, store := d }
  match startConti with
  | some i => .ok { s with server := .sending ⟨role.other, i⟩ orderI orderJ reply }
  | none => s.finish orderI orderJ reply

/-- A handler that stores its request and returns. No answer is sent. -/
def defer (s : EventServer) (role : Role) (orderI orderJ : ℤ) : Except Fault EventServer := do
  let d ← s.store.save role orderI orderJ
  .ok { s with store := d, waitCount := s.waitCount + 1, server := .recv }

/-- The cases `PRODUCER` and `CONSUMER` of `process_message`, which do the same with the roles
exchanged. -/
def onOrder (s : EventServer) (o : Order) : Except Fault EventServer :=
  let s := { s with store := s.store.receive o }
  if s.buf.blocked o.role then s.defer o.role o.orderI o.orderJ
  else s.proceed o.role o.orderI o.orderJ false

/-- The cases `PRODUCER_CONTI` and `CONSUMER_CONTI` of `process_message`; `mr1` is what message
register 1 happens to hold. Only `CONSUMER_CONTI` calls `save_continuation` again, and only it
answers. -/
def onConti (s : EventServer) (m : ContiMsg) (mr1 : ℤ) : Except Fault EventServer :=
  let s := { s with store := { s.store with current := s.store.tag m.role m.index } }
  if s.buf.blocked m.role then
    match m.role with
    | .producer => .ok { s with waitCount := s.waitCount + 1, server := .recv }
    | .consumer => s.defer .consumer m.index mr1
  else do
    let (d, orderI, orderJ) ← s.store.restore m
    { s with store := d }.proceed m.role orderI orderJ (m.role == Role.consumer)

/-- What one step of the two threads and the clients is. A rendezvous is one step of both
parties. -/
inductive Label : Type where
  /-- the server receives a request of a client -/
  | order (o : Order)
  /-- the server receives a `TMNT` message -/
  | tmnt
  /-- the helper receives the server's message -/
  | pass
  /-- the helper calls `seL4_Send` -/
  | forward
  /-- the server receives the helper's message -/
  | conti (mr1 : ℤ)
  /-- a client receives the server's answer -/
  | answer
  deriving DecidableEq

/-- One step, if the threads are where it begins. -/
def step (s : EventServer) : Label → Except Fault EventServer
  | .order o => if s.server = .recv then s.onOrder o else .error .disabled
  | .tmnt =>
    if s.server = .recv then .ok { s with terminateNum := s.terminateNum + 1 }
    else .error .disabled
  | .pass =>
    match s.server, s.helper with
    | .sending m orderI orderJ reply, .recv =>
      { s with helper := .got m }.finish orderI orderJ reply
    | _, _ => .error .disabled
  | .forward =>
    match s.helper with
    | .got m => .ok { s with helper := .sending m }
    | _ => .error .disabled
  | .conti mr1 =>
    match s.server, s.helper with
    | .recv, .sending m => { s with helper := .recv }.onConti m mr1
    | _, _ => .error .disabled
  | .answer =>
    if s.server = .replying then .ok { s with server := .recv } else .error .disabled

/-- The server and the helper when they start: both are ready to receive, and the buffer is
empty. -/
def initial (limit : ℤ) : EventServer := ⟨.initial, ⟨0, limit⟩, 0, 0, .recv, .recv⟩

/-- **The runs** with a given `buffer_limit`. The requests come in any order and number. -/
def runs (limit : ℤ) : Lts EventServer Label where
  init s := s = initial limit
  step s l s' := s.step l = .ok s'

end EventServer

/-! ## The two threads and each other -/

/-- The message the server is sending to the helper, if it is at that send. -/
def ServerPc.msg : ServerPc → Option ContiMsg
  | .sending m _ _ _ => some m
  | _ => none

/-- The message the helper has received and the server has not, whether or not it is at its send. -/
def HelperPc.msg : HelperPc → Option ContiMsg
  | .recv => none
  | .got m => some m
  | .sending m => some m

namespace EventServer

/-- The server waits for the helper and the helper waits for the server. There is no third thread to
receive their messages. -/
def Stuck (s : EventServer) : Prop :=
  (∃ m a b reply, s.server = .sending m a b reply) ∧ ∃ m, s.helper = .sending m

/-- A request that arrives while the helper has a message in hand retrieves a continuation: it is
not stored, and one of the other role is. -/
def overtakes (s : EventServer) : Label → Bool
  | .order o => s.helper != .recv && !s.buf.blocked o.role &&
    (s.store.ring o.role.other).start.isSome
  | _ => false

variable {s s' : EventServer}

/-- While the server is sending, the helper is ready to receive, so the send comes to its end. -/
def Meets (s : EventServer) : Prop := s.server.msg ≠ none → s.helper = .recv

theorem finish_server {a b : ℤ} {reply : Bool} (hs : s.finish a b reply = .ok s') :
    s'.server.msg = none := by
  obtain ⟨d, -, hs⟩ := bind_eq_ok hs
  obtain rfl := Except.ok.inj hs
  cases reply <;> rfl

/-- A handler sends to the helper only what it has retrieved, and does not change where the helper
is. -/
theorem proceed_server {role : Role} {a b : ℤ} {reply : Bool}
    (hs : s.proceed role a b reply = .ok s') (hmsg : s'.server.msg ≠ none) :
    (s.store.ring role.other).start.isSome ∧ s'.helper = s.helper := by
  obtain ⟨_, -, hs⟩ := bind_eq_ok hs
  have hstart : (s.store.retrieve role.other).2 = (s.store.ring role.other).start :=
    Ring.retrieveStartConti_snd _
  rcases hq : (s.store.ring role.other).start with _ | i
  · simp only [hstart, hq] at hs
    exact absurd (finish_server hs) hmsg
  · simp only [hstart, hq] at hs
    obtain rfl := Except.ok.inj hs
    exact ⟨rfl, rfl⟩

theorem defer_server {role : Role} {a b : ℤ} (hs : s.defer role a b = .ok s') :
    s'.server.msg = none := by
  obtain ⟨d, -, hs⟩ := bind_eq_ok hs
  obtain rfl := Except.ok.inj hs
  rfl

theorem step_meets (h : s.Meets) {l : Label} (hok : s.overtakes l = false)
    (hs : s.step l = .ok s') : s'.Meets := by
  intro hmsg
  cases l with
  | order o =>
    simp only [step] at hs
    split at hs
    case isFalse => cases hs
    simp only [onOrder] at hs
    split at hs
    · exact absurd (defer_server hs) hmsg
    · rename_i hblocked
      obtain ⟨hstart, hhelper⟩ := proceed_server hs hmsg
      rw [hhelper]
      change (s.store.ring o.role.other).start.isSome at hstart
      change ¬ s.buf.blocked o.role = true at hblocked
      by_contra hne
      simp [overtakes, hblocked, hstart, hne] at hok
  | tmnt =>
    simp only [step] at hs
    split at hs
    · obtain rfl := Except.ok.inj hs
      exact h hmsg
    · cases hs
  | pass =>
    simp only [step] at hs
    split at hs
    · exact absurd (finish_server hs) hmsg
    · cases hs
  | forward =>
    simp only [step] at hs
    split at hs
    · rename_i m hhelper
      obtain rfl := Except.ok.inj hs
      rw [h hmsg] at hhelper
      cases hhelper
    · cases hs
  | conti mr1 =>
    simp only [step] at hs
    split at hs
    case h_2 => cases hs
    rename_i m hserver hhelper
    simp only [onConti] at hs
    split at hs
    · split at hs
      · obtain rfl := Except.ok.inj hs
        rfl
      · exact absurd (defer_server hs) hmsg
    · obtain ⟨_, -, hs⟩ := bind_eq_ok hs
      exact (proceed_server hs hmsg).2
  | answer =>
    simp only [step] at hs
    split at hs
    · obtain rfl := Except.ok.inj hs
      exact absurd rfl hmsg
    · cases hs

/-- In every run in which no request retrieves a continuation while the helper has a message in
hand, the helper is ready whenever the server sends. -/
theorem meets_of_reach {limit : ℤ}
    (h : Reach ((EventServer.runs limit).guard fun s l => s.overtakes l = false) s) : s.Meets := by
  refine Reach.invariant (P := Meets) ?_ ?_ h
  · rintro s rfl -
    rfl
  · intro s l s' _ hmeets hstep
    exact step_meets hmeets hstep.1 hstep.2

end EventServer

open EventServer

/-- **The server and the helper never block on each other**, in every run in which no request
retrieves a continuation while the helper has a message in hand. -/
theorem server_helper_live {limit : ℤ} {s : EventServer}
    (h : Reach ((EventServer.runs limit).guard fun s l => s.overtakes l = false) s) :
    ¬ s.Stuck := by
  rintro ⟨⟨m, a, b, reply, hserver⟩, m', hhelper⟩
  rw [meets_of_reach h (by simp [hserver, ServerPc.msg])] at hhelper
  cases hhelper

/-- A producer is continued while a second one waits. Here the helper is sending and the server
receives. -/
theorem server_helper_live_waiting :
    ∃ s, Reach ((EventServer.runs 1).guard fun s l => s.overtakes l = false) s ∧
      s.helper = .sending ⟨.producer, 0⟩ ∧ ¬ s.Stuck := by
  obtain ⟨s, hs, ho⟩ := Reach.exists_of_exec
    (T := (EventServer.runs 1).guard fun s l => s.overtakes l = false)
    (fun s l => if s.overtakes l = false then s.step l else .error .disabled)
    (fun s l s' h => by
      split at h
      · exact ⟨‹_›, h⟩
      · cases h)
    (.init rfl) [.order ⟨.producer, 5, 0⟩, .order ⟨.producer, 6, 0⟩, .order ⟨.producer, 7, 0⟩,
      .order ⟨.consumer, 8, 0⟩, .pass, .forward]
    (fun s => s.helper = .sending ⟨.producer, 0⟩) (by decide)
  exact ⟨s, hs, ho, server_helper_live hs⟩

/-- **Both threads can be sending at once.** A consumer has continued a waiting producer, whose
message the helper is forwarding; the next consumer has to wait, and a new producer continues it. -/
theorem server_and_helper_block : ∃ s, Reach (EventServer.runs 1) s ∧ s.Stuck := by
  obtain ⟨s, hs, hserver, hhelper⟩ := Reach.exists_of_exec (T := EventServer.runs 1)
    EventServer.step (fun _ _ _ h => h) (.init rfl)
    [.order ⟨.producer, 1, 1⟩, .order ⟨.producer, 2, 2⟩, .order ⟨.consumer, 3, 3⟩, .pass, .forward,
      .order ⟨.consumer, 4, 4⟩, .order ⟨.producer, 5, 5⟩]
    (fun s => s.server = .sending ⟨.consumer, 0⟩ 5 5 false ∧ s.helper = .sending ⟨.producer, 0⟩)
    (by decide)
  exact ⟨s, hs, ⟨_, _, _, _, hserver⟩, _, hhelper⟩

/-! ## Where the requests are -/

/-- The slots that the messages `fl` carry for a role, in the order of the messages. -/
def slotsOf (fl : List ContiMsg) (role : Role) : List ℕ :=
  (fl.filter fun m => m.role = role).map (·.index)

theorem slotsOf_cons_self (fl : List ContiMsg) (m : ContiMsg) :
    slotsOf (m :: fl) m.role = m.index :: slotsOf fl m.role := by
  simp [slotsOf]

theorem slotsOf_cons_of_ne (fl : List ContiMsg) {m : ContiMsg} {role : Role} (h : m.role ≠ role) :
    slotsOf (m :: fl) role = slotsOf fl role := by
  simp [slotsOf, h]

/-- One more message, or none, for a role: its slot comes last. -/
theorem slotsOf_append_self (fl : List ContiMsg) (role : Role) (i : Option ℕ) :
    slotsOf (fl ++ (i.map (ContiMsg.mk role)).toList) role = slotsOf fl role ++ i.toList := by
  cases i <;> simp [slotsOf]

theorem slotsOf_append_of_ne (fl : List ContiMsg) {role role' : Role} (h : role ≠ role')
    (i : Option ℕ) :
    slotsOf (fl ++ (i.map (ContiMsg.mk role)).toList) role' = slotsOf fl role' := by
  cases i <;> simp [slotsOf, h]

theorem head?_toList_append_tail (l : List ℕ) : l.head?.toList ++ l.tail = l := by
  cases l <;> rfl

/-- The bookkeeping is right: the messages `fl` are in flight, `hand` are the requests that the
server is working on, and the slots `qs` are queued. The slots in flight, the queued ones and the
next free one follow each other. -/
structure Store.Keeps (d : Store) (fl : List ContiMsg) (hand : List ℕ)
    (qs : Role → List ℕ) : Prop where
  holds : ∀ role, (d.ring role).Holds (slotsOf fl role) (qs role)
  chain : ∀ role, (slotsOf fl role ++ (qs role ++ [(d.ring role).last])).IsChain
    (fun i j => nextConti i = j)
  /-- each slot in use belongs to a request and holds its orders -/
  data : ∀ role, ∀ i ∈ slotsOf fl role ++ qs role, ∃ o, d.received[d.tag role i]? = some o ∧
    o.role = role ∧ (d.ring role).slots i = ⟨o.orderI, o.orderJ, true⟩
  orderIs : d.orderIs.map some = d.done.map fun k => (d.received[k]?).map (·.orderI)
  orderJs : d.orderJs.map some = d.done.map fun k => (d.received[k]?).map (·.orderJ)
  /-- each request is in exactly one place -/
  count : ∀ role k, d.done.count k + hand.count k +
    ((slotsOf fl role ++ qs role).map (d.tag role)).count k +
    ((slotsOf fl role.other ++ qs role.other).map (d.tag role.other)).count k =
      if k < d.received.length then 1 else 0

namespace Store.Keeps

variable {d d' : Store} {fl : List ContiMsg} {hand : List ℕ} {qs : Role → List ℕ} {role : Role}

theorem initial : Store.Keeps .initial [] [] fun _ => [] where
  holds _ := Ring.initial_holds
  chain _ := .singleton _
  data _ i hi := by cases hi
  orderIs := rfl
  orderJs := rfl
  count _ k := by simp [Store.initial, slotsOf]

/-- The equation for one role gives the one for the other, since it has both. -/
theorem count_of_role (role : Role) {f : Role → ℕ} {n m : ℕ} (h : n + f role + f role.other = m) :
    ∀ role', n + f role' + f role'.other = m := by
  intro role'
  rcases role.eq_or_eq_other role' with rfl | rfl
  · exact h
  · rw [Role.other_other]
    omega

/-- The number of a request that is listed is that of a request that has been received. -/
theorem tag_lt (h : Store.Keeps d fl hand qs) {i : ℕ} (hi : i ∈ slotsOf fl role ++ qs role) :
    d.tag role i < d.received.length := by
  obtain ⟨o, ho, -⟩ := h.data role i hi
  exact (List.getElem?_eq_some_iff.mp ho).1

theorem done_lt (h : Store.Keeps d fl hand qs) {k : ℕ} (hk : k ∈ d.done) :
    k < d.received.length := by
  have hc := h.count .producer k
  have hpos := List.count_pos_iff.mpr hk
  by_contra hlt
  rw [if_neg hlt] at hc
  omega

/-- **A request arrives.** It is in the hand of the server, and in no slot. -/
theorem receive (h : Store.Keeps d fl [] qs) (o : Order) :
    Store.Keeps (d.receive o) fl [d.received.length] qs := by
  have hold : ∀ k, k < d.received.length → (d.received ++ [o])[k]? = d.received[k]? :=
    fun k hk => List.getElem?_append_left hk
  refine ⟨h.holds, h.chain, ?_, ?_, ?_, ?_⟩
  · intro role i hi
    obtain ⟨o', ho', hr, hs⟩ := h.data role i hi
    exact ⟨o', (hold _ (h.tag_lt hi)).trans ho', hr, hs⟩
  · rw [show (d.receive o).orderIs = d.orderIs from rfl, h.orderIs]
    refine List.map_congr_left fun k hk => ?_
    rw [← hold k (h.done_lt hk)]
    rfl
  · rw [show (d.receive o).orderJs = d.orderJs from rfl, h.orderJs]
    refine List.map_congr_left fun k hk => ?_
    rw [← hold k (h.done_lt hk)]
    rfl
  · intro role k
    have hc := h.count role k
    simp only [Store.receive, List.length_append, List.length_singleton, List.count_singleton,
      List.count_nil] at hc ⊢
    by_cases hk : d.received.length = k
    · subst hk
      simp only [lt_irrefl, if_false] at hc
      simp only [beq_self_eq_true, if_true, Nat.lt_succ_self]
      omega
    · have hb : (d.received.length == k) = false := by simpa using hk
      have hiff : k < d.received.length + 1 ↔ k < d.received.length := by omega
      simp only [hb, hiff, Bool.false_eq_true, if_false]
      omega

/-- **The request in hand is stored** in the ring of its role, behind the others. -/
theorem save (h : Store.Keeps d fl [d.current] qs) {o : Order}
    (ho : d.received[d.current]? = some o) (hs : d.save o.role o.orderI o.orderJ = .ok d') :
    ∃ qs', Store.Keeps d' fl [] qs' := by
  obtain ⟨r, hr, hd⟩ := bind_eq_ok hs
  obtain rfl := Except.ok.inj hd
  obtain ⟨hnot, hholds, hslots⟩ := (h.holds o.role).save hr
  have hlast : r.last = nextConti (d.ring o.role).last := by
    rw [(Ring.saveContinuation_eq_ok hr).2]
  -- the tags of the slots that were in use before are unchanged
  have htag : ∀ i ∈ slotsOf fl o.role ++ qs o.role,
      Function.update (d.tag o.role) (d.ring o.role).last d.current i = d.tag o.role i := by
    intro i hi
    have hne : i ≠ (d.ring o.role).last := fun he => hnot (he ▸ hi)
    exact Function.update_of_ne hne ..
  refine ⟨Function.update qs o.role (qs o.role ++ [(d.ring o.role).last]), ?_, ?_, ?_,
    h.orderIs, h.orderJs, ?_⟩
  · intro role
    by_cases hrole : role = o.role
    · subst hrole
      simpa only [Function.update_self] using hholds
    · simpa only [Function.update_of_ne hrole] using h.holds role
  · intro role
    by_cases hrole : role = o.role
    · subst hrole
      simp only [Function.update_self, hlast]
      rw [List.append_assoc, List.singleton_append, ← List.append_assoc,
        List.isChain_append_cons_cons, List.append_assoc]
      exact ⟨h.chain o.role, rfl, .singleton _⟩
    · simpa only [Function.update_of_ne hrole] using h.chain role
  · intro role i hi
    by_cases hrole : role = o.role
    · subst hrole
      simp only [Function.update_self, ← List.append_assoc] at hi ⊢
      rw [hslots]
      rcases List.mem_append.mp hi with hi | hi
      · have hne : i ≠ (d.ring o.role).last := fun he => hnot (he ▸ hi)
        rw [htag i hi, Function.update_of_ne hne]
        exact h.data o.role i hi
      · rw [List.mem_singleton.mp hi, Function.update_self, Function.update_self]
        exact ⟨o, ho, rfl, rfl⟩
    · simp only [Function.update_of_ne hrole] at hi ⊢
      exact h.data role i hi
  · intro role' k
    refine count_of_role o.role (n := d.done.count k + [].count k) (f := fun role =>
      ((slotsOf fl role ++ Function.update qs o.role (qs o.role ++ [(d.ring o.role).last]) role).map
        (Function.update d.tag o.role (Function.update (d.tag o.role) (d.ring o.role).last
          d.current) role)).count k) ?_ role'
    have hc := h.count o.role k
    simp only [Function.update_self, Function.update_of_ne o.role.other_ne, ← List.append_assoc]
    rw [List.map_append, List.map_congr_left htag, List.count_append]
    simp only [List.map_cons, List.map_nil, Function.update_self, List.count_nil]
    omega

/-- **A continuation in flight is restored**, and its request is in hand again, with its own
orders. -/
theorem restore {m : ContiMsg} (h : Store.Keeps d (m :: fl) [] qs) :
    ∃ o d', { d with current := d.tag m.role m.index }.restore m =
        .ok (d', o.orderI, o.orderJ) ∧
      d'.received[d'.current]? = some o ∧ Store.Keeps d' fl [d'.current] qs := by
  have hmem : m.index ∈ slotsOf (m :: fl) m.role := by simp [slotsOf_cons_self]
  obtain ⟨o, ho, -, hslot⟩ := h.data m.role m.index (List.mem_append_left _ hmem)
  obtain ⟨r, hr, hholds, hlast, hother⟩ := (h.holds m.role).restore hmem
  rw [hslot] at hr
  rw [slotsOf_cons_self, List.erase_cons_head] at hholds
  have hnot : m.index ∉ slotsOf fl m.role ++ qs m.role := by
    have hnd := (h.holds m.role).nodup
    rw [slotsOf_cons_self, List.cons_append, List.nodup_cons] at hnd
    exact hnd.1
  refine ⟨o, { d with ring := Function.update d.ring m.role r, current := _ }, ?_, ho, ?_⟩
  · simp only [Store.restore, hr]
    rfl
  refine ⟨?_, ?_, ?_, h.orderIs, h.orderJs, ?_⟩
  · intro role
    by_cases hr' : role = m.role
    · subst hr'
      simpa only [Function.update_self] using hholds
    · have := h.holds role
      rw [slotsOf_cons_of_ne _ (Ne.symm hr')] at this
      simpa only [Function.update_of_ne hr'] using this
  · intro role
    have hch := h.chain role
    by_cases hr' : role = m.role
    · subst hr'
      rw [slotsOf_cons_self, List.cons_append] at hch
      simpa only [Function.update_self, hlast] using (List.isChain_cons.mp hch).2
    · rw [slotsOf_cons_of_ne _ (Ne.symm hr')] at hch
      simpa only [Function.update_of_ne hr'] using hch
  · intro role i hi
    by_cases hr' : role = m.role
    · subst hr'
      have hne : i ≠ m.index := fun he => hnot (he ▸ hi)
      simp only [Function.update_self]
      rw [hother i hne]
      refine h.data m.role i ?_
      rw [slotsOf_cons_self]
      exact List.mem_cons_of_mem _ hi
    · simp only [Function.update_of_ne hr']
      refine h.data role i ?_
      rwa [slotsOf_cons_of_ne _ (Ne.symm hr')]
  · intro role' k
    refine count_of_role m.role (n := d.done.count k + [d.tag m.role m.index].count k)
      (m := if k < d.received.length then 1 else 0)
      (f := fun role => ((slotsOf fl role ++ qs role).map (d.tag role)).count k) ?_ role'
    have hc := h.count m.role k
    rw [slotsOf_cons_self, slotsOf_cons_of_ne _ (Ne.symm m.role.other_ne), List.cons_append,
      List.map_cons, List.count_cons] at hc
    rw [List.count_singleton]
    simp only [List.count_nil] at hc
    omega

/-- With at most one message in flight the slot behind the last queued one is free: the ring is
longer than two slots. -/
theorem last_free (h : Store.Keeps d fl hand qs) (hfl : fl.length ≤ 1) {q : ℕ}
    (hq : qs role = [q]) :
    ((d.ring role).slots (d.ring role).last).occupied = false := by
  refine (h.holds role).free fun hmem => ?_
  have hchain := h.chain role
  rw [hq] at hmem hchain
  have hout : (slotsOf fl role).length ≤ 1 := by
    rw [slotsOf, List.length_map]
    exact (List.length_filter_le _ _).trans hfl
  rcases hs : slotsOf fl role with _ | ⟨i, _ | ⟨j, is⟩⟩
  · rw [hs] at hmem hchain
    have hnext := (List.isChain_cons_cons.mp hchain).1
    rw [List.nil_append, List.mem_singleton] at hmem
    exact nextConti_ne q (hnext.trans hmem)
  · rw [hs] at hmem hchain
    obtain ⟨hiq, hchain⟩ := List.isChain_cons_cons.mp hchain
    have hnext := (List.isChain_cons_cons.mp hchain).1
    rw [List.singleton_append, List.mem_cons, List.mem_singleton] at hmem
    rcases hmem with hmem | hmem
    · exact nextConti_nextConti_ne i (by rw [hiq, hnext, hmem])
    · exact nextConti_ne q (hnext.trans hmem)
  · rw [hs] at hout
    simp at hout

/-- **A continuation is retrieved**, if there is one, and its message is in flight. -/
theorem retrieve (h : Store.Keeps d fl hand qs) (hfl : fl.length ≤ 1) (role : Role) :
    (d.retrieve role).2 = (qs role).head? ∧
      Store.Keeps (d.retrieve role).1 (fl ++ ((qs role).head?.map (ContiMsg.mk role)).toList) hand
        (Function.update qs role (qs role).tail) := by
  have hres : (d.retrieve role).2 = (qs role).head? :=
    (Ring.retrieveStartConti_snd _).trans (h.holds role).start
  refine ⟨hres, ?_⟩
  have hholds := (h.holds role).retrieve fun q hq => h.last_free hfl hq
  have hsplit : slotsOf fl role ++ (qs role).head?.toList ++ (qs role).tail =
      slotsOf fl role ++ qs role := by
    rw [List.append_assoc, head?_toList_append_tail]
  refine ⟨?_, ?_, ?_, h.orderIs, h.orderJs, ?_⟩
  · intro role'
    by_cases hr : role' = role
    · subst hr
      rw [slotsOf_append_self]
      simpa only [Store.retrieve, Function.update_self] using hholds
    · rw [slotsOf_append_of_ne _ (Ne.symm hr)]
      simpa only [Store.retrieve, Function.update_of_ne hr] using h.holds role'
  · intro role'
    by_cases hr : role' = role
    · subst hr
      rw [slotsOf_append_self]
      simp only [Store.retrieve, Function.update_self, Ring.retrieveStartConti_last]
      rw [← List.append_assoc, hsplit, List.append_assoc]
      exact h.chain role'
    · rw [slotsOf_append_of_ne _ (Ne.symm hr)]
      simpa only [Store.retrieve, Function.update_of_ne hr] using h.chain role'
  · intro role' i hi
    by_cases hr : role' = role
    · subst hr
      rw [slotsOf_append_self, Function.update_self, hsplit] at hi
      simpa only [Store.retrieve, Function.update_self, Ring.retrieveStartConti_slots]
        using h.data role' i hi
    · rw [slotsOf_append_of_ne _ (Ne.symm hr), Function.update_of_ne hr] at hi
      simpa only [Store.retrieve, Function.update_of_ne hr] using h.data role' i hi
  · intro role' k
    refine count_of_role role (n := d.done.count k + hand.count k)
      (m := if k < d.received.length then 1 else 0)
      (f := fun role' => ((slotsOf (fl ++ ((qs role).head?.map (ContiMsg.mk role)).toList) role' ++
        Function.update qs role (qs role).tail role').map (d.tag role')).count k) ?_ role'
    simp only [slotsOf_append_self, Function.update_self, hsplit,
      slotsOf_append_of_ne _ (Ne.symm role.other_ne), Function.update_of_ne role.other_ne]
    exact h.count role k

/-- **The orders of the request in hand are recorded**, and it is done. -/
theorem record (h : Store.Keeps d fl [d.current] qs) {o : Order}
    (ho : d.received[d.current]? = some o) (hs : d.record o.orderI o.orderJ = .ok d') :
    Store.Keeps d' fl [] qs := by
  unfold Store.record at hs
  split at hs
  case isFalse => cases hs
  obtain rfl := Except.ok.inj hs
  refine ⟨h.holds, h.chain, h.data, ?_, ?_, ?_⟩
  · rw [List.map_append, List.map_append, h.orderIs]
    simp [ho]
  · rw [List.map_append, List.map_append, h.orderJs]
    simp [ho]
  · intro role k
    have hc := h.count role k
    simp only [List.count_append, List.count_nil, Nat.add_zero]
    exact hc

end Store.Keeps

/-! ## Every request is in one place -/

/-- Where a request can be. The three places in which it can stay are `completed`, `stored` and
`inFlight`; it is `current` from the retrieval of a continuation to the end of its own handler. -/
inductive Spot : Type where
  /-- its orders are recorded -/
  | completed
  /-- its handler is in `seL4_Send(helper_ep)`, the orders are still to be recorded -/
  | current
  /-- in a slot that is still to be retrieved -/
  | stored (role : Role) (slot : ℕ)
  /-- in a slot whose index a message carries -/
  | inFlight (role : Role) (slot : ℕ)
  deriving DecidableEq

namespace EventServer

/-- The `PRODUCER_CONTI` and `CONSUMER_CONTI` messages that have not been received by the server. -/
def inFlight (s : EventServer) : List ContiMsg := s.helper.msg.toList ++ s.server.msg.toList

/-- The request whose handler is in `seL4_Send(helper_ep)`, if there is one. -/
def handling (s : EventServer) : Option ℕ := s.server.msg.map fun _ => s.store.current

/-- The places of request `k` in the ring of a role: the slots in flight and the queued ones that
are tagged with it. -/
def slotSpots (s : EventServer) (k : ℕ) (role : Role) : List Spot :=
  ((slotsOf s.inFlight role).filter fun i => s.store.tag role i == k).map (.inFlight role) ++
    ((s.store.ring role).queued.filter fun i => s.store.tag role i == k).map (.stored role)

/-- All places of request `k`. Whether there is exactly one is the question. -/
def spots (s : EventServer) (k : ℕ) : List Spot :=
  List.replicate (s.store.done.count k) .completed ++
    List.replicate (s.handling.toList.count k) .current ++
    s.slotSpots k .producer ++ s.slotSpots k .consumer

/-- The handler of request `k` is in `seL4_Send(helper_ep)` and the helper is ready to receive. The
only step from here is their rendezvous, and it records the orders of the request; it exists unless
`order_is` is full. -/
structure Completes (s : EventServer) (k : ℕ) : Prop where
  sending : s.server.msg ≠ none
  ready : s.helper = .recv
  next : ∀ l s', s.step l = .ok s' → l = .pass ∧ s'.spots k = [.completed]
  enabled : s.store.orderIs.length < maxOrders → ∃ s', s.step .pass = .ok s'

/-- No request is lost, duplicated or altered. In front of `seL4_Recv` each one is in a place where
it can stay, and in the middle of a handler the next step leads there. -/
structure RequestsKept (s : EventServer) : Prop where
  /-- in front of `seL4_Recv` each request that was received is in exactly one place, which is one
  of the three in which it can stay -/
  place : s.server = .recv → ∀ k, k < s.store.received.length →
    ∃ p, s.spots k = [p] ∧ p ≠ .current
  /-- elsewhere too, but for the request of a handler that records it next -/
  between : s.server ≠ .recv → ∀ k, k < s.store.received.length →
    ∃ p, s.spots k = [p] ∧ (p = .current → s.Completes k)
  /-- a completed request has its own orders recorded -/
  orderIs : s.store.orderIs.map some =
    s.store.done.map fun k => (s.store.received[k]?).map (·.orderI)
  orderJs : s.store.orderJs.map some =
    s.store.done.map fun k => (s.store.received[k]?).map (·.orderJ)
  /-- a slot in use is occupied and holds the orders of its request -/
  slots : ∀ role, ∀ i ∈ slotsOf s.inFlight role ++ (s.store.ring role).queued,
    ∃ o, s.store.received[s.store.tag role i]? = some o ∧ o.role = role ∧
      (s.store.ring role).slots i = ⟨o.orderI, o.orderJ, true⟩
  /-- `retrieve_start_conti` takes the stored slots one after the other -/
  later : s.server = .recv → ∀ role,
    (s.store.ring role).retrieveStartConti.2 = (s.store.ring role).queued.head? ∧
      (s.store.ring role).retrieveStartConti.1.queued = (s.store.ring role).queued.tail

/-- A forwarded message finds the buffer as its request needs it, so that it need not be stored a
second time. -/
def retests (s : EventServer) : Label → Bool
  | .conti _ =>
    match s.helper with
    | .sending m => !s.buf.blocked m.role
    | _ => true
  | _ => true

/-- The invariant behind `RequestsKept`, with the queued slots as a witness. The handler that sends
has the orders of its own request. -/
def Inv (s : EventServer) : Prop :=
  (∃ qs, s.store.Keeps s.inFlight s.handling.toList qs) ∧
    ∀ m a b reply, s.server = .sending m a b reply →
      ∃ o, s.store.received[s.store.current]? = some o ∧ o.orderI = a ∧ o.orderJ = b

variable {s s' : EventServer} {o : Order} {qs : Role → List ℕ}

theorem finish_inv (h : s.store.Keeps s.helper.msg.toList [s.store.current] qs)
    (ho : s.store.received[s.store.current]? = some o) {reply : Bool}
    (hs : s.finish o.orderI o.orderJ reply = .ok s') : s'.Inv := by
  obtain ⟨d, hd, hs⟩ := bind_eq_ok hs
  obtain rfl := Except.ok.inj hs
  have hk := h.record ho hd
  cases reply
  · exact ⟨⟨qs, by simpa [inFlight, handling, ServerPc.msg] using hk⟩, nofun⟩
  · exact ⟨⟨qs, by simpa [inFlight, handling, ServerPc.msg] using hk⟩, nofun⟩

theorem proceed_inv (h : s.store.Keeps s.helper.msg.toList [s.store.current] qs)
    (ho : s.store.received[s.store.current]? = some o) {role : Role} {reply : Bool}
    (hs : s.proceed role o.orderI o.orderJ reply = .ok s') : s'.Inv := by
  obtain ⟨_, -, hs⟩ := bind_eq_ok hs
  have hfl : s.helper.msg.toList.length ≤ 1 := by cases s.helper <;> simp [HelperPc.msg]
  obtain ⟨hres, hk⟩ := h.retrieve hfl role.other
  rcases hq : (qs role.other).head? with _ | i
  · rw [hq] at hres hk
    simp only [hres] at hs
    simp only [Option.map_none, Option.toList_none, List.append_nil] at hk
    exact finish_inv (s := { s with buf := _, store := _ }) hk ho hs
  · rw [hq] at hres hk
    simp only [hres] at hs
    obtain rfl := Except.ok.inj hs
    refine ⟨⟨_, hk⟩, ?_⟩
    intro m a b reply' he
    obtain ⟨-, rfl, rfl, -⟩ := ServerPc.sending.inj he
    exact ⟨o, ho, rfl, rfl⟩

theorem defer_inv (h : s.store.Keeps s.helper.msg.toList [s.store.current] qs)
    (ho : s.store.received[s.store.current]? = some o)
    (hs : s.defer o.role o.orderI o.orderJ = .ok s') : s'.Inv := by
  obtain ⟨d, hd, hs⟩ := bind_eq_ok hs
  obtain rfl := Except.ok.inj hs
  obtain ⟨qs', hk⟩ := h.save ho hd
  exact ⟨⟨qs', by simpa [inFlight, handling, ServerPc.msg] using hk⟩, nofun⟩

/-- A request of a client is stored, or it is served and possibly continues another one. -/
theorem onOrder_inv (h : s.Inv) (hrecv : s.server = .recv) (hs : s.onOrder o = .ok s') :
    s'.Inv := by
  obtain ⟨⟨qs, hk⟩, -⟩ := h
  have hk' : s.store.Keeps s.helper.msg.toList [] qs := by
    simpa [inFlight, handling, hrecv, ServerPc.msg] using hk
  have hget : (s.store.receive o).received[(s.store.receive o).current]? = some o := by
    simp [Store.receive]
  simp only [onOrder] at hs
  split at hs
  · exact defer_inv (s := { s with store := s.store.receive o }) (hk'.receive o) hget hs
  · exact proceed_inv (s := { s with store := s.store.receive o }) (hk'.receive o) hget hs

/-- A forwarded message whose test of the buffer passes. Its slot is freed before another one is
retrieved, so at most one message is in flight. -/
theorem onConti_inv {m : ContiMsg} {mr1 : ℤ} (hk : s.store.Keeps [m] [] qs)
    (hrecv : s.helper = .recv) (hpass : s.buf.blocked m.role = false)
    (hs : s.onConti m mr1 = .ok s') : s'.Inv := by
  obtain ⟨o, d, hd, ho, hk'⟩ := hk.restore
  simp only [onConti, hpass, Bool.false_eq_true, if_false, hd] at hs
  have hfl : s.helper.msg.toList = [] := by rw [hrecv]; rfl
  exact proceed_inv (s := { s with store := d }) (hfl ▸ hk') ho hs

/-- **One step** keeps the invariant if it is not a second test that fails. -/
theorem step_inv (h : s.Inv) {l : Label} (hok : s.retests l = true) (hs : s.step l = .ok s') :
    s'.Inv := by
  cases l with
  | order o =>
    simp only [step] at hs
    split at hs
    · rename_i hrecv
      exact onOrder_inv h hrecv hs
    · cases hs
  | tmnt =>
    simp only [step] at hs
    split at hs
    · obtain rfl := Except.ok.inj hs
      exact h
    · cases hs
  | pass =>
    simp only [step] at hs
    split at hs
    · rename_i m a b reply hserver hhelper
      obtain ⟨⟨qs, hk⟩, hcur⟩ := h
      obtain ⟨o, ho, rfl, rfl⟩ := hcur _ _ _ _ hserver
      have hk' : s.store.Keeps [m] [s.store.current] qs := by
        simpa [inFlight, handling, hserver, hhelper, ServerPc.msg, HelperPc.msg] using hk
      exact finish_inv (s := { s with helper := .got m }) hk' ho hs
    · cases hs
  | forward =>
    simp only [step] at hs
    split at hs
    · rename_i m hhelper
      obtain rfl := Except.ok.inj hs
      obtain ⟨⟨qs, hk⟩, hcur⟩ := h
      refine ⟨⟨qs, ?_⟩, hcur⟩
      simpa [inFlight, handling, hhelper, HelperPc.msg] using hk
    · cases hs
  | conti mr1 =>
    simp only [step] at hs
    split at hs
    · rename_i m hserver hhelper
      obtain ⟨⟨qs, hk⟩, -⟩ := h
      have hk' : s.store.Keeps [m] [] qs := by
        simpa [inFlight, handling, hserver, hhelper, ServerPc.msg, HelperPc.msg] using hk
      have hpass : s.buf.blocked m.role = false := by simpa [retests, hhelper] using hok
      exact onConti_inv (s := { s with helper := .recv }) hk' rfl hpass hs
    · cases hs
  | answer =>
    simp only [step] at hs
    split at hs
    · rename_i hserver
      obtain rfl := Except.ok.inj hs
      obtain ⟨⟨qs, hk⟩, -⟩ := h
      refine ⟨⟨qs, ?_⟩, nofun⟩
      simpa [inFlight, handling, hserver, ServerPc.msg] using hk
    · cases hs

theorem count_map (f : ℕ → ℕ) (l : List ℕ) (k : ℕ) :
    (l.map f).count k = (l.filter fun i => f i == k).length := by
  induction l with
  | nil => rfl
  | cons a l ih =>
    rw [List.map_cons, List.count_cons, ih, List.filter_cons]
    split <;> rfl

/-- Counting the places of a request is counting its number among the tags. -/
theorem slotSpots_length (h : s.store.Keeps s.inFlight s.handling.toList qs) (k : ℕ) (role : Role) :
    (s.slotSpots k role).length =
      ((slotsOf s.inFlight role ++ qs role).map (s.store.tag role)).count k := by
  rw [slotSpots, (h.holds role).queued_eq, count_map, List.filter_append, List.length_append,
    List.length_append, List.length_map, List.length_map]

/-- Each request is in exactly one place, the moment of its recording included. -/
theorem Inv.place (h : s.Inv) {k : ℕ} (hlt : k < s.store.received.length) :
    ∃ p, s.spots k = [p] := by
  obtain ⟨⟨qs, hk⟩, -⟩ := h
  refine List.length_eq_one_iff.mp ?_
  have hc := hk.count .producer k
  rw [if_pos hlt, show Role.other .producer = .consumer from rfl] at hc
  simp only [spots, List.length_append, List.length_replicate, slotSpots_length hk]
  exact hc

/-- Only the request of the handler in `seL4_Send(helper_ep)` is `current`. -/
theorem handling_of_current {k : ℕ} (h : Spot.current ∈ s.spots k) : s.handling = some k := by
  have hcount : s.handling.toList.count k ≠ 0 := by
    intro hzero
    simp [spots, slotSpots, hzero, List.mem_replicate] at h
  exact Option.mem_toList.mp (List.count_pos_iff.mp (Nat.pos_of_ne_zero hcount))

/-- A recorded request is in no other place. -/
theorem Inv.spots_done (h : s.Inv) {k : ℕ} (hlt : k < s.store.received.length)
    (hdone : k ∈ s.store.done) : s.spots k = [.completed] := by
  obtain ⟨p, hp⟩ := h.place hlt
  have hmem : Spot.completed ∈ s.spots k := by
    have hcount : s.store.done.count k ≠ 0 := (List.count_pos_iff.mpr hdone).ne'
    simp [spots, List.mem_replicate, hcount]
  rw [hp] at hmem ⊢
  rw [List.mem_singleton.mp hmem]

/-- The end of a handler records the request it works on, and receives no other one. -/
theorem finish_done {a b : ℤ} {reply : Bool} (hs : s.finish a b reply = .ok s') :
    s'.store.received = s.store.received ∧ s.store.current ∈ s'.store.done := by
  obtain ⟨d, hd, hs⟩ := bind_eq_ok hs
  obtain rfl := Except.ok.inj hs
  unfold Store.record at hd
  split at hd
  · obtain rfl := Except.ok.inj hd
    exact ⟨rfl, List.mem_append_right _ List.mem_cons_self⟩
  · cases hd

/-- There is room in both arrays or in neither, since they are written together. -/
theorem Inv.finish_ok (h : s.Inv) (hroom : s.store.orderIs.length < maxOrders)
    (helper : HelperPc) (a b : ℤ) (reply : Bool) :
    ∃ s', finish { s with helper := helper } a b reply = .ok s' := by
  obtain ⟨⟨qs, hk⟩, -⟩ := h
  have hi := congrArg List.length hk.orderIs
  have hj := congrArg List.length hk.orderJs
  simp only [List.length_map] at hi hj
  have hrooms : s.store.orderIs.length < maxOrders ∧ s.store.orderJs.length < maxOrders :=
    ⟨hroom, by omega⟩
  simp only [finish, Store.record, if_pos hrooms]
  exact ⟨_, rfl⟩

/-- While the helper is ready, a handler that sends to it records its request next. -/
theorem Inv.completes (h : s.Inv) (hmeets : s.Meets) {k : ℕ} (hk : s.handling = some k)
    (hlt : k < s.store.received.length) : s.Completes k := by
  obtain ⟨m, hmsg, rfl⟩ := Option.map_eq_some_iff.mp hk
  have hsending : s.server.msg ≠ none := by simp [hmsg]
  have hready := hmeets hsending
  obtain ⟨a, b, reply, hserver⟩ : ∃ a b reply, s.server = .sending m a b reply := by
    cases hs : s.server with
    | sending m' a b reply =>
      rw [hs] at hmsg
      obtain rfl : m' = m := Option.some.inj hmsg
      exact ⟨a, b, reply, rfl⟩
    | recv => simp [hs, ServerPc.msg] at hmsg
    | replying => simp [hs, ServerPc.msg] at hmsg
  have hpass : s.step .pass = finish { s with helper := .got m } a b reply := by
    simp only [step, hserver, hready]
  refine ⟨hsending, hready, ?_, ?_⟩
  · intro l s' hs
    -- every other step needs the server or the helper elsewhere
    obtain rfl : l = .pass := by
      cases l <;> simp [step, hserver, hready] at hs ⊢
    obtain ⟨hreceived, hdone⟩ := finish_done (hpass ▸ hs)
    exact ⟨rfl, (step_inv h rfl hs).spots_done (by rw [hreceived]; exact hlt) hdone⟩
  · intro hroom
    rw [hpass]
    exact h.finish_ok hroom _ a b reply

theorem Inv.requestsKept (h : s.Inv) (hmeets : s.Meets) : s.RequestsKept := by
  refine ⟨?_, ?_, ?_, ?_, ?_, ?_⟩
  · intro hrecv k hlt
    obtain ⟨p, hp⟩ := h.place hlt
    refine ⟨p, hp, ?_⟩
    rintro rfl
    have hhand := handling_of_current (hp ▸ List.mem_singleton_self _)
    simp [handling, hrecv, ServerPc.msg] at hhand
  · intro _ k hlt
    obtain ⟨p, hp⟩ := h.place hlt
    refine ⟨p, hp, ?_⟩
    rintro rfl
    exact h.completes hmeets (handling_of_current (hp ▸ List.mem_singleton_self _)) hlt
  all_goals obtain ⟨⟨qs, hk⟩, -⟩ := h
  · exact hk.orderIs
  · exact hk.orderJs
  · intro role i hi
    rw [(hk.holds role).queued_eq] at hi
    exact hk.data role i hi
  · intro hrecv role
    have hfl : s.inFlight.length ≤ 1 := by
      rw [inFlight, hrecv]
      cases s.helper <;> simp [HelperPc.msg, ServerPc.msg]
    have hholds := (hk.holds role).retrieve fun q hq => hk.last_free hfl hq
    rw [(hk.holds role).queued_eq, hholds.queued_eq, Ring.retrieveStartConti_snd]
    exact ⟨(hk.holds role).start, rfl⟩

theorem initial_inv (limit : ℤ) : (initial limit).Inv :=
  ⟨⟨_, .initial⟩, nofun⟩

end EventServer

/-- **No request is lost, duplicated or altered**, in every run in which each forwarded message
finds the buffer as its request needs it and no request retrieves a continuation while the helper
has a message in hand. -/
theorem requests_kept {limit : ℤ} {s : EventServer}
    (h : Reach ((EventServer.runs limit).guard fun s l => s.retests l ∧ s.overtakes l = false) s) :
    s.RequestsKept := by
  have hmeets : s.Meets := meets_of_reach (h.reguard fun _ _ _ hok => hok.2)
  refine Inv.requestsKept ?_ hmeets
  refine Reach.invariant (P := EventServer.Inv) ?_ ?_ h
  · rintro s rfl
    exact initial_inv limit
  · intro s l s' _ hinv hstep
    exact step_inv hinv hstep.1.1 hstep.2

/-- Two producers fill and wait for a buffer of one place, a consumer empties it, and the waiting
one is continued. Its orders are the last ones in the record. -/
theorem requests_kept_waiting :
    ∃ s, Reach ((EventServer.runs 1).guard fun s l => s.retests l ∧ s.overtakes l = false) s ∧
      s.store.orderIs = [5, 7, 6] ∧ s.RequestsKept := by
  obtain ⟨s, hs, ho⟩ := Reach.exists_of_exec
    (T := (EventServer.runs 1).guard fun s l => s.retests l ∧ s.overtakes l = false)
    (fun s l => if s.retests l ∧ s.overtakes l = false then s.step l else .error .disabled)
    (fun s l s' h => by
      split at h
      · exact ⟨‹_›, h⟩
      · cases h)
    (.init rfl) [.order ⟨.producer, 5, 0⟩, .order ⟨.producer, 6, 0⟩, .order ⟨.consumer, 7, 0⟩,
      .pass, .forward, .conti 0] (fun s => s.store.orderIs = [5, 7, 6]) (by decide)
  exact ⟨s, hs, ho, requests_kept hs⟩

/-- **A waiting request can be lost, and another one altered.** In the first run a new producer
overtakes the forwarded message of request 1, which is dropped. In the second one a new consumer
overtakes the forwarded message of request 0, whose index is then stored in place of its orders. -/
theorem overtaken_request_lost :
    (∃ s, Reach (EventServer.runs 1) s ∧ 1 < s.store.received.length ∧ s.spots 1 = []) ∧
    ∃ s, Reach (EventServer.runs 1) s ∧ s.store.received.head? = some ⟨.consumer, 5, 6⟩ ∧
      s.spots 0 = [.stored .consumer 1] ∧ (s.store.ring .consumer).slots 1 = ⟨0, 9, true⟩ := by
  constructor
  · exact Reach.exists_of_exec EventServer.step (fun _ _ _ h => h) (.init rfl)
      [.order ⟨.producer, 1, 1⟩, .order ⟨.producer, 2, 2⟩, .order ⟨.consumer, 3, 3⟩,
        .pass, .forward, .order ⟨.producer, 4, 4⟩, .conti 0]
      (fun s => 1 < s.store.received.length ∧ s.spots 1 = []) (by decide)
  · exact Reach.exists_of_exec EventServer.step (fun _ _ _ h => h) (.init rfl)
      [.order ⟨.consumer, 5, 6⟩, .order ⟨.producer, 1, 1⟩, .pass, .forward,
        .order ⟨.consumer, 7, 8⟩, .conti 9]
      (fun s => s.store.received.head? = some ⟨.consumer, 5, 6⟩ ∧
        s.spots 0 = [.stored .consumer 1] ∧ (s.store.ring .consumer).slots 1 = ⟨0, 9, true⟩)
      (by decide)

end GreenLib
