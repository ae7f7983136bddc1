import GreenLib.GreenBuffer
import GreenLib.GreenReplies
import GreenLib.Sel4Init

/-!
# Who is answered

What the invariant of the desk (`GreenDesk.Inv`) means for the machine. Every answer to a `PRODUCER`
or `CONSUMER` request goes to the sender of the request that the thread has received, and no reply
capability is lost on the way (`replies_routed`). The `INIT` requests are answered together, once
each, with the ids that were given out (`init_rendezvous`, for both builds).
-/

namespace GreenLib

namespace GreenDesk.Inv

variable {n : ℕ} {x x' : GreenDesk n} {c : Fin n} {sl : ℕ}

/-- `vka_cnode_saveCaller` on an empty slot overwrites no capability. -/
theorem kept_save {g : Shared n} {sl' : ℕ} (hempty : g.cap sl' = none) (hc : g.cap sl = some c) :
    (g.saveCaller sl').cap sl = some c := by
  refine (Function.update_of_ne ?_ ..).trans hc
  rintro rfl
  cases hempty.symm.trans hc

/-- **A capability stays where it is** until it is used, and then its client has been answered. -/
theorem kept (h : x.Inv) (hx : GreenServer.Handles x x') (hc : x.g.cap sl = some c) :
    x'.g.cap sl = some c ∨
      x'.g.cap sl = none ∧ (x'.g.client c).answers = (x.g.client c).answers + 1 := by
  cases hx with
  | quiet _ _ _ _ hg => exact .inl (by rw [hg.cap, hc])
  | hire _ _ _ _ _ _ hg => exact .inl (by rw [hg.cap, hc])
  | save hj halone hg he =>
    rw [he]
    exact .inl ((congrFun hg.cap sl).trans (kept_save (h.slot_empty hj) hc))
  | @register i id d hj halone he =>
    by_cases hnew : n = x.g.clientNew
    · obtain ⟨idOf, -, hg⟩ := h.registerClient_eq hj halone hnew
      rw [he, hg]
      exact .inr ⟨rfl, rfl⟩
    · have hclosed : (x.g.saveCaller (x.slot i)).registerClient id (x.slot i) =
          (x.atBarrier i id).g := if_neg fun hb => hnew (eq_of_beq hb)
      have hfit := h.fits i
      rw [hj] at hfit
      rw [he, hclosed]
      exact .inl (kept_save hfit.2.2.2.2 hc)
  | @reply i sl' d role hj halone he =>
    have hfit := h.fits i
    rw [hj] at hfit
    obtain ⟨rfl, hd, -⟩ := hfit
    have hsend : x'.g = { x.g.setClient d ((x.g.client d).answer none) with
        cap := Function.update x.g.cap (x.slot i) none } := by
      rw [he, Shared.send_of_cap hd]
    rw [hsend]
    rcases eq_or_ne sl (x.slot i) with rfl | hne
    · obtain rfl := Option.some.inj (hd.symm.trans hc)
      refine .inr ⟨Function.update_self .., ?_⟩
      simp [Shared.setClient, Client.answer]
    · exact .inl ((Function.update_of_ne hne ..).trans hc)
  | recv _ _ _ _ he => exact .inl (by rw [he]; exact hc)
  | init _ _ _ he => exact .inl (by rw [he]; exact hc)
  | tmnt _ _ _ he => exact .inl (by rw [he]; exact hc)
  | immd _ _ he => exact .inl (by rw [he]; exact hc)
  | ask _ he => exact .inl (by rw [he]; exact hc)

end GreenDesk.Inv

namespace GreenServer

open Sched

variable {n : ℕ} {S : GreenServer n} {a a' : AMach (GreenPc n) (Shared n)}
  {m m' : Mach (GreenPc n) (Shared n)} {l : Label (Option (Fin n)) (Fin n × Request)} {i : ℕ}
  {c : Fin n}

/-- The invariant of the desk holds in every state of every run of the abstract machine. -/
theorem inv_of_reach (ha : Reach S.program.aruns a) : (desk a).Inv := by
  induction ha with
  | init h₀ =>
    have hnobody : ∀ i, ¬ Live _ i := fun i hi => hi.2 (h₀.place i hi.1)
    exact .initial hnobody (fun i => if_neg (hnobody i)) h₀.g
  | step hr hs ih => exact ih.next (((SetUp.of_reach hr).shape.steps hs).handles (.of_reach hr))

/-- The thread that is at a point of `server_loop` is a server thread, since thread 0 does not come
there. -/
theorem live_of_frame (hset : SetUp a) (hi : a.sched.running = some i) {u : GreenPc n}
    (hf : a.frame i = .user u) (hu : u.InLoop) : Live a i := by
  refine ⟨?_, by rw [place_running hi]; nofun⟩
  rintro rfl
  obtain ⟨w, hw, hat⟩ := hset.main
  obtain rfl := Frame.user.inj (hw.symm.trans hf)
  cases w <;> first | exact hu.elim | exact hat.elim

/-- A step of a server thread that answers a client is the end of an `INIT` handler or a `seL4_Send`
of `server_loop`. -/
theorem Does.answered {v : View} {g g' : Shared n} {u w : GreenPc n} {cl : Call (GreenPc n)}
    (hd : Does S v g u cl w g') (hc : (g'.client c).answers ≠ (g.client c).answers) :
    (∃ d id, u = .inited d id ∧ g' = (g.saveCaller v.slot).registerClient id v.slot) ∨
      ∃ role d sl, u = .serve .reply role d sl ∧ g' = g.send v.slot none := by
  -- the other steps only change other fields of the clients
  have hset : ∀ {d : Fin n} {y : Client}, y.answers = (g.client d).answers →
      (Function.update g.client d y c).answers = (g.client c).answers := by
    intro d y hy
    rcases eq_or_ne c d with rfl | hne
    · rwa [Function.update_self]
    · rw [Function.update_of_ne hne]
  have henters : ∀ {u role d sl} {g₁ : Shared n}, Enters v g u role d sl g₁ →
      g₁.client = g.client := fun h => by cases h <;> rfl
  have htests : ∀ {u role d sl} {g₁ : Shared n}, Tests S v g u role d sl g₁ →
      g₁.client = g.client := fun h => by
    cases h with
    | here => rfl
    | free _ h => exact henters h
  cases hd with
  | register => exact .inl ⟨_, _, rfl, rfl⟩
  | reply => exact .inr ⟨_, _, _, rfl, rfl⟩
  | @recv d r => exact absurd (hset (y := (g.client d).receive r) rfl) hc
  | @init d => exact absurd (hset (y := { g.client d with given := some g.clientNew }) rfl) hc
  | @tmnt d => exact absurd (hset (y := { g.client d with phase := .gone }) rfl) hc
  | acquire _ h => exact absurd (by rw [henters h]) hc
  | change h =>
    refine absurd ?_ hc
    simp only [Shared.change, Shared.setClient, htests h]
    exact hset rfl
  | sleep _ h => exact absurd (by rw [htests h]) hc
  | _ => exact absurd rfl hc

/-- **Who is answered**: a client whose `INIT` waits at the barrier, or the sender of the request
that the running thread has received. -/
theorem Steps.answered (hset : SetUp a) (hund : Undisturbed a) (h : (desk a).Inv)
    (hs : Steps S a a') (hc : (a'.g.client c).answers ≠ (a.g.client c).answers) :
    (a'.g.client c).answers = (a.g.client c).answers + 1 ∧
      ((a.g.client c).phase = .served .init ∨
        ∃ i role sl, a.sched.running = some i ∧ a.frame i = .user (.serve .reply role c sl)) := by
  rcases hs.shared with ⟨q, hg⟩ | ⟨i, u, cl, w, hi, hf, hd⟩ | ⟨e, he⟩
  · exact absurd (by rw [hg]) hc
  · have hjob : u.InLoop → (desk a).job i = jobOf (.user u) := fun hu => by
      rw [desk_job (live_of_frame hset hi hf hu), hf]
    rcases hd.answered hc with ⟨d, id, rfl, hg⟩ | ⟨role, d, sl, rfl, hg⟩
    · have hj : (desk a).job i = .inited d id := hjob trivial
      by_cases hnew : n = (desk a).g.clientNew
      · obtain ⟨idOf, -, hg'⟩ := h.registerClient_eq hj (hund.alone hi) hnew
        refine ⟨?_, .inl (h.served_init hj (h.given_of_all hnew c))⟩
        rw [hg]
        exact congrArg (fun g => (g.client c).answers) hg'
      · have hclosed : (a.g.saveCaller (a.view i).slot).registerClient id (a.view i).slot =
            ((desk a).atBarrier i id).g := if_neg fun hb => hnew (eq_of_beq hb)
        exact absurd (by rw [hg, hclosed]; rfl) hc
    · have hj : (desk a).job i = .serving role d sl := hjob trivial
      have hfit := h.fits i
      rw [hj] at hfit
      obtain ⟨rfl, hd', -⟩ := hfit
      have hsend : a'.g = { a.g.setClient d ((a.g.client d).answer none) with
          cap := Function.update a.g.cap (a.slot i) none } := by
        change a.g.cap (a.view i).slot = some d at hd'
        rw [hg, Shared.send_of_cap hd']
        rfl
      rw [hsend] at hc ⊢
      rcases eq_or_ne c d with rfl | hne
      · refine ⟨?_, .inr ⟨i, role, _, hi, hf⟩⟩
        simp [Shared.setClient, Client.answer]
      · exact absurd (by simp [Shared.setClient, hne]) hc
  · rw [(call_eq he).2] at hc
    rcases eq_or_ne c e.1 with rfl | hne
    · exact absurd (by simp [Shared.setClient, Client.ask]) hc
    · exact absurd (by simp [Shared.setClient, hne]) hc

/-! ## Replies -/

/-- **Routing**: what the answers of the server keep to, in a state and in the next step from it. -/
structure Routed (S : GreenServer n) (m : Mach (GreenPc n) (Shared n)) : Prop where
  /-- the slot in which the sender of a request is saved holds no capability -/
  save : ∀ c role, m.cpu = .user (.got c (.op role)) →
    m.g.caller = some c ∧ m.g.cap m.st.view.slot = none
  /-- `seL4_Send` goes through the slot in which the thread has saved the sender of the request, and
  the capability of that client is still there -/
  send : ∀ role c sl, m.cpu = .user (.serve .reply role c sl) →
    m.st.view.slot = sl ∧ m.g.cap sl = some c ∧ (m.g.client c).phase = .served (.op role)
  /-- no client gets more answers than it has made requests -/
  once : ∀ c, (m.g.client c).answers ≤ (m.g.client c).asks
  /-- only the sender of the request that the running thread has received is answered, apart from
  the answers to `INIT` -/
  own : ∀ l m', m.step S.program l = .ok m' → ∀ c,
    (m'.g.client c).answers ≠ (m.g.client c).answers →
      (m'.g.client c).answers = (m.g.client c).answers + 1 ∧
        ((m.g.client c).phase = .served .init ∨
          ∃ role sl, m.cpu = .user (.serve .reply role c sl))
  /-- no capability is overwritten before it is used -/
  kept : ∀ l m', m.step S.program l = .ok m' → ∀ sl c, m.g.cap sl = some c →
    m'.g.cap sl = some c ∨
      m'.g.cap sl = none ∧ (m'.g.client c).answers = (m.g.client c).answers + 1

/-- A point at which a thread can go on is not that of thread 0 when it is done, so a thread runs
that is there. -/
theorem running_of_frame (h : Sim S.program False m a) {u : GreenPc n} (hcpu : m.cpu = .user u)
    (hgo : ∃ e v g, S.next e v u g ≠ none) :
    ∃ i, a.sched.running = some i ∧ a.frame i = .user u := by
  rcases hr : a.sched.running with _ | i
  · obtain ⟨-, -, w, hw, hno⟩ := h.idle hr
    obtain rfl := Frame.user.inj (hcpu.symm.trans hw)
    obtain ⟨e, v, g, hgo⟩ := hgo
    exact absurd (hno e v g) hgo
  · exact ⟨i, rfl, (h.cpu i hr).symm.trans hcpu⟩

/-- The job of the running thread is read off what the processor is at, and its slot is the one that
`server_loop` uses. -/
theorem job_of_cpu (ha : Reach S.program.aruns a) (h : Sim S.program False m a) {u : GreenPc n}
    (hcpu : m.cpu = .user u) (hu : u.InLoop) (hgo : ∃ e v g, S.next e v u g ≠ none) :
    ∃ i, (desk a).job i = jobOf (.user u) ∧ m.st.view.slot = (desk a).slot i := by
  obtain ⟨i, hi, hf⟩ := running_of_frame h hcpu hgo
  refine ⟨i, ?_, by rw [h.view hi]; rfl⟩
  rw [desk_job (live_of_frame (.of_reach ha) hi hf hu), hf]

/-- A handler that has received a request can go on, in a state in which the pool has been set
up. -/
theorem next_got (S : GreenServer n) (c : Fin n) (role : Role) :
    ∃ e v g, S.next e v (.got c (.op role)) g ≠ none := by
  refine ⟨none, ⟨0, 0, fun _ => none⟩,
    { Shared.initialClientPool n 0 with prim := fun _ => some 0 }, ?_⟩
  cases hl : S.locked <;> cases role <;>
    simp [next, processMessage, enter, test, hl, Shared.saveCaller, Shared.initialClientPool,
      Shared.list, Buffer.blocked]

end GreenServer

/-- **Replies are routed.** In every run of the server, with any number of clients and threads and
whatever the clients ask for, the answers go where they belong. -/
theorem replies_routed {n : ℕ} (S : GreenServer n) (m : Mach (GreenPc n) (Shared n))
    (hm : Reach S.program.runs m) : GreenServer.Routed S m := by
  obtain ⟨a, ha, h⟩ := GreenServer.reach hm
  have hset := GreenServer.SetUp.of_reach ha
  have hinv := GreenServer.inv_of_reach ha
  -- one step of the machine is none or one of the abstract machine
  have hsteps : ∀ {l m'}, m.step S.program l = .ok m' → m'.g = m.g ∨
      ∃ a', m'.g = a'.g ∧ GreenServer.Steps S a a' := by
    intro l m' hs
    obtain ⟨a', h', rfl | ⟨k, hk⟩⟩ := GreenServer.sim_step ha h hs
    · exact .inl (h'.g.trans h.g.symm)
    · exact .inr ⟨a', h'.g, hset.shape.steps hk⟩
  refine ⟨fun c role hcpu => ?_, fun role c sl hcpu => ?_, fun c => ?_, fun l m' hs c hc => ?_,
    fun l m' hs sl c hc => ?_⟩
  · obtain ⟨i, hj, hslot⟩ := GreenServer.job_of_cpu ha h hcpu trivial (S.next_got c role)
    have hfit := hinv.fits i
    rw [hj] at hfit
    rw [h.g, hslot]
    exact ⟨hfit.1, hinv.slot_empty hj⟩
  · obtain ⟨i, hj, hslot⟩ := GreenServer.job_of_cpu ha h hcpu trivial
      ⟨none, m.st.view, m.g, nofun⟩
    have hfit := hinv.fits i
    rw [hj] at hfit
    rw [h.g, hslot]
    exact hfit
  · have hcount := hinv.count c
    change (a.g.client c).asks = _ at hcount
    rw [h.g, hcount]
    exact Nat.le_add_right ..
  · rcases hsteps hs with hg | ⟨a', hg, hstep⟩
    · exact absurd (by rw [hg]) hc
    · rw [hg, h.g] at hc
      obtain ⟨hone, hwho⟩ := hstep.answered hset (.of_reach ha) hinv hc
      rw [hg, h.g]
      refine ⟨hone, hwho.imp_right ?_⟩
      rintro ⟨i, role, sl, hi, hf⟩
      exact ⟨role, sl, (h.cpu i hi).trans hf⟩
  · rcases hsteps hs with hg | ⟨a', hg, hstep⟩
    · exact .inl (by rw [hg, hc])
    · rw [h.g] at hc
      rw [hg, h.g]
      exact hinv.kept (hstep.handles (.of_reach ha)) hc

/-- A producer is about to be answered, through the slot in which it was saved. -/
theorem replies_routed_producer :
    ∃ m, Reach (GreenServer.program (n := 2) ⟨true, 1, 1, fun _ _ => true⟩).runs m ∧
      m.cpu = .user (.serve .reply .producer 1 3) ∧
      GreenServer.Routed ⟨true, 1, 1, fun _ _ => true⟩ m := by
  obtain ⟨m, hm, hcpu⟩ := Mach.exists_of_reaches
    (P := GreenServer.program (n := 2) ⟨true, 1, 1, fun _ _ => true⟩) (fun _ _ => True)
    (fun _ _ _ _ h => h) (.init GreenServer.boot_init)
    (GreenServer.startup 1 ++ GreenServer.initCall 0 2 ++ GreenServer.initCall 1 3 ++
      GreenServer.asks 1 (.op .producer) ++
      [GreenServer.go 0, .turn, GreenServer.go 0, GreenServer.go 0])
    (fun m => m.cpu = .user (.serve .reply .producer 1 3)) (by decide +kernel)
  exact ⟨m, hm, hcpu, replies_routed _ m hm⟩

/-! ## The rendezvous -/

/-- The `INIT` request of the client has been received by a thread of the server. -/
def Client.Received (x : Client) : Prop := x.phase ≠ .fresh ∧ x.phase ≠ .asked .init

theorem Client.received_of_late {x : Client} (h : ¬ x.phase.Early) : x.Received := by
  constructor <;> intro hp <;> exact h (by rw [hp]; trivial)

/-- A client that has been received and is not answered is in the hands of the server: with a
handler or at the barrier. -/
theorem ClientPhase.served_of_early {x : Client} (h : x.phase.Early) (hr : x.Received) :
    x.phase = .served .init := by
  rcases hp : x.phase with _ | r | r | _ | _ <;> rw [hp] at h
  case fresh => exact absurd hp hr.1
  case asked =>
    cases r with
    | init => exact absurd hp hr.2
    | _ => exact h.elim
  case served =>
    cases r with
    | init => rfl
    | _ => exact h.elim
  all_goals exact h.elim

/-- **The barrier is open** when all requests have been received and the handlers have finished:
the last of them opened it. -/
theorem GreenDesk.Inv.opened {n : ℕ} {x : GreenDesk n} (h : x.Inv)
    (hrecv : ∀ c, (x.g.client c).Received)
    (hgot : ∀ i c, x.job i ≠ .got c .init) (hinited : ∀ i c id, x.job i ≠ .inited c id) :
    x.Opened := by
  refine h.barrier.resolve_left ?_
  rintro ⟨hearly, hlt | ⟨i, c, id, hj⟩⟩
  · -- some client has no id, so its request has just been received
    obtain ⟨c, hc⟩ : ∃ c, (x.g.client c).given = none := by
      by_contra hall
      have hn := h.ids.eq_of_all fun c hc => hall ⟨c, hc⟩
      rw [Fintype.card_fin] at hn
      omega
    have hstands := h.stands c
    rw [ClientPhase.served_of_early (hearly c) (hrecv c)] at hstands
    rcases hstands.2 with ⟨-, i, hj⟩ | ⟨id, hid, -⟩
    · exact hgot i c hj
    · cases hc.symm.trans hid
  · exact hinited i c id hj

namespace GreenServer

open Sched

variable {n : ℕ} {S : GreenServer n} {a a' : AMach (GreenPc n) (Shared n)}
  {m : Mach (GreenPc n) (Shared n)} {i : ℕ} {c : Fin n}

/-- All handlers of `INIT` have finished. Such a handler is not switched away from, so only the
running thread can be in one. -/
def InitsDone (m : Mach (GreenPc n) (Shared n)) : Prop :=
  (∀ c, (m.g.client c).Received) ∧ (∀ c, m.cpu ≠ .user (.got c .init)) ∧
    ∀ c id, m.cpu ≠ .user (.inited c id)

/-- **The rendezvous**, in a state of a run: what the clients have been told by then. -/
structure Rendezvous (m : Mach (GreenPc n) (Shared n)) : Prop where
  /-- nobody is answered before all requests have been received -/
  together : ∀ c, (m.g.client c).inits ≠ [] → ∀ d, (m.g.client d).Received
  /-- no two clients get the same id, and all ids are below `n` -/
  ids : ∀ c i, (m.g.client c).given = some i →
    i < n ∧ ∀ d, (m.g.client d).given = some i → d = c
  /-- a client gets at most one answer to `INIT`, with its own id -/
  once : ∀ c, (m.g.client c).inits = [] ∨
    ∃ i, (m.g.client c).given = some i ∧ (m.g.client c).inits = [initMessage i]
  /-- when all handlers have finished, all ids have been assigned -/
  allIds : InitsDone m → ∀ i < n, ∃ c, (m.g.client c).given = some i
  /-- and every client has its answer -/
  answered : InitsDone m → ∀ c,
    ∃ i, (m.g.client c).given = some i ∧ (m.g.client c).inits = [initMessage i]

/-- A thread with a job in between is the running one, so its frame is what the processor is at. -/
theorem frame_of_hot (hund : Undisturbed a) (h : (desk a).Inv)
    (hhot : ((desk a).job i).Hot) :
    a.sched.running = some i ∧ jobOf (a.frame i) = (desk a).job i := by
  have hl : Live a i := h.live fun hfree => by
    rw [hfree] at hhot
    exact hhot
  rw [desk_job hl] at hhot ⊢
  exact ⟨hund i hl hhot, rfl⟩

theorem frame_of_got {fr : Frame (GreenPc n)} {r : Request} (h : jobOf fr = .got c r) :
    fr = .user (.got c r) := by
  unfold jobOf at h
  split at h <;> cases h
  rfl

theorem frame_of_inited {fr : Frame (GreenPc n)} {id : ℕ} (h : jobOf fr = .inited c id) :
    fr = .user (.inited c id) := by
  unfold jobOf at h
  split at h <;> cases h
  rfl

/-- The barrier is open when the handlers have finished, on the machine: a handler that is not done
is the running thread. -/
theorem opened (hund : Undisturbed a) (hinv : (desk a).Inv) (h : Sim S.program False m a)
    (hdone : InitsDone m) : (desk a).Opened := by
  obtain ⟨hrecv, hgot, hinited⟩ := hdone
  refine hinv.opened (fun c => ?_) (fun i c hj => ?_) fun i c id hj => ?_
  · have hr := hrecv c
    rw [h.g] at hr
    exact hr
  · obtain ⟨hi, hjob⟩ := frame_of_hot hund hinv (i := i) (by rw [hj]; trivial)
    exact hgot c ((h.cpu i hi).trans (frame_of_got (hjob.trans hj)))
  · obtain ⟨hi, hjob⟩ := frame_of_hot hund hinv (i := i) (by rw [hj]; trivial)
    exact hinited c id ((h.cpu i hi).trans (frame_of_inited (hjob.trans hj)))

/-- What the invariant means for the answers to `INIT`, read in the state of the machine. -/
theorem rendezvous_of_inv (hund : Undisturbed a) (hinv : (desk a).Inv)
    (h : Sim S.program False m a) : Rendezvous m := by
  have hw : ∀ c, ¬ ((desk a).g.client c).phase.Early → GreenDesk.Welcomed ((desk a).g.client c) :=
    fun c hc => (hinv.stands c).welcomed hc
  -- before the answer the list is empty
  have hempty : ∀ c, ((desk a).g.client c).phase.Early → ((desk a).g.client c).inits = [] := by
    intro c hc
    have hstands := hinv.stands c
    rcases hp : ((desk a).g.client c).phase with _ | r | r | _ | _ <;> rw [hp] at hc hstands
    case fresh => exact hstands.2
    case asked =>
      cases r with
      | init => exact hstands.2
      | _ => exact hc.elim
    case served =>
      cases r with
      | init => exact hstands.1
      | _ => exact hc.elim
    all_goals exact hc.elim
  have hle : (desk a).g.clientNew ≤ n := by simpa using hinv.ids.le
  have hg : m.g = (desk a).g := h.g
  refine ⟨fun c hc d => ?_, fun c i hi => ?_, fun c => ?_, fun hdone i hi => ?_,
    fun hdone c => ?_⟩
  · rw [hg] at hc ⊢
    rcases hinv.barrier with ⟨hearly, -⟩ | hopen
    · exact absurd (hempty c (hearly c)) hc
    · exact Client.received_of_late (hopen d)
  · simp only [hg] at hi ⊢
    exact ⟨(hinv.ids.lt c i hi).trans_le hle, fun d hd => hinv.ids.inj d c i hd hi⟩
  · rw [hg]
    by_cases hc : ((desk a).g.client c).phase.Early
    · exact .inl (hempty c hc)
    · obtain ⟨i, hi, hinits, -⟩ := hw c hc
      exact .inr ⟨i, hi, hinits⟩
  · have hopen := opened hund hinv h hdone
    have hall := hinv.ids.eq_of_all fun c hc => by
      obtain ⟨i, hi, -⟩ := hw c (hopen c)
      cases hc.symm.trans hi
    rw [hg]
    exact hinv.ids.surj hall (by rw [hall, Fintype.card_fin]; exact hi)
  · obtain ⟨i, hi, hinits, -⟩ := hw c (opened hund hinv h hdone c)
    rw [hg]
    exact ⟨i, hi, hinits⟩

/-- The entry of `reply_eps` that a handler of `INIT` writes exists: its id is less than the number
of clients. -/
theorem in_bounds (hset : SetUp a) (hinv : (desk a).Inv) (h : Sim S.program False m a)
    (hmax : n ≤ clientMax) (hco : m.st.coCurrentId ≠ 0) {id : ℕ}
    (hcpu : m.cpu = .user (.inited c id)) : id < clientMax := by
  rcases hr : a.sched.running with _ | i
  · exact absurd (h.idle hr).2.1 hco
  · have hf := (h.cpu i hr).symm.trans hcpu
    have hfit := hinv.fits i
    rw [desk_job (live_of_frame hset hr hf trivial), hf] at hfit
    have hle : (desk a).g.clientNew ≤ n := by simpa using hinv.ids.le
    exact (hinv.ids.lt c id hfit.2.2.2.1).trans_le (hle.trans hmax)

end GreenServer

/-- **The `INIT` rendezvous**, in both builds: whatever the order of the requests and, with kernel
threads, whatever the interleaving of the handlers, everybody is answered once, with its own id, and
not before all have come. The accesses to `reply_eps` are in bounds. -/
theorem init_rendezvous {n : ℕ} (hmax : n ≤ clientMax) :
    (∀ (S : GreenServer n) (m : Mach (GreenPc n) (Shared n)), Reach S.program.runs m →
      GreenServer.Rendezvous m ∧ (m.st.coCurrentId ≠ 0 → ∀ c id,
        m.cpu = .user (.inited c id) → id < clientMax)) ∧
    ∀ s, Reach (Sel4Init.runs n) s → s.Rendezvous ∧ ∀ l, s.step l ≠ .error .bounds := by
  constructor
  · intro S m hm
    obtain ⟨a, ha, h⟩ := GreenServer.reach hm
    have hinv := GreenServer.inv_of_reach ha
    exact ⟨GreenServer.rendezvous_of_inv (.of_reach ha) hinv h, fun hco c id hcpu =>
      GreenServer.in_bounds (.of_reach ha) hinv h hmax hco hcpu⟩
  · intro s hs
    have hinv := Sel4Init.Inv.of_reach hs
    exact ⟨hinv.rendezvous, hinv.in_bounds hmax⟩

/-- Client 1 comes first and gets the id 0, in both builds. With kernel threads, the two handlers
overlap. -/
theorem init_rendezvous_two :
    (∃ m : Mach (GreenPc 2) (Shared 2), m.g.clientNew = 2 ∧ (m.g.client 1).inits = [(0, 1)] ∧
      (m.g.client 0).inits = [(1, 0)] ∧ GreenServer.Rendezvous m) ∧
    ∃ s : Sel4Init 2, s.inbox 1 = [(0, 1)] ∧ s.inbox 0 = [(1, 0)] ∧ s.Rendezvous := by
  have hmax : 2 ≤ clientMax := by decide
  constructor
  · obtain ⟨m, hm, hnew, h1, h0⟩ := Mach.exists_of_reaches
      (P := GreenServer.program (n := 2) ⟨true, 1, 1, fun _ _ => true⟩) (fun _ _ => True)
      (fun _ _ _ _ h => h) (.init GreenServer.boot_init)
      (GreenServer.startup 1 ++ GreenServer.initCall 1 2 ++ GreenServer.initCall 0 3)
      (fun m => m.g.clientNew = 2 ∧ (m.g.client 1).inits = [(0, 1)] ∧
        (m.g.client 0).inits = [(1, 0)]) (by decide +kernel)
    exact ⟨m, hnew, h1, h0, ((init_rendezvous hmax).1 _ m hm).1⟩
  · obtain ⟨s, hs, h1, h0⟩ := Reach.exists_of_exec (T := Sel4Init.runs 2) Sel4Init.step
      (fun _ _ _ h => h) (.init rfl)
      [.receive 1, .receive 0, .go 1, .go 0, .alloc 0 5, .alloc 1 6, .go 1, .go 1, .go 1, .go 1,
        .go 1, .go 1, .go 1, .go 0, .go 0, .go 0, .go 0, .go 0, .go 0, .go 0]
      (fun s => s.inbox 1 = [(0, 1)] ∧ s.inbox 0 = [(1, 0)]) (by decide)
    exact ⟨s, h1, h0, ((init_rendezvous hmax).2 s hs).1⟩

end GreenLib
