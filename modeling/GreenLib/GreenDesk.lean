import GreenLib.GreenSteps
import GreenLib.Total

/-!
# The protocol of the green server

The desk of the green server: the jobs of its threads, the reply capabilities in the slots, and the
clients. The scheduler does not matter here. `Handles` says what can happen at the desk, and every
step of the server is one of these (`Steps.handles`), because a thread which has received a request
and has not yet saved the caller is not interrupted (`Undisturbed.of_reach`).
-/

namespace GreenLib

/-! ## Jobs -/

/-- The job of a server thread: which request it has, and where the reply capability is. -/
inductive Job (n : ℕ) : Type where
  /-- at `seL4_Recv` -/
  | free
  /-- with the request `r` of `c`, whose reply capability is still with the kernel -/
  | got (c : Fin n) (r : Request)
  /-- the same, in the `INIT` handler with the client id `id` -/
  | inited (c : Fin n) (id : ℕ)
  /-- with a request of `c`, whose reply capability is in the slot `sl` -/
  | serving (role : Role) (c : Fin n) (sl : ℕ)
  deriving DecidableEq

/-- The job of a thread, from its frame. In its waiting loop for the lock a handler has the same job
as in front of it. -/
def jobOf {n : ℕ} : Frame (GreenPc n) → Job n
  | .user (.got c r) => .got c r
  | .user (.inited c id) => .inited c id
  | .user (.serve _ role c sl) => .serving role c sl
  | .acquire _ _ (.serve _ role c sl) => .serving role c sl
  | _ => .free

/-- The caller has not been saved yet, so another `seL4_Recv` would lose its reply capability. -/
def Job.Hot {n : ℕ} : Job n → Prop
  | .got _ _ | .inited _ _ => True
  | _ => False

/-- The client a job is about, if the thread has a request. -/
def Job.about {n : ℕ} : Job n → Option (Fin n)
  | .free => none
  | .got c _ | .inited c _ | .serving _ c _ => some c

/-- The desk of the green server, on which the protocol is proved. -/
abbrev GreenDesk (n : ℕ) : Type := Desk (Job n) (Shared n)

/-- The steps that concern neither the clients nor the reply capabilities. How often a request has
changed the buffer is not the protocol's business. -/
structure Quiet {n : ℕ} (g g' : Shared n) : Prop where
  clientNew : g'.clientNew = g.clientNew
  replyEps : g'.replyEps = g.replyEps
  caller : g'.caller = g.caller
  cap : g'.cap = g.cap
  client : ∀ c, g'.client c = { g.client c with ops := (g'.client c).ops }

theorem Quiet.refl {n : ℕ} (g : Shared n) : Quiet g g := ⟨rfl, rfl, rfl, rfl, fun _ => rfl⟩

/-- A handler changes the buffer, which is quiet. -/
theorem Quiet.change {n : ℕ} {g g' : Shared n} (h : Quiet g g') (role : Role) (c : Fin n) :
    Quiet g (g'.change role c) := by
  refine ⟨h.clientNew, h.replyEps, h.caller, h.cap, fun d => ?_⟩
  have hd := h.client d
  rcases eq_or_ne d c with rfl | hne
  · simp only [Shared.change, Shared.setClient, Function.update_self]
    rw [hd]
  · simp only [Shared.change, Shared.setClient, Function.update_of_ne hne]
    exact hd

namespace GreenServer

open Sched

variable {n : ℕ} {S : GreenServer n} {a a' b : AMach (GreenPc n) (Shared n)} {i : ℕ}

/-- The jobs of the green server, as an instance of the general ones. -/
def jobs : Jobs (GreenPc n) (Job n) := ⟨jobOf, .free, Job.Hot, not_false⟩

/-- The desk of the abstract machine, for the green server. -/
noncomputable abbrev desk (a : AMach (GreenPc n) (Shared n)) : GreenDesk n := jobs.desk a

theorem desk_job (h : Live a i) : (desk a).job i = jobOf (a.frame i) := Jobs.desk_job h

/-- **What happens at the desk.** The thread that acts is the only one whose caller may not have
been saved (`halone`). -/
inductive Handles (x x' : GreenDesk n) : Prop where
  | quiet (hlive : x'.live = x.live) (hjob : x'.job = x.job) (hslot : x'.slot = x.slot)
    (hused : ∀ sl, x.used sl = true → x'.used sl = true) (hg : Quiet x.g x'.g)
  /-- a new thread -/
  | hire {i sl : ℕ} (hnew : ¬ x.live i) (hfree : x.used sl = false)
    (hlive : ∀ j, x'.live j ↔ j = i ∨ x.live j) (hjob : x'.job = x.job)
    (hslot : x'.slot = Function.update x.slot i sl)
    (hused : x'.used = Function.update x.used sl true) (hg : Quiet x.g x'.g)
  | recv {i : ℕ} {c : Fin n} {r : Request} (hi : x.live i) (hj : x.job i = .free)
    (halone : ∀ j, j ≠ i → ¬ (x.job j).Hot) (hc : (x.g.client c).phase = .asked r)
    (he : x' = { x with job := Function.update x.job i (.got c r), g := x.g.receive c r })
  | init {i sl : ℕ} {c : Fin n} (hj : x.job i = .got c .init)
    (halone : ∀ j, j ≠ i → ¬ (x.job j).Hot) (hfree : x.used sl = false)
    (he : x' = { x with
      job := Function.update x.job i (.inited c x.g.clientNew)
      slot := Function.update x.slot i sl
      used := Function.update x.used sl true
      g := x.g.initialClient c })
  | tmnt {i : ℕ} {c : Fin n} (hj : x.job i = .got c .tmnt)
    (halone : ∀ j, j ≠ i → ¬ (x.job j).Hot) (hlive : ∀ j, x'.live j ↔ x.live j ∧ j ≠ i)
    (he : x' = { x with
      live := x'.live
      job := Function.update x.job i .free
      g := x.g.terminate c })
  | immd {i : ℕ} {c : Fin n} (hj : x.job i = .got c .immd)
    (halone : ∀ j, j ≠ i → ¬ (x.job j).Hot)
    (he : x' = { x with job := Function.update x.job i .free })
  | register {i id : ℕ} {c : Fin n} (hj : x.job i = .inited c id)
    (halone : ∀ j, j ≠ i → ¬ (x.job j).Hot)
    (he : x' = { x with
      job := Function.update x.job i .free
      g := (x.g.saveCaller (x.slot i)).registerClient id (x.slot i) })
  /-- a `PRODUCER` or `CONSUMER` handler saves the caller -/
  | save {i : ℕ} {c : Fin n} {role : Role} {g : Shared n} (hj : x.job i = .got c (.op role))
    (halone : ∀ j, j ≠ i → ¬ (x.job j).Hot)
    (hg : Quiet (x.g.saveCaller (x.slot i)) g)
    (he : x' = { x with job := Function.update x.job i (.serving role c (x.slot i)), g := g })
  | reply {i sl : ℕ} {c : Fin n} {role : Role} (hj : x.job i = .serving role c sl)
    (halone : ∀ j, j ≠ i → ¬ (x.job j).Hot)
    (he : x' = { x with
      job := Function.update x.job i .free
      g := x.g.send (x.slot i) none })
  | ask {c : Fin n} {r : Request}
    (hc : (x.g.client c).phase = .fresh ∧ r = .init ∨ (x.g.client c).phase = .idle ∧ r ≠ .init)
    (he : x' = { x with g := x.g.setClient c ((x.g.client c).ask r) })

/-- A thread between `seL4_Recv` and `vka_cnode_saveCaller` runs, for the green server. -/
abbrev Undisturbed (a : AMach (GreenPc n) (Shared n)) : Prop := jobs.Undisturbed a

/-! ## The steps of the server at the desk -/

/-- Only `thread_exit` asks the scheduler for an exit. -/
theorem asks_ne_exit {cl : Call (GreenPc n)} (hx : cl ≠ .exit) : cl.asks ≠ .exit := by
  cases cl <;> first | exact absurd rfl hx | nofun

/-- A turn of the waiting loop leaves the handler with its job, and is no exit. -/
theorem Acts.quiet_turn {slept : Bool} {lock : Addr} {role : Role} {c : Fin n} {sl : ℕ}
    {fr : Frame (GreenPc n)} {r : Req Addr}
    (ht : Turns slept lock (.serve .test role c sl) fr r) :
    jobOf fr = .serving role c sl ∧ r ≠ .exit := by
  cases ht <;> exact ⟨rfl, nofun⟩

/-- A server thread that gives control away has saved its caller, or has none. -/
theorem Acts.hot {fr : Frame (GreenPc n)} {r : Req Addr} (hact : Acts S a i b fr r)
    (hhot : (jobOf fr).Hot) : r = .stay := by
  cases hact with
  | call hf hd hc =>
    cases hd with
    | recv => rfl
    | init => exact absurd rfl hc
    | _ => exact hhot.elim
  | alloc => rfl
  | turn _ ht =>
    rw [(Acts.quiet_turn ht).1] at hhot
    exact hhot.elim

theorem Steps.undisturbed (h : Undisturbed a) (hs : Steps S a a') : Undisturbed a' :=
  h.next hs.threads rfl fun _ _ _ hact => hact.hot

theorem Undisturbed.of_reach (h : Reach S.program.aruns a) : Undisturbed a := by
  induction h with
  | init h₀ => exact .initial h₀
  | step hr hs ih => exact ((SetUp.of_reach hr).shape.steps hs).undisturbed ih

/-- Thread 0 writes only the variables of the pool, so its steps are quiet. -/
theorem Sets.quiet {g g' : Shared n} {u : GreenPc n} {cl : Call (GreenPc n)}
    {ret : Option ℕ → GreenPc n} (h : Sets S g u cl ret g') : Quiet g g' := by
  obtain ⟨q, rfl⟩ := h.shared
  exact ⟨rfl, rfl, rfl, rfl, fun _ => rfl⟩

/-- A handler comes to its loop: for the first time it saves the caller, and later nothing happens
at the desk. -/
theorem Enters.desk {v : View} {g g' : Shared n} {u : GreenPc n} {role : Role} {c : Fin n} {sl : ℕ}
    (h : Enters v g u role c sl g') :
    u = .got c (.op role) ∧ sl = v.slot ∧ Quiet (g.saveCaller v.slot) g' ∨
      (∃ stage, u = .serve stage role c sl) ∧ Quiet g g' := by
  cases h with
  | first => exact .inl ⟨rfl, rfl, .refl _⟩
  | again => exact .inr ⟨⟨_, rfl⟩, ⟨rfl, rfl, rfl, rfl, fun _ => rfl⟩⟩

theorem Tests.desk {v : View} {g g' : Shared n} {u : GreenPc n} {role : Role} {c : Fin n} {sl : ℕ}
    (h : Tests S v g u role c sl g') :
    u = .got c (.op role) ∧ sl = v.slot ∧ Quiet (g.saveCaller v.slot) g' ∨
      (∃ stage, u = .serve stage role c sl) ∧ Quiet g g' := by
  cases h with
  | here => exact .inr ⟨⟨_, rfl⟩, .refl g⟩
  | free _ h => exact h.desk

/-- A desk that differs from that of `a` as a step of a thread allows: in the jobs and in the shared
data. -/
theorem desk_eq {g : Shared n} {job : ℕ → Job n} (hlive : (desk a').live = (desk a).live)
    (hjob : (desk a').job = job) (hk : Keeps a a' g) :
    desk a' = { desk a with job := job, g := g } :=
  Desk.ext hlive hjob hk.slot hk.slotUsed hk.g

theorem handles_quiet {g : Shared n} (hlive : (desk a').live = (desk a).live)
    (hjob : (desk a').job = (desk a).job) (hk : Keeps a a' g) (hq : Quiet a.g g) :
    Handles (desk a) (desk a') := by
  rw [desk_eq hlive hjob hk]
  exact .quiet rfl rfl rfl (fun _ h => h) hq

/-- The steps of a handler are the one that saves the caller, and quiet ones. -/
theorem handles_handler {g : Shared n} {u : GreenPc n} {role : Role} {c : Fin n} {sl : ℕ}
    (hi : Live a i) (halone : ∀ k, k ≠ i → ¬ ((desk a).job k).Hot) (hf : a.frame i = .user u)
    (hu : u = .got c (.op role) ∧ sl = (a.view i).slot ∧ Quiet (a.g.saveCaller (a.view i).slot) g ∨
      (∃ stage, u = .serve stage role c sl) ∧ Quiet a.g g)
    (hlive : (desk a').live = (desk a).live)
    (hjob : (desk a').job = Function.update (desk a).job i (.serving role c sl))
    (hk : Keeps a a' g) : Handles (desk a) (desk a') := by
  have hold := desk_job hi
  rw [hf] at hold
  rcases hu with ⟨rfl, rfl, hq⟩ | ⟨⟨stage, rfl⟩, hq⟩
  · exact .save hold halone hq (desk_eq hlive hjob hk)
  · have hsame : Function.update (desk a).job i (.serving role c sl) = (desk a).job := by
      rw [← show (desk a).job i = .serving role c sl from hold, Function.update_eq_self]
    exact handles_quiet hlive (hjob.trans hsame) hk hq

/-- What a server thread does, at the desk: one case of `Handles` for each of its actions. -/
theorem Acts.handles {fr : Frame (GreenPc n)} {r : Req Addr} (h : Undisturbed a)
    (hi : a.sched.running = some i) (h0 : i ≠ 0) (hact : Acts S a i a' fr r)
    (hs : Step a.sched i r a'.sched) (hframe : a'.frame = Function.update a.frame i fr) :
    Handles (desk a) (desk a') := by
  have hi' := live_of_running hi h0
  have hold := desk_job hi'
  have halone := h.alone hi
  cases hact with
  | call hf hd hc hx hk =>
    obtain ⟨hlive, hjob⟩ := Jobs.desk_act hi h0 hs (asks_ne_exit hx) hframe
    rw [hf] at hold
    cases hd with
    | recv hphase => exact .recv hi' hold halone hphase (desk_eq hlive hjob hk)
    | init => exact absurd rfl hc
    | tmnt => exact absurd rfl hx
    | immd => exact .immd hold halone (desk_eq hlive hjob hk)
    | register => exact .register hold halone (desk_eq hlive hjob hk)
    | acquire hl hE hp => exact handles_handler hi' halone hf hE.desk hlive hjob hk
    | change hT hb ha hp =>
      refine handles_handler hi' halone hf (hT.desk.imp ?_ ?_) hlive hjob hk
      · exact fun ⟨hu, hsl, hq⟩ => ⟨hu, hsl, hq.change _ _⟩
      · exact fun ⟨hu, hq⟩ => ⟨hu, hq.change _ _⟩
    | giveUp => exact handles_handler hi' halone hf (.inr ⟨⟨_, rfl⟩, .refl _⟩) hlive hjob hk
    | sleepReleased => exact handles_handler hi' halone hf (.inr ⟨⟨_, rfl⟩, .refl _⟩) hlive hjob hk
    | sleep hl hT => exact handles_handler hi' halone hf hT.desk hlive hjob hk
    | release => exact handles_handler hi' halone hf (.inr ⟨⟨_, rfl⟩, .refl _⟩) hlive hjob hk
    | reply => exact .reply hold halone (desk_eq hlive hjob hk)
  | alloc hf hfree hg hslot hused =>
    obtain ⟨hlive, hjob⟩ := Jobs.desk_act hi h0 hs nofun hframe
    rw [hf] at hold
    exact .init hold halone hfree (Desk.ext hlive hjob hslot hused hg)
  | turn hf ht hk =>
    obtain ⟨hfr, hr⟩ := quiet_turn ht
    obtain ⟨hlive, hjob⟩ := Jobs.desk_act hi h0 hs hr hframe
    rw [hf] at hold
    change (desk a').job = Function.update (desk a).job i (jobOf fr) at hjob
    have hsame : (desk a').job = (desk a).job := by
      rw [hjob, hfr, ← show (desk a).job i = .serving _ _ _ from hold, Function.update_eq_self]
    exact handles_quiet hlive hsame hk (.refl _)

/-- **The protocol.** Every step of the server is one at the desk, if no thread has been interrupted
before it saved its caller. -/
theorem Steps.handles (h : Undisturbed a) (hs : Steps S a a') : Handles (desk a) (desk a') := by
  -- thread 0 acts, and the threads stay where they are
  have hmain : ∀ {fr : Frame (GreenPc n)}, (∀ k, Live a' k ↔ Live a k) →
      a'.frame = Function.update a.frame 0 fr → (desk a').live = (desk a).live ∧
        (desk a').job = (desk a).job :=
    fun hlive hframe => Jobs.desk_same hlive fun k hk => by rw [hframe, Function.update_of_ne hk]
  cases hs with
  | @lock got x xs r hi hf hgot hq hframe hg hslot hused =>
    obtain ⟨hlive, hjob⟩ := hmain hq.live_iff hframe
    have hd : Sets S a.g (.pool got (x :: xs)) .lockCreate (fun r => .pool (some (x, r)) xs)
      (a.g.assign got) := .lock hgot
    refine .quiet hlive hjob hslot (fun sl hsl => ?_) ?_
    · change a'.slotUsed sl = true
      rwa [hused]
    · change Quiet a.g a'.g
      rw [hg]
      exact hd.quiet
  | create hi hf hd hid h0 hrun hready hwait hplace hfree hframe hg hslot hused =>
    obtain ⟨hnew, hlive, hjob⟩ := Jobs.desk_create (D := jobs) hid h0 hplace hframe rfl
    refine .hire hnew hfree hlive hjob hslot hused ?_
    change Quiet a.g a'.g
    rw [hg]
    exact hd.quiet
  | notCreated hi hf hd hq hframe hg hslot hused =>
    obtain ⟨hlive, hjob⟩ := hmain hq.live_iff hframe
    refine .quiet hlive hjob hslot hused ?_
    change Quiet a.g a'.g
    rw [hg]
    exact hd.quiet
  | resume hi hf hstep hframe hk =>
    obtain ⟨hlive, hjob⟩ := hmain (live_iff_act hi hstep nofun) hframe
    exact handles_quiet hlive hjob hk (.refl _)
  | act hi h0 hact hstep hframe => exact hact.handles h hi h0 hstep hframe
  | exit hi h0 hf hstep hframe hk =>
    have hold := desk_job (live_of_running hi h0)
    rw [hf] at hold
    obtain ⟨hlive, hjob⟩ := Jobs.desk_exit (D := jobs) hi hstep hframe
    exact .tmnt hold (h.alone hi) hlive (Desk.ext rfl hjob hk.slot hk.slotUsed hk.g)
  | @env e g he hsched hframe hk =>
    have hsame : ∀ k, Live a' k ↔ Live a k := fun k => by rw [Live, Live, hsched]
    obtain ⟨hlive, hjob⟩ := Jobs.desk_same (D := jobs) hsame fun k _ => by rw [hframe]
    obtain ⟨hc, rfl⟩ := call_eq he
    exact .ask (hc.imp_right fun hl => ⟨hl.1, hl.2.1⟩)
      (Desk.ext hlive hjob hk.slot hk.slotUsed hk.g)

end GreenServer

end GreenLib
