import GreenLib.TokenSteps

/-!
# The protocol of the token server

The desk of the token server, in either build: the jobs of its threads, the reply capabilities in
the slots, and the clients. `Handles` says what can happen there, and every step of the server is
one of these (`Steps.handles`). The scheduler is not a part of it; the protocol only needs that a
thread is not interrupted between `seL4_Recv` and `vka_cnode_saveCaller` (`Undisturbed`).
-/

namespace GreenLib

/-! ## Jobs -/

/-- The job of a server thread: whose request it has, and whether the caller has been saved. -/
inductive TokenJob (n : ℕ) : Type where
  | free
  /-- with the request `r` of `c`, whose reply capability is still with the kernel -/
  | got (c : Fin n) (r : TokenRequest)
  /-- the same, in the `INIT` handler with the client id `id` -/
  | inited (c : Fin n) (id : ℕ)
  /-- with a request of `c` for the token, whose reply capability is in the slot of the thread -/
  | holding (c : Fin n)
  deriving DecidableEq

namespace TokenJob

variable {n : ℕ}

/-- The job of a thread, from its frame. A thread in a waiting function still has its request. -/
def ofFrame : Frame (TokenPc n) → TokenJob n
  | .user (.got c r) => .got c r
  | .user (.inited c id) => .inited c id
  | .user (.posted c) => .holding c
  | .user (.reply c) => .holding c
  | .acquire _ _ (.reply c) => .holding c
  | .semP _ _ (.reply c) => .holding c
  | .relAcq _ (.reply c) => .holding c
  | _ => .free

/-- The request whose caller has not been saved yet, which the next `seL4_Recv` would lose. -/
def brings : TokenJob n → Option (Fin n × TokenRequest)
  | .got c r => some (c, r)
  | .inited c _ => some (c, .init)
  | _ => none

/-- The client that has asked for the token, and that the thread has to answer. -/
def owes : TokenJob n → Option (Fin n)
  | .got c r => if r.asksToken then some c else none
  | .holding c => some c
  | _ => none

/-- The job is about client `c`, for the token or for something else. -/
def About (j : TokenJob n) (c : Fin n) : Prop := j = .holding c ∨ ∃ r, j.brings = some (c, r)

end TokenJob

@[simp] theorem TokenServer.ofFrame_waitFrame {n : ℕ} (T : TokenServer n) (slept : Bool) (p : Addr)
    (c : Fin n) : TokenJob.ofFrame (T.waitFrame slept p c) = .holding c := by
  unfold TokenServer.waitFrame
  split <;> rfl

/-- The desk of the token server, where its threads serve the clients. -/
abbrev TokenDesk (n : ℕ) : Type := Desk (TokenJob n) (TokenShared n)

namespace TokenServer

open Sched

variable {n : ℕ} {T : TokenServer n} {a a' b : AMach (TokenPc n) (TokenShared n)} {i k : ℕ}

/-- The jobs of the token server. A thread is in between while its caller has not been saved. -/
def jobs : Jobs (TokenPc n) (TokenJob n) := ⟨.ofFrame, .free, (·.brings ≠ none), fun h => h rfl⟩

/-- The desk of the abstract machine, without its scheduler. -/
noncomputable abbrev desk (a : AMach (TokenPc n) (TokenShared n)) : TokenDesk n := jobs.desk a

theorem desk_job (h : Live a i) : (desk a).job i = .ofFrame (a.frame i) := Jobs.desk_job h

theorem desk_job_of_not (h : ¬ Live a i) : (desk a).job i = .free := Jobs.desk_job_of_not h

/-- What a thread with the slot `sl` does: its job before and after, and the shared data. In a
waiting loop it does nothing for its client. -/
inductive Serves (g : TokenShared n) (sl : ℕ) : TokenJob n → TokenJob n → TokenShared n → Prop where
  | recv {c : Fin n} {r : TokenRequest} (hc : (g.client c).phase = .asked r) :
    Serves g sl .free (.got c r) (g.receive c r)
  | register {c : Fin n} {id : ℕ} :
    Serves g sl (.inited c id) .free ((g.saveCaller sl).registerClient id sl)
  | immd {c : Fin n} : Serves g sl (.got c .immd) .free g
  | wait {c : Fin n} :
    Serves g sl (.got c .wait) (.holding c) (g.processMessageMulticast.saveCaller sl)
  | sendWait {c : Fin n} : Serves g sl (.got c .sendWait) (.holding c) (g.saveCaller sl)
  | turn {c : Fin n} : Serves g sl (.holding c) (.holding c) g
  | reply {c : Fin n} : Serves g sl (.holding c) .free (g.send sl none)

/-- **What happens at the desk**, with no other thread in between while a thread does something. -/
inductive Handles (x x' : TokenDesk n) : Prop where
  /-- thread 0 does something -/
  | main {u p : Ptr} (hlive : x'.live = x.live) (hjob : x'.job = x.job) (hslot : x'.slot = x.slot)
    (hused : ∀ sl, x.used sl = true → x'.used sl = true)
    (hg : x'.g = { x.g with lockUniverse := u, syncPrim := p })
  /-- a new thread -/
  | hire {i sl : ℕ} (hnew : ¬ x.live i) (hfree : x.used sl = false)
    (hlive : ∀ j, x'.live j ↔ j = i ∨ x.live j) (hjob : x'.job = x.job)
    (hslot : x'.slot = Function.update x.slot i sl)
    (hused : x'.used = Function.update x.used sl true) (hg : x'.g = x.g)
  | serve {i : ℕ} {j j' : TokenJob n} {g : TokenShared n} (hi : x.live i) (hj : x.job i = j)
    (halone : ∀ k, k ≠ i → (x.job k).brings = none) (hs : Serves x.g (x.slot i) j j' g)
    (he : x' = { x with job := Function.update x.job i j', g := g })
  | init {i sl : ℕ} {c : Fin n} (hi : x.live i) (hj : x.job i = .got c .init)
    (halone : ∀ k, k ≠ i → (x.job k).brings = none) (hfree : x.used sl = false)
    (he : x' = { x with
      job := Function.update x.job i (.inited c x.g.clientNew)
      slot := Function.update x.slot i sl
      used := Function.update x.used sl true
      g := x.g.initialClient })
  | tmnt {i : ℕ} {c : Fin n} (hi : x.live i) (hj : x.job i = .got c .tmnt)
    (halone : ∀ k, k ≠ i → (x.job k).brings = none) (hlive : ∀ j, x'.live j ↔ x.live j ∧ j ≠ i)
    (he : x' = { x with
      live := x'.live
      job := Function.update x.job i .free
      g := x.g.terminate c })
  | ask {c : Fin n} {r : TokenRequest} (hc : (x.g.client c).may r = true)
    (he : x' = { x with g := x.g.setClient c ((x.g.client c).ask r) })

/-! ## The steps of the server at the desk -/

/-- A thread between `seL4_Recv` and `vka_cnode_saveCaller` runs, so there is at most one. -/
abbrev Undisturbed (a : AMach (TokenPc n) (TokenShared n)) : Prop := jobs.Undisturbed a

/-- A server thread keeps the processor as long as it has not saved its caller. -/
theorem Acts.brings {fr : Frame (TokenPc n)} {r : Req Addr} (hact : Acts T a i b fr r)
    (hfr : (TokenJob.ofFrame fr).brings ≠ none) : r = .stay := by
  cases hact with
  | pass => exact absurd rfl hfr
  | post => exact absurd rfl hfr
  | sleep =>
    rw [ofFrame_waitFrame] at hfr
    exact absurd rfl hfr
  | _ => rfl

theorem Steps.undisturbed (h : Undisturbed a) (hs : Steps T a a') : Undisturbed a' :=
  h.next hs.threads rfl fun _ _ _ hact => hact.brings

theorem alone (h : Undisturbed a) (hi : a.sched.running = some i) (k : ℕ) (hki : k ≠ i) :
    ((desk a).job k).brings = none :=
  not_not.mp (h.alone hi k hki)

theorem Acts.ne_exit {fr : Frame (TokenPc n)} {r : Req Addr} (hact : Acts T a i b fr r) :
    r ≠ .exit := by
  cases hact <;> simp

/-- What a server thread does without the library is what is served at the desk. -/
theorem Does.serves {sl : ℕ} {g g' : TokenShared n} {u w : TokenPc n} (h : Does sl g u w g') :
    Serves g sl (.ofFrame (.user u)) (.ofFrame (.user w)) g' := by
  cases h with
  | recv hc => exact .recv hc
  | register => exact .register
  | immd => exact .immd
  | reply => exact .reply

theorem Enters.serves {sl : ℕ} {g g' : TokenShared n} {u : TokenPc n} {c : Fin n}
    (h : Enters T sl g u c g') : Serves g sl (.ofFrame (.user u)) (.holding c) g' := by
  cases h with
  | wait => exact .wait
  | posted => exact .turn

/-- All actions but the allocation of a slot change the job and the shared data only. -/
theorem Acts.serves {fr : Frame (TokenPc n)} {r : Req Addr} (hact : Acts T a i b fr r) :
    (∃ g, Keeps a b g ∧
      Serves a.g (a.slot i) (.ofFrame (a.frame i)) (.ofFrame fr) g) ∨
    ∃ c sl, a.frame i = .user (.got c .init) ∧ fr = .user (.inited c a.g.clientNew) ∧
      a.slotUsed sl = false ∧ b.g = a.g.initialClient ∧ b.slot = Function.update a.slot i sl ∧
      b.slotUsed = Function.update a.slotUsed sl true := by
  cases hact with
  | user hf hd hk =>
    refine .inl ⟨_, hk.toKeeps, ?_⟩
    rw [hf]
    exact hd.serves
  | alloc hf hfree hg hslot hused => exact .inr ⟨_, _, hf, rfl, hfree, hg, hslot, hused⟩
  | enter hf he hp hk =>
    refine .inl ⟨_, hk.toKeeps, ?_⟩
    rw [hf, ofFrame_waitFrame]
    exact he.serves
  | pass hb hf hp hk =>
    refine .inl ⟨_, hk, ?_⟩
    rw [hf]
    exact .sendWait
  | post hb hf hp hk =>
    refine .inl ⟨_, hk, ?_⟩
    rw [hf]
    exact .sendWait
  | spin hf hr hbusy hk | sleep hf hr hbusy hk =>
    refine .inl ⟨_, hk.toKeeps, ?_⟩
    simp only [hf, ofFrame_waitFrame]
    exact .turn
  | take hf hfree hk =>
    refine .inl ⟨_, hk, ?_⟩
    rw [hf, ofFrame_waitFrame]
    exact .turn
  | passed hb hf hk =>
    refine .inl ⟨_, hk.toKeeps, ?_⟩
    rw [hf]
    exact .turn

/-- What a server thread does, at the desk. Where it goes in the queues of the scheduler does not
matter there. -/
theorem Acts.handles {fr : Frame (TokenPc n)} {r : Req Addr} (h : Undisturbed a)
    (hi : a.sched.running = some i) (h0 : i ≠ 0) (hact : Acts T a i a' fr r)
    (hs : Step a.sched i r a'.sched) (hframe : a'.frame = Function.update a.frame i fr) :
    Handles (desk a) (desk a') := by
  have hi' := live_of_running hi h0
  obtain ⟨hlive, hjob⟩ := Jobs.desk_act hi h0 hs hact.ne_exit hframe
  rcases hact.serves with ⟨g, hk, hserves⟩ | ⟨c, sl, hf, rfl, hfree, hg, hslot, hused⟩
  · exact .serve hi' (desk_job hi') (alone h hi) hserves
      (Desk.ext hlive hjob hk.slot hk.slotUsed hk.g)
  · have hold := desk_job hi'
    rw [hf] at hold
    exact .init hi' hold (alone h hi) hfree (Desk.ext hlive hjob hslot hused hg)

/-- **The protocol.** Every step of the server is one at the desk. -/
theorem Steps.handles (h : Undisturbed a) (hs : Steps T a a') : Handles (desk a) (desk a') := by
  -- thread 0 acts, and the threads stay where they are
  have hmain : ∀ {fr : Frame (TokenPc n)} {u p : Ptr}, (∀ k, Live a' k ↔ Live a k) →
      a'.frame = Function.update a.frame 0 fr → a'.slot = a.slot →
      (∀ sl, a.slotUsed sl = true → a'.slotUsed sl = true) →
      a'.g = { a.g with lockUniverse := u, syncPrim := p } → Handles (desk a) (desk a') := by
    intro fr u p hlive hframe hslot hused hg
    obtain ⟨hl, hj⟩ := Jobs.desk_same (D := jobs) hlive fun k hk => by
      rw [hframe, Function.update_of_ne hk]
    exact .main hl hj hslot hused hg
  cases hs with
  | pool _ _ hq _ hframe hg hslot hused =>
    exact hmain hq.live_iff hframe hslot (fun sl hsl => by rwa [hused]) hg
  | made _ _ hq _ hframe hg hslot hused =>
    exact hmain hq.live_iff hframe hslot (fun sl hsl => by rwa [hused]) hg
  | held _ _ hq _ hframe hk =>
    exact hmain hq.live_iff hframe hk.slot (fun sl hsl => by rwa [hk.slotUsed]) hk.g
  | create hi hf hu hid h0 hrun hready hwait hplace hfree hframe hg hslot hused =>
    obtain ⟨hnew, hlive, hjob⟩ := Jobs.desk_create (D := jobs) hid h0 hplace hframe rfl
    exact .hire hnew hfree hlive hjob hslot hused hg
  | notCreated _ _ _ hq hframe hg hslot hused =>
    exact hmain hq.live_iff hframe hslot hused hg
  | resume hi _ hstep hframe hk =>
    exact hmain (live_iff_act hi hstep nofun) hframe hk.slot (fun sl hsl => by rwa [hk.slotUsed])
      hk.g
  | act hi h0 hact hstep hframe => exact hact.handles h hi h0 hstep hframe
  | exit hi h0 hf hstep hframe hk =>
    have hi' := live_of_running hi h0
    have hold := desk_job hi'
    rw [hf] at hold
    obtain ⟨hlive, hjob⟩ := Jobs.desk_exit (D := jobs) hi hstep hframe
    exact .tmnt hi' hold (alone h hi) hlive (Desk.ext rfl hjob hk.slot hk.slotUsed hk.g)
  | @env e g he hsched hframe hk =>
    have hsame : ∀ k, Live a' k ↔ Live a k := fun k => by rw [Live, Live, hsched]
    obtain ⟨hlive, hjob⟩ := Jobs.desk_same (D := jobs) hsame fun k _ => by rw [hframe]
    obtain ⟨hc, rfl⟩ := call_eq he
    exact .ask hc (Desk.ext hlive hjob hk.slot hk.slotUsed hk.g)

end TokenServer

end GreenLib
