import GreenLib.Handover

/-!
# Servers and their desks

The servers that `main.c` builds on green threads have one shape: thread 0 sets up, creates the
server threads and resumes one of them, and from then on the server threads receive requests and
answer them. What the builds have in common is here, for any program counters and any shared data.

`ThreadStep` says what a step of such a server does to the threads: who exists afterwards, and where
they are. Seen from its clients the server is a `Desk`: a number of threads, each with its job and
its slot, and the shared data. Which frame means which job is up to the build (`Jobs`). The only
thing the protocols need from the scheduler is that a thread which has received a request and has
not yet saved the caller is not interrupted (`Jobs.Undisturbed`); the kernel holds the reply
capability of one caller only.
-/

namespace GreenLib

open Sched

variable {U G J : Type} {a a' b : AMach U G} {i k : ℕ}

/-- A server thread that exists. Thread 0 sets the server up and is not counted among them. -/
def Live (a : AMach U G) (i : ℕ) : Prop := i ≠ 0 ∧ a.sched.place i ≠ .nowhere

theorem live_of_running (hi : a.sched.running = some i) (h0 : i ≠ 0) : Live a i :=
  ⟨h0, by simp [place_running hi]⟩

/-- The data that `b` shares with `a`, but for the shared data `g` of the program and for what is
in the primitives. -/
structure Keeps (a b : AMach U G) (g : G) : Prop where
  g : b.g = g
  slot : b.slot = a.slot
  slotUsed : b.slotUsed = a.slotUsed
  kind : b.kind = a.kind

/-- The queues of two schedulers are the same. Which primitives there are, and the next id, may
differ. -/
structure SameQueues (x y : Sched Addr) : Prop where
  running : y.running = x.running
  ready : y.ready = x.ready
  waiting : y.waiting = x.waiting
  place : y.place = x.place

theorem SameQueues.live_iff (h : SameQueues a.sched a'.sched) (k : ℕ) : Live a' k ↔ Live a k := by
  rw [Live, Live, h.place]

/-! ## Threads -/

/-- **What a step does to the threads.** A new thread begins at `start`, and `acts` says what a
server thread can do: where it goes on, and what it asks of the scheduler. -/
inductive ThreadStep (start : U) (acts : ℕ → Frame U → Req Addr → Prop) (a a' : AMach U G) :
    Prop where
  /-- thread 0 sets up, or fails to create a thread -/
  | main {fr : Frame U} (hi : a.sched.running = some 0) (hs : SameQueues a.sched a'.sched)
    (hframe : a'.frame = Function.update a.frame 0 fr)
  /-- thread 0 creates a server thread -/
  | create {fr : Frame U} {id : ℕ} (hi : a.sched.running = some 0) (hid : id = a.sched.newId)
    (h0 : id ≠ 0) (hplace : a'.sched.place = Function.update a.sched.place id .ready)
    (hframe : a'.frame = Function.update (Function.update a.frame 0 fr) id (.user start))
  /-- thread 0 resumes a server thread -/
  | resume {fr : Frame U} {id : ℕ} (hi : a.sched.running = some 0)
    (hs : Step a.sched 0 (.resume id) a'.sched)
    (hframe : a'.frame = Function.update a.frame 0 fr)
  | act {i : ℕ} {fr : Frame U} {r : Req Addr} (hi : a.sched.running = some i) (h0 : i ≠ 0)
    (hact : acts i fr r) (hs : Step a.sched i r a'.sched)
    (hframe : a'.frame = Function.update a.frame i fr)
  | exit {i : ℕ} (hi : a.sched.running = some i) (h0 : i ≠ 0)
    (hs : Step a.sched i .exit a'.sched) (hframe : a'.frame = a.frame)
  /-- a client makes a call -/
  | env (hs : a'.sched = a.sched) (hframe : a'.frame = a.frame)

namespace ThreadStep

variable {start : U} {acts : ℕ → Frame U → Req Addr → Prop}

/-- The threads that do not act keep their frames; a new thread is at `start`. -/
theorem frame_of_ne (hs : ThreadStep start acts a a') (h0 : k ≠ 0)
    (hk : a'.sched.place k ≠ .nowhere) (hrun : a.sched.running ≠ some k) :
    a.sched.place k ≠ .nowhere ∧ a'.frame k = a.frame k ∨
      a.sched.place k = .nowhere ∧ a'.frame k = .user start := by
  have hne : ∀ {i}, a.sched.running = some i → k ≠ i := fun hi he => hrun (he ▸ hi)
  cases hs with
  | main hi hq hframe =>
    rw [hq.place] at hk
    exact .inl ⟨hk, by rw [hframe, Function.update_of_ne h0]⟩
  | @create fr id hi hid hid0 hplace hframe =>
    rcases eq_or_ne k id with rfl | hki
    · exact .inr ⟨hid ▸ place_newId, by rw [hframe, Function.update_self]⟩
    · rw [hplace, Function.update_of_ne hki] at hk
      exact .inl ⟨hk, by rw [hframe, Function.update_of_ne hki, Function.update_of_ne h0]⟩
  | resume hi hs hframe =>
    exact .inl ⟨hs.placed hi hk, by rw [hframe, Function.update_of_ne h0]⟩
  | act hi _ _ hs hframe =>
    exact .inl ⟨hs.placed hi hk, by rw [hframe, Function.update_of_ne (hne hi)]⟩
  | exit hi _ hs hframe => exact .inl ⟨hs.placed hi hk, by rw [hframe]⟩
  | env hs hframe =>
    rw [hs] at hk
    exact .inl ⟨hk, by rw [hframe]⟩

/-- What holds at `start` and behind every action holds where the server threads are. -/
theorem frames {Q : Frame U → Prop} (hs : ThreadStep start acts a a') (hstart : Q (.user start))
    (hact : ∀ i fr r, acts i fr r → Q (a.frame i) → Q fr)
    (h : ∀ i, Live a i → Q (a.frame i)) (k : ℕ) (hk : Live a' k) : Q (a'.frame k) := by
  by_cases hrun : a.sched.running = some k
  · have hold := h k (live_of_running hrun hk.1)
    have hzero : a.sched.running ≠ some 0 := by
      rw [hrun]
      exact fun he => hk.1 (Option.some.inj he)
    cases hs with
    | act hi _ ha _ hframe =>
      obtain rfl := Option.some.inj (hrun.symm.trans hi)
      rw [hframe, Function.update_self]
      exact hact k _ _ ha hold
    | exit _ _ _ hframe | env _ hframe => rwa [hframe]
    | main hi | create hi | resume hi => exact absurd hi hzero
  · rcases hs.frame_of_ne hk.1 hk.2 hrun with ⟨hp, he⟩ | ⟨-, he⟩ <;> rw [he]
    · exact h k ⟨hk.1, hp⟩
    · exact hstart

end ThreadStep

theorem live_iff_create {id : ℕ} (h0 : id ≠ 0)
    (hplace : a'.sched.place = Function.update a.sched.place id .ready) (k : ℕ) :
    Live a' k ↔ k = id ∨ Live a k := by
  rcases eq_or_ne k id with rfl | hne
  · simp [Live, hplace, h0]
  · simp [Live, hplace, hne]

theorem live_iff_act {r : Req Addr} (hi : a.sched.running = some i)
    (hs : Step a.sched i r a'.sched) (hr : r ≠ .exit) (k : ℕ) : Live a' k ↔ Live a k := by
  rw [Live, Live, hs.placed_iff hi]
  simp [hr]

theorem live_iff_exit (hi : a.sched.running = some i) (hs : Step a.sched i .exit a'.sched)
    (k : ℕ) : Live a' k ↔ Live a k ∧ k ≠ i := by
  rw [Live, Live, hs.placed_iff hi]
  simp [and_assoc]

/-- Whoever does not act stays, whatever the acting thread asks of the scheduler. -/
theorem Live.step {r : Req Addr} (hk : Live a k) (hki : k ≠ i) (hi : a.sched.running = some i)
    (hs : Step a.sched i r a'.sched) : Live a' k :=
  ⟨hk.1, (hs.placed_iff hi).mpr ⟨hk.2, fun he => absurd he hki⟩⟩

/-! ## The desk -/

/-- What the protocol of a server is about: jobs, slots and the shared data `g`. Queues and frames
are left out. -/
@[ext]
structure Desk (J G : Type) : Type where
  /-- the threads that have been created and have not exited -/
  live : ℕ → Prop
  job : ℕ → J
  slot : ℕ → ℕ
  used : ℕ → Bool
  g : G

/-- How a server sees its threads: the job that a frame stands for, and the jobs in which the
request has been received and the caller is not saved yet. -/
structure Jobs (U J : Type) : Type where
  jobOf : Frame U → J
  /-- the job of a thread at `seL4_Recv` -/
  free : J
  hot : J → Prop
  not_hot_free : ¬ hot free

namespace Jobs

variable {D : Jobs U J}

open Classical in
/-- The desk of the abstract machine. A thread that does not exist counts as free. -/
noncomputable def desk (D : Jobs U J) (a : AMach U G) : Desk J G where
  live := Live a
  job i := if Live a i then D.jobOf (a.frame i) else D.free
  slot := a.slot
  used := a.slotUsed
  g := a.g

theorem desk_job (h : Live a i) : (D.desk a).job i = D.jobOf (a.frame i) := if_pos h

theorem desk_job_of_not (h : ¬ Live a i) : (D.desk a).job i = D.free := if_neg h

/-- A thread that stays where it is keeps its job, and one that does not exist has none before and
after. -/
theorem desk_job_congr (hlive : Live a' k ↔ Live a k)
    (hframe : Live a k → a'.frame k = a.frame k) : (D.desk a').job k = (D.desk a).job k := by
  by_cases hk : Live a k
  · rw [desk_job hk, desk_job (hlive.mpr hk), hframe hk]
  · rw [desk_job_of_not hk, desk_job_of_not fun hk' => hk (hlive.mp hk')]

/-- A step in which no server thread acts, comes or goes changes no job. -/
theorem desk_same (hlive : ∀ k, Live a' k ↔ Live a k)
    (hframe : ∀ k, k ≠ 0 → a'.frame k = a.frame k) :
    (D.desk a').live = (D.desk a).live ∧ (D.desk a').job = (D.desk a).job :=
  ⟨funext fun k => propext (hlive k),
    funext fun k => desk_job_congr (hlive k) fun hk => hframe k hk.1⟩

/-- A new thread is free, as it was before it existed, so no job changes. -/
theorem desk_create {fr : Frame U} {u : U} {id : ℕ} (hid : id = a.sched.newId) (h0 : id ≠ 0)
    (hplace : a'.sched.place = Function.update a.sched.place id .ready)
    (hframe : a'.frame = Function.update (Function.update a.frame 0 fr) id (.user u))
    (hfree : D.jobOf (.user u) = D.free) :
    ¬ Live a id ∧ (∀ k, Live a' k ↔ k = id ∨ Live a k) ∧ (D.desk a').job = (D.desk a).job := by
  have hnew : ¬ Live a id := fun hl => hl.2 (hid ▸ place_newId)
  have hlive := live_iff_create (a := a) h0 hplace
  refine ⟨hnew, hlive, funext fun k => ?_⟩
  rcases eq_or_ne k id with rfl | hne
  · rw [desk_job ((hlive k).mpr (.inl rfl)), hframe, Function.update_self, desk_job_of_not hnew,
      hfree]
  · refine desk_job_congr ((hlive k).trans (or_iff_right hne)) fun hk => ?_
    rw [hframe, Function.update_of_ne hne, Function.update_of_ne hk.1]

/-- Thread `i` goes to `fr`, and only its job changes. Whether it gives control away does not
matter. -/
theorem desk_act {fr : Frame U} {r : Req Addr} (hi : a.sched.running = some i) (h0 : i ≠ 0)
    (hs : Step a.sched i r a'.sched) (hr : r ≠ .exit)
    (hframe : a'.frame = Function.update a.frame i fr) :
    (D.desk a').live = (D.desk a).live ∧
      (D.desk a').job = Function.update (D.desk a).job i (D.jobOf fr) := by
  have hlive := live_iff_act hi hs hr
  refine ⟨funext fun k => propext (hlive k), funext fun k => ?_⟩
  rcases eq_or_ne k i with rfl | hne
  · have hk := live_of_running hi h0
    rw [desk_job ((hlive k).mpr hk), hframe, Function.update_self, Function.update_self]
  · rw [Function.update_of_ne hne]
    exact desk_job_congr (hlive k) fun _ => by rw [hframe, Function.update_of_ne hne]

/-- Thread `i` exits. It counts as free afterwards and is no longer there. -/
theorem desk_exit (hi : a.sched.running = some i) (hs : Step a.sched i .exit a'.sched)
    (hframe : a'.frame = a.frame) : (∀ k, Live a' k ↔ Live a k ∧ k ≠ i) ∧
      (D.desk a').job = Function.update (D.desk a).job i D.free := by
  have hlive := live_iff_exit hi hs
  refine ⟨hlive, funext fun k => ?_⟩
  rcases eq_or_ne k i with rfl | hne
  · rw [Function.update_self, desk_job_of_not fun hk => ((hlive k).mp hk).2 rfl]
  · rw [Function.update_of_ne hne]
    exact desk_job_congr ((hlive k).trans (and_iff_left hne)) fun _ => by rw [hframe]

/-! ## Undisturbed threads -/

/-- A thread between `seL4_Recv` and `vka_cnode_saveCaller` runs, so there is at most one. -/
def Undisturbed (D : Jobs U J) (a : AMach U G) : Prop :=
  ∀ i, Live a i → D.hot (D.jobOf (a.frame i)) → a.sched.running = some i

/-- A server is undisturbed if its threads give control away only when they have saved the
caller. -/
theorem Undisturbed.next {start : U} {acts : ℕ → Frame U → Req Addr → Prop}
    (h : D.Undisturbed a) (hs : ThreadStep start acts a a') (hfree : D.jobOf (.user start) = D.free)
    (hstay : ∀ i fr r, acts i fr r → D.hot (D.jobOf fr) → r = .stay) : D.Undisturbed a' := by
  intro k hk hhot
  by_cases hrun : a.sched.running = some k
  · cases hs with
    | act hi h0 hact hs hframe =>
      obtain rfl := Option.some.inj (hrun.symm.trans hi)
      rw [hframe, Function.update_self] at hhot
      obtain rfl := hstay k _ _ hact hhot
      rwa [hs.stay_eq]
    | exit hi _ hs =>
      obtain rfl := Option.some.inj (hrun.symm.trans hi)
      exact absurd rfl ((live_iff_exit hi hs k).mp hk).2
    | env hs => exact hs ▸ hrun
    | main hi | create hi | resume hi => exact absurd (Option.some.inj (hrun.symm.trans hi)) hk.1
  · rcases hs.frame_of_ne hk.1 hk.2 hrun with ⟨hp, he⟩ | ⟨-, he⟩ <;> rw [he] at hhot
    · exact absurd (h k ⟨hk.1, hp⟩ hhot) hrun
    · rw [hfree] at hhot
      exact absurd hhot D.not_hot_free

/-- Before there are server threads nothing is disturbed, since there is nobody to be. -/
theorem Undisturbed.initial {A E : Type} {P : Program U G A E} (h : a.Init P) :
    D.Undisturbed a :=
  fun i hi => absurd (h.place i hi.1) hi.2

/-- Nobody else is in between when a thread acts, so the reply capability that the kernel holds is
its own. -/
theorem Undisturbed.alone (h : D.Undisturbed a) (hi : a.sched.running = some i) (k : ℕ)
    (hki : k ≠ i) : ¬ D.hot ((D.desk a).job k) := by
  by_cases hk : Live a k
  · rw [desk_job hk]
    intro hhot
    exact hki (Option.some.inj ((h k hk hhot).symm.trans hi))
  · rw [desk_job_of_not hk]
    exact D.not_hot_free

end Jobs

end GreenLib
