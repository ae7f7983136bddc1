import GreenLib.Simulation

/-!
# Programs whose main thread hands over

`main_continued` of `main.c` is thread 0: it calls `thread_initial`, creates the
primitives and the server threads, resumes one of them and does nothing more. A
program of this shape is a `Program.Handover`. Thread 0 may get control back, when
`thread_yield` or `thread_exit` finds the ready queue empty, but then it only prints
and returns.

For such programs a run is calm as soon as every `thread_resume` of a created thread
targets a thread of the ready queue (`Handover.simulation`), and in every such run the
threads are partitioned among the processor and the queues (`scheduler_partition`).
-/

namespace GreenLib

open State Sched

variable {U G A E : Type}

/-- The calls with which thread 0 sets the library up. None of them gives the processor away. -/
def Call.Setup : Call U → Prop
  | .pause => True
  | .create _ => True
  | .primInit => True
  | .lockCreate => True
  | .semCreate => True
  | _ => False

/-- Thread 0 sets up while its user state satisfies `main`, resumes one thread and is done, in a
state that satisfies `idle`. -/
structure Program.Handover (P : Program U G A E) (main idle : U → Prop) : Prop where
  start : main P.main
  next : ∀ {act v u g c ret g'}, main u → P.next act v u g = some (c, ret, g') →
    c.Setup ∧ (∀ r, main (ret r)) ∨ (∃ id, c = .resume id) ∧ idle (ret none)
  stop : ∀ {act v u g}, idle u → P.next act v u g = none

/-- A script of this shape: calls that set up, at most one resume, and nothing behind it. -/
def Script.HandsOver : Script → Prop
  | .done => True
  | .call (.resume _) rest => rest = .done
  | .call c rest => c.Setup ∧ rest.HandsOver

theorem Script.handover {main : Script} (h : main.HandsOver) :
    main.program.Handover Script.HandsOver (· = .done) := by
  refine ⟨h, ?_, fun hu => by rw [hu]; rfl⟩
  intro act v u g c ret g' hu hn
  cases u with
  | done => cases hn
  | call d rest =>
    obtain ⟨rfl, rfl, rfl⟩ : d = c ∧ (fun _ => rest) = ret ∧ g = g' := by
      simpa [Script.program] using hn
    cases d with
    | resume id => exact .inr ⟨⟨id, rfl⟩, hu⟩
    | _ => exact .inl ⟨hu.1, fun _ => hu.2⟩

/-! ## Thread 0 -/

/-- Thread 0 still sets up, or it has handed over for good. In the second case it is parked and will
do nothing should it get control. -/
def AMach.Zero (main idle : U → Prop) (a : AMach U G) : Prop :=
  (∃ u, a.sched.running = some 0 ∧ a.frame 0 = .user u ∧ main u) ∨
    a.sched.place 0 = .parked ∧ ∃ u, a.frame 0 = .user u ∧ idle u

namespace Program.Handover

variable {P : Program U G A E} {main idle : U → Prop} {a a' : AMach U G} {l : Label A E}

/-- What the call of a thread 0 that still sets up can be, if it does not resume: one of the setup
calls, and it goes on setting up. -/
theorem setup (hP : P.Handover main idle) {act : A} {v : View} {u : U} {g g' : G} {c : Call U}
    {ret : Option ℕ → U} (hu : main u) (hn : P.next act v u g = some (c, ret, g'))
    (hr : ∀ id, c ≠ .resume id) : c.Setup ∧ ∀ r, main (ret r) := by
  rcases hP.next hu hn with h | ⟨⟨id, h⟩, _⟩
  · exact h
  · exact absurd h (hr id)

/-- One action of a thread 0 that sets up: it sets up further, or it hands over and is parked. -/
theorem zero_act (hP : P.Handover main idle) {u : U} (hi : a.sched.running = some 0)
    (hf : a.frame 0 = .user u) (hu : main u) {b : AMach U G} {fr : Frame U} {r : Req Addr}
    {sched : Sched Addr} (hact : Act P a 0 l b fr r) (hs : Step a.sched 0 r sched) :
    { b with sched := sched, frame := Function.update a.frame 0 fr }.Zero main idle := by
  -- a call that thread 0 does not make, or a frame that it is not in
  have hno : ∀ {act : A} {c : Call U} {ret : Option ℕ → U} {g : G} {u' : U},
      a.frame 0 = .user u' → P.next act (a.view 0) u' a.g = some (c, ret, g) →
      (∀ id, c ≠ .resume id) → ¬ c.Setup → False := by
    intro act c ret g u' hf' hn hr hc
    obtain rfl : u = u' := Frame.user.inj (hf.symm.trans hf')
    exact hc (hP.setup hu hn hr).1
  cases hact with
  | plain hf' hn hr =>
    rename_i u' act al c ret g
    obtain rfl : u = u' := Frame.user.inj (hf.symm.trans hf')
    rcases hP.next hu hn with ⟨hc, hmain⟩ | ⟨⟨id, rfl⟩, hidle⟩
    · cases c <;> first | exact hc.elim | cases hr
      cases hs
      exact .inl ⟨ret none, hi, by simp, hmain none⟩
    · obtain rfl := Option.some.inj hr
      cases hs with
      | resume h0 => exact absurd rfl h0
      | handback h0 => exact absurd rfl h0
      | handover _ hj h =>
        have hne : (0 : ℕ) ≠ id := (ne_running_of_place hi (place_ready hj) (by simp)).symm
        refine .inr ⟨?_, ?_⟩
        · change sched.place 0 = .parked
          rw [h.place, Function.update_of_ne hne, Function.update_self]
        · exact ⟨ret none, by simp, hidle⟩
  | primFail hf' hn hc =>
    rename_i c ret _ _ _
    obtain rfl := Frame.user.inj (hf.symm.trans hf')
    cases hs
    have hr : ∀ id, c ≠ .resume id := by
      rintro id rfl
      cases hc
    exact .inl ⟨ret none, hi, by simp, (hP.setup hu hn hr).2 none⟩
  | acquire hf' hn => exact (hno hf' hn (by simp) id).elim
  | release hf' hn => exact (hno hf' hn (by simp) id).elim
  | releaseAcquire hf' hn => exact (hno hf' hn (by simp) id).elim
  | semP hf' hn => exact (hno hf' hn (by simp) id).elim
  | semV hf' hn => exact (hno hf' hn (by simp) id).elim
  | cvWait hf' hn => exact (hno hf' hn (by simp) id).elim
  | join hf' hn => exact (hno hf' hn (by simp) id).elim
  | cspaceAlloc hf' hn => exact (hno hf' hn (by simp) id).elim
  | acquireSpin hf' => cases hf.symm.trans hf'
  | acquireSleep hf' => cases hf.symm.trans hf'
  | acquireDone hf' => cases hf.symm.trans hf'
  | relAcq hf' => cases hf.symm.trans hf'
  | semPSpin hf' => cases hf.symm.trans hf'
  | semPSleep hf' => cases hf.symm.trans hf'
  | semPDone hf' => cases hf.symm.trans hf'
  | cvSleep hf' => cases hf.symm.trans hf'
  | cvAcquire hf' => cases hf.symm.trans hf'
  | joinAgain _ hf' => cases hf.symm.trans hf'
  | joinDone hf' => cases hf.symm.trans hf'

/-- Thread 0 keeps its role in every step, whoever makes it. -/
theorem zero_step (hP : P.Handover main idle) (h : a.Zero main idle) (hs : AStep P a l a') :
    a'.Zero main idle := by
  rcases h with ⟨u, hi, hf, hu⟩ | ⟨hpark, hidle⟩
  · have hzero : ∀ {i}, a.sched.running = some i → i = 0 :=
      fun hi' => (Option.some.inj (hi.symm.trans hi')).symm
    -- thread 0 acts, in the user state `u`
    cases hs with
    | act hi' hact hstep =>
      obtain rfl := hzero hi'
      exact hP.zero_act hi hf hu hact hstep
    | exit hi' hf' hn =>
      obtain rfl := hzero hi'
      obtain rfl := Frame.user.inj (hf.symm.trans hf')
      exact (hP.setup hu hn (by simp)).1.elim
    | create hi' hf' hn hid h0 hnew hprims hrun =>
      obtain rfl := hzero hi'
      obtain rfl := Frame.user.inj (hf.symm.trans hf')
      refine .inl ⟨_, hrun.trans hi, ?_, (hP.setup hu hn (by simp)).2 (some a.sched.newId)⟩
      simp [← hid, Function.update_of_ne h0.symm]
    | notCreated hi' hf' hn hsched =>
      obtain rfl := hzero hi'
      obtain rfl := Frame.user.inj (hf.symm.trans hf')
      refine .inl ⟨_, ?_, by simp, (hP.setup hu hn (by simp)).2 (some 0)⟩
      rcases hsched with rfl | rfl <;> exact hi
    | primMade hi' hf' hn hc hal hp =>
      obtain rfl := hzero hi'
      obtain rfl := Frame.user.inj (hf.symm.trans hf')
      rename_i p
      refine .inl ⟨_, hi, by simp, (hP.setup hu hn ?_).2 (some p)⟩
      rintro id rfl
      cases hc
    | primGone hi' hf' hn hc =>
      obtain rfl := hzero hi'
      obtain rfl := Frame.user.inj (hf.symm.trans hf')
      rcases hc with ⟨rfl, _⟩ | ⟨rfl, _⟩
      · exact (hP.setup hu hn (by simp)).1.elim
      · exact (hP.setup hu hn (by simp)).1.elim
    | env he => exact .inl ⟨u, hi, hf, hu⟩
  · -- another thread acts: thread 0 is in no queue, so it is not switched to
    have hplaced : a.sched.place 0 ≠ .nowhere := by simp [hpark]
    have hrun : a.sched.running ≠ some 0 := running_ne (by simp [hpark])
    rcases hs.moves hplaced hrun with ⟨_, hsame⟩ | ⟨_, hq⟩
    · exact .inr ⟨hsame.trans hpark, by rwa [hs.frame_of_ne hplaced hrun]⟩
    · rw [hpark] at hq
      rcases hq with hq | ⟨p, hq⟩ <;> cases hq

theorem zero (hP : P.Handover main idle) (h : Reach P.aruns a) : a.Zero main idle :=
  Reach.invariant (T := P.aruns) (P := AMach.Zero main idle)
    (fun _ h₀ => .inl ⟨_, h₀.running, h₀.frame, hP.start⟩)
    (fun _ _ _ _ hz hs => hP.zero_step hz hs) h

end Program.Handover

/-! ## Calm runs -/

/-- Every created thread that the step resumes, by whatever call, is in the ready queue. -/
def ResumesReady (P : Program U G A E) (m : Mach U G) (l : Label A E) : Prop :=
  ∀ id ∈ m.target P l, id ≠ 0 → id ∈ m.st.readyIds

instance (P : Program U G A E) (m : Mach U G) (l : Label A E) : Decidable (ResumesReady P m l) :=
  inferInstanceAs (Decidable (∀ id ∈ m.target P l, id ≠ 0 → id ∈ m.st.readyIds))

namespace Program.Handover

variable {P : Program U G A E} {main idle : U → Prop} {m : Mach U G} {a : AMach U G} {l : Label A E}

/-- While a created thread runs, thread 0 can be given control: it is done. -/
theorem back (hP : P.Handover main idle) (hz : a.Zero main idle) (h : Sim P False m a)
    (h0 : a.sched.running ≠ some 0) : m.Back P False := by
  rcases hz with ⟨_, hi, _⟩ | ⟨hpark, u, hf, hu⟩
  · exact absurd hi h0
  · refine ⟨not_false, fun t ht => ⟨u, ?_, fun _ _ _ => hP.stop hu⟩⟩
    rw [h.ctx 0 t (by simp [hpark]) h0 ht, hf]

/-- The calls of thread 0, when it runs: it sets up, or it hands over with `thread_resume`. -/
theorem calls_zero (hP : P.Handover main idle) (hz : a.Zero main idle) (h : Sim P False m a)
    (h0 : a.sched.running = some 0) {c : Call U} (hc : m.Calls P l c) :
    c.Setup ∨ ∃ id, c = .resume id := by
  rcases hz with ⟨u, _, hf, hu⟩ | ⟨hpark, _⟩
  · obtain ⟨act, al, u', ret, g, _, hcpu, hn⟩ := hc
    obtain rfl : u = u' := Frame.user.inj (hf.symm.trans ((h.cpu 0 h0).symm.trans hcpu))
    rcases hP.next hu hn with ⟨hs, _⟩ | ⟨hr, _⟩
    · exact .inl hs
    · exact .inr hr
  · rw [place_running h0] at hpark
    cases hpark

/-- A step of a program that hands over is calm if it resumes ready threads only. So calmness is a
condition on the targets of `thread_resume` and on nothing else. -/
theorem calm (hP : P.Handover main idle) (hz : a.Zero main idle) (h : Sim P False m a)
    (hr : ResumesReady P m l) {m' : Mach U G} (he : m.step P l = .ok m') : Calm P False m l := by
  constructor
  · intro id hid
    by_cases h0 : id = 0
    · refine .inr ⟨h0, hP.back hz h fun hrun => ?_⟩
      -- thread 0 itself would resume thread 0, against the assertion of `thread_resume`
      rcases Mach.target_cases hid with hc | hc | ⟨cur, new, j, u, hcpu⟩
      · obtain ⟨act, al, u, ret, g, rfl, hcpu, hn⟩ := hc
        simp only [Mach.step, hcpu, hn] at he
        obtain ⟨s', tr, hs, _⟩ := Mach.finish_eq_ok he
        exact h.repr.threadResume_self (h0 ▸ hrun) hs
      · rcases hP.calls_zero hz h hrun hc with hs | ⟨id', hs⟩
        · exact hs
        · cases hs
      · rcases hz with ⟨u', _, hf, _⟩ | ⟨hpark, _⟩
        · cases hcpu.symm.trans ((h.cpu 0 hrun).trans hf)
        · rw [place_running hrun] at hpark
          cases hpark
    · exact .inl ⟨h0, hr id hid h0⟩
  · intro hx _
    refine hP.back hz h fun hrun => ?_
    rcases hP.calls_zero hz h hrun hx with hs | ⟨id, hs⟩
    · exact hs
    · cases hs

/-- **Refinement for programs that hand over.** A condition `ok` on abstract steps can be carried
over from the steps of the system `T`. -/
theorem simulation (hP : P.Handover main idle) {T : Lts (Mach U G) (Label A E)}
    {ok : AMach U G → Label A E → Prop} (h₀ : ∀ m, T.init m → P.runs.init m)
    (h₁ : ∀ m l m' a, Reach (P.aruns.guard ok) a → Sim P False m a → T.step m l m' →
      P.runs.step m l m' ∧ ResumesReady P m l ∧ ok a l) :
    Simulation T (P.aruns.guard ok) (Sim P False) := by
  apply GreenLib.simulation
  · intro m hm
    exact ⟨h₀ m hm, False.elim⟩
  · intro m l m' a ha hs hstep
    obtain ⟨he, hr, hok⟩ := h₁ m l m' a ha hs hstep
    exact ⟨he, hP.calm (hP.zero ha.of_guard) hs hr he, hok⟩

/-- One more step of such a run is one step of the abstract machine, or none. -/
theorem sim_step (hP : P.Handover main idle) (ha : Reach P.aruns a) (h : Sim P False m a)
    (hr : ResumesReady P m l) {m' : Mach U G} (he : m.step P l = .ok m') :
    ∃ a', Sim P False m' a' ∧ (a' = a ∨ AStep P a l a') :=
  h.step (hP.calm (hP.zero ha) h hr he) he

/-- One more step of the running thread is one step of the abstract machine: only the changes of
freed records have no counterpart. -/
theorem sim_step_of_ne (hP : P.Handover main idle) (ha : Reach P.aruns a) (h : Sim P False m a)
    (hr : ResumesReady P m l) {m' : Mach U G} (he : m.step P l = .ok m')
    (hl : ∀ t junk, l ≠ .scribble t junk) : ∃ a', Sim P False m' a' ∧ AStep P a l a' :=
  h.step_of_ne (hP.calm (hP.zero ha) h hr he) he hl

/-- Every run of a program that hands over in which ready threads only are resumed is a run of the
abstract machine. All results about the library go through it. -/
theorem reach (hP : P.Handover main idle) (hm : Reach (P.runs.guard (ResumesReady P)) m) :
    ∃ a, Reach P.aruns a ∧ Sim P False m a := by
  have hsim : Simulation (P.runs.guard (ResumesReady P)) (P.aruns.guard fun _ _ => True)
      (Sim P False) := by
    apply hP.simulation
    · exact fun m hm => hm
    · intro m l m' a _ _ hs
      exact ⟨hs.2, hs.1, trivial⟩
  obtain ⟨a, ha, h⟩ := hsim.reach hm
  exact ⟨a, ha.of_guard, h⟩

end Program.Handover

/-! ## The partition -/

/-- Thread `i` has been created and has not called `thread_exit`. -/
def Mach.Live (m : Mach U G) (i : ℕ) : Prop :=
  i ≠ 0 ∧ m.created i = true ∧ m.exited i = false

/-- Where thread `j` continues: on the processor if it is the current thread, otherwise in its saved
context. There is no answer for an id without a record. -/
def Mach.frameOf (m : Mach U G) (j : ℕ) : Option (Frame U) :=
  if m.st.coCurrentId = j then some m.cpu else (m.st.addrs j).map m.ctx

/-- The record of thread `i` is that of the running thread. -/
def State.Runs (s : State) (i : ℕ) : Prop :=
  s.coCurrentId = i ∧ ∃ run, s.tRunning = some run ∧ s.addrs i = some (s.thread run)

/-- The scheduler's data structures place every thread, and count right. All fields are about the
memory of the machine, with nothing abstract in them. -/
structure Partitioned (m : Mach U G) : Prop where
  /-- a live thread runs, is ready, or waits on one primitive, and its status says so -/
  live : ∀ i, m.Live i → ∃ t, m.st.addrs i = some t ∧
    (m.st.Runs i ∧ i ∉ m.st.readyIds ∧ (∀ p, m.st.kind p ≠ none → i ∉ m.st.waitingIds p) ∧
        m.st.status t = .running ∨
      ¬ m.st.Runs i ∧ m.st.readyIds.count i = 1 ∧
        (∀ p, m.st.kind p ≠ none → i ∉ m.st.waitingIds p) ∧ m.st.status t = .ready ∨
      ¬ m.st.Runs i ∧ i ∉ m.st.readyIds ∧
        (∃ p, m.st.kind p ≠ none ∧ (m.st.waitingIds p).count i = 1 ∧
          ∀ q, m.st.kind q ≠ none → q ≠ p → i ∉ m.st.waitingIds q) ∧
        m.st.status t = .waiting)
  /-- the queues hold live threads only, so none that has exited -/
  ready_live : ∀ i ∈ m.st.readyIds, m.Live i
  waiting_live : ∀ p, m.st.kind p ≠ none → ∀ i ∈ m.st.waitingIds p, m.Live i
  readyNum : m.st.readyNum = m.st.readyIds.length
  /-- the number of waiting threads is the total over all primitives -/
  waitingNum : ∃ prims : Finset Addr, (∀ p, p ∈ prims ↔ m.st.kind p ≠ none) ∧
    m.st.waitingNum = ∑ p ∈ prims, (m.st.waitingIds p).length

section Partition

variable {P : Program U G A E} {main idle : U → Prop} {m : Mach U G} {a a' : AMach U G}
  {l : Label A E} {i : ℕ}

namespace Sim

/-- The live threads are those that have a place, thread 0 apart. -/
theorem live_iff (h : Sim P False m a) (hok : a.Ok) :
    m.Live i ↔ i ≠ 0 ∧ a.sched.place i ≠ .nowhere := by
  unfold Mach.Live
  rw [h.created, h.exited, hok.placed i]

/-- The calls of the abstract machine are those of the machine, so a condition on calls can be
stated on either side. -/
theorem calls (h : Sim P False m a) {c : Call U} (hc : a.Calls P l c) : m.Calls P l c := by
  obtain ⟨i, act, al, u, ret, g, rfl, hi, hf, hn⟩ := hc
  refine ⟨act, al, u, ret, g, rfl, (h.cpu i hi).trans hf, ?_⟩
  rw [h.view hi, h.g, hn]

theorem frameOf (h : Sim P False m a) (h0 : i ≠ 0) (hp : a.sched.place i ≠ .nowhere) :
    m.frameOf i = some (a.frame i) := by
  obtain ⟨link, c⟩ := h.repr.core
  unfold Mach.frameOf
  split
  · rename_i hco
    rcases hr : a.sched.running with _ | j
    · exact absurd (hco.symm.trans (h.idle hr).2.1) h0
    · obtain rfl : j = i := (c.running j hr).2.symm.trans hco
      rw [h.cpu j hr]
  · rename_i hco
    have haddr := c.addrs i hp
    rw [haddr, Option.map_some, h.ctx i _ hp (fun hr => hco (c.running i hr).2) haddr]

/-- A created thread runs in the memory exactly if it runs. -/
theorem runs_iff (h : Sim P False m a) (h0 : i ≠ 0) :
    m.st.Runs i ↔ a.sched.place i = .running := by
  obtain ⟨link, c⟩ := h.repr.core
  rw [← running_iff]
  constructor
  · rintro ⟨hco, _⟩
    rcases hr : a.sched.running with _ | j
    · exact absurd (hco.symm.trans (h.idle hr).2.1) h0
    · rw [← hco, ← (c.running j hr).2]
  · intro hi
    obtain ⟨hrun, hco⟩ := c.running i hi
    exact ⟨hco, link i, hrun, c.addrs i (by simp [place_running hi])⟩

theorem partitioned (h : Sim P False m a) (hok : a.Ok)
    (hz : a.sched.place 0 = .parked ∨ a.sched.running = some 0) : Partitioned m := by
  obtain ⟨link, c⟩ := h.repr.core
  have hready := h.repr.readyIds
  have hwaiting : ∀ p, m.st.kind p ≠ none → m.st.waitingIds p = a.sched.waiting p :=
    fun p hp => h.repr.waitingIds ((c.prims p).mpr hp)
  have hzero : ∀ {k}, k ∈ a.sched.ready ∨ (∃ p, k ∈ a.sched.waiting p) → k ≠ 0 := by
    rintro k hk rfl
    have hp : a.sched.place 0 = .ready ∨ ∃ p, a.sched.place 0 = .waiting p := by
      rcases hk with hk | ⟨p, hk⟩
      · exact .inl (place_ready hk)
      · exact .inr ⟨p, place_waiting hk⟩
    rcases hz with hz | hz
    · rw [hz] at hp
      rcases hp with hp | ⟨p, hp⟩ <;> cases hp
    · rw [place_running hz] at hp
      rcases hp with hp | ⟨p, hp⟩ <;> cases hp
  refine ⟨?_, ?_, ?_, ?_, ?_⟩
  · intro i hi
    obtain ⟨h0, hpl⟩ := (h.live_iff hok).mp hi
    have hst := c.status i hpl fun he => absurd he h0
    refine ⟨_, c.addrs i hpl, ?_⟩
    rw [h.runs_iff h0, hready]
    -- in any place but a waiting queue the thread is in no waiting queue
    have hnot : ∀ {pl}, a.sched.place i = pl → (∀ p, pl ≠ .waiting p) →
        ∀ p, m.st.kind p ≠ none → i ∉ m.st.waitingIds p := by
      rintro pl rfl hne p hp
      rw [hwaiting p hp]
      exact notMem_waiting (hne p)
    rcases hpi : a.sched.place i with _ | _ | _ | _ | p
    · exact absurd hpi hpl
    · exact absurd (hok.parked i hpi) h0
    · rw [hpi] at hst
      exact .inl ⟨rfl, notMem_ready (by simp [hpi]), hnot hpi (by simp), hst⟩
    · rw [hpi] at hst
      refine .inr (.inl ⟨by simp, ?_, hnot hpi (by simp), hst⟩)
      exact List.count_eq_one_of_mem a.sched.ready_nodup (a.sched.ready_iff.mpr hpi)
    · rw [hpi] at hst
      have hmem : i ∈ a.sched.waiting p := a.sched.waiting_iff.mpr hpi
      have hp : m.st.kind p ≠ none :=
        (c.prims p).mp (a.sched.waiting_prim (List.ne_nil_of_mem hmem))
      refine .inr (.inr ⟨by simp, notMem_ready (by simp [hpi]), ⟨p, hp, ?_, ?_⟩, hst⟩)
      · rw [hwaiting p hp]
        exact List.count_eq_one_of_mem (a.sched.waiting_nodup p) hmem
      · intro q hq hqp
        rw [hwaiting q hq]
        refine notMem_waiting ?_
        rw [hpi]
        exact fun he => hqp (Place.waiting.inj he).symm
  · intro i hi
    rw [hready] at hi
    exact (h.live_iff hok).mpr ⟨hzero (.inl hi), by simp [place_ready hi]⟩
  · intro p hp i hi
    rw [hwaiting p hp] at hi
    exact (h.live_iff hok).mpr ⟨hzero (.inr ⟨p, hi⟩), by simp [place_waiting hi]⟩
  · rw [hready]
    exact h.repr.readyNum
  · refine ⟨a.sched.prims, c.prims, ?_⟩
    rw [h.repr.counted.waiting, Sched.waitingTotal]
    exact Finset.sum_congr rfl fun p hp => by rw [hwaiting p ((c.prims p).mp hp)]

end Sim

/-- **The scheduler partitions the threads.** Let thread 0 set up, hand over once and make no
later call. Then in every state of every run the live threads are distributed over the processor,
the ready queue and the waiting queues, each in exactly one place and with the status of that
place, no thread that has exited is in a queue, and the counters count the queues. -/
theorem scheduler_partition (hP : P.Handover main idle)
    (hm : Reach (P.runs.guard (ResumesReady P)) m) : Partitioned m := by
  obtain ⟨a, ha, h⟩ := hP.reach hm
  refine h.partitioned ha.ok ?_
  rcases hP.zero ha with ⟨_, hrun, _⟩ | ⟨hpark, _⟩
  · exact .inr hrun
  · exact .inl hpark

/-- Thread 0 creates a primitive and three threads; thread 1 sleeps on the primitive, threads 2
and 3 yield to each other. -/
def Script.sleeper : Script :=
  .call .primInit <|
  .call (.create (.call (.sleep 5) (.call .exit .done))) <|
  .call (.create (.call .yield (.call (.wakeup 5) .done))) <|
  .call (.create (.call .yield (.call .exit .done))) <|
  .call (.resume 1) .done

/-- A run in which all three places are taken: one thread runs, one is ready and one waits. -/
theorem scheduler_partition_sleeper : ∃ m : Mach Script Unit,
    (m.st.coCurrentId = 2 ∧ m.st.readyIds = [3] ∧ m.st.waitingIds 5 = [1]) ∧ Partitioned m := by
  obtain ⟨m, hm, hq⟩ := Mach.exists_of_reaches
    (T := Script.sleeper.program.runs.guard (ResumesReady _))
    (ResumesReady Script.sleeper.program)
    (fun _ _ _ hok hs => ⟨hok, hs⟩) (.init Script.sleeper.boot_init)
    [.go 5, .go 1, .go 2, .go 3, .go 0, .go 0, .go 0, .go 0]
    (fun m => m.st.coCurrentId = 2 ∧ m.st.readyIds = [3] ∧ m.st.waitingIds 5 = [1]) (by decide)
  have hmain : Script.sleeper.HandsOver := ⟨trivial, trivial, trivial, trivial, rfl⟩
  exact ⟨m, hq, scheduler_partition (Script.handover hmain) hm⟩

end Partition

end GreenLib
