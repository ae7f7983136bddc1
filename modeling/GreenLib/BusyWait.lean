import GreenLib.GreenBuffer

/-!
# Busy waiting

The waiting loops of `thread_lock_acquire`, `thread_semaphore_P` and of the `PRODUCER` and
`CONSUMER` handlers of `main.c` call `thread_sleep` in each iteration. With an empty ready queue
`thread_sleep` returns at once, and the loop tests its condition again with nobody having run in
between. Nobody can make the condition true any more, so the thread spins for good (`busy_wait`).

When a loop that has to wait always finds somebody in the ready queue, each iteration leaves the
loop or runs another thread before the next test (`never_busy_wait`). For a handler it is enough
that somebody is ready or waits for `lock_global` when it gives the lock back.
-/

namespace GreenLib

open State Sched

/-! ## The loops of the library -/

section Loops

variable {U G A E : Type} {P : Program U G A E} {main idle : U → Prop} {m m' : Mach U G}
  {a a' : AMach U G} {l : Label A E} {i : ℕ}

/-- A turn of a waiting loop of the library that has to wait finds somebody ready. -/
def Mach.findsReady (m : Mach U G) (l : Label A E) : Bool :=
  match l, m.cpu with
  | .turn, .acquire _ lock _ => m.st.held lock = 0 ∨ m.st.readyIds ≠ []
  | .turn, .semP _ sem _ => m.st.count sem ≠ 0 ∨ m.st.readyIds ≠ []
  | _, _ => true

/-- **The waiting loops of the library do not spin.** An iteration leaves the loop or makes another
thread the running one. -/
structure LoopsSwitch (T : Lts (Mach U G) (Label A E)) (m : Mach U G) : Prop where
  acquire : ∀ slept lock u m', m.cpu = .acquire slept lock u → T.step m .turn m' →
    m'.cpu = .user u ∨ m'.st.coCurrentId ≠ m.st.coCurrentId
  semP : ∀ slept sem u m', m.cpu = .semP slept sem u → T.step m .turn m' →
    m'.cpu = .user u ∨ m'.st.coCurrentId ≠ m.st.coCurrentId

/-- Another thread runs, also in the memory: `co_current_id` has changed. -/
theorem Sim.switched (h : Sim P False m a) (h' : Sim P False m' a') (hi : a.sched.running = some i)
    (hj : ∃ j, j ≠ i ∧ a'.sched.running = some j) : m'.st.coCurrentId ≠ m.st.coCurrentId := by
  obtain ⟨j, hji, hj⟩ := hj
  rwa [h.coCurrentId hi, h'.coCurrentId hj]

/-- The runs of `P` in which the waiting loops of the library find somebody ready. -/
def Program.attended (P : Program U G A E) : Lts (Mach U G) (Label A E) :=
  P.runs.guard fun m l => ResumesReady P m l ∧ m.findsReady l = true

theorem Program.Handover.loopsSwitch (hP : P.Handover main idle) (hm : Reach P.attended m) :
    LoopsSwitch P.attended m := by
  obtain ⟨a, ha, h⟩ := hP.reach (hm.reguard fun _ _ _ hok => hok.1)
  constructor
  · rintro slept lock u m' hcpu ⟨⟨hr, hfind⟩, he⟩
    obtain ⟨i, hi⟩ := h.running_of_cpu (by simp [hcpu])
    have hf : a.frame i = .acquire slept lock u := (h.cpu i hi).symm.trans hcpu
    obtain ⟨a', h', hs⟩ := hP.sim_step_of_ne ha h hr he nofun
    simp only [Mach.findsReady, hcpu, decide_eq_true_eq, h.held, h.repr.readyIds] at hfind
    cases hs with
    | act hi' hact hstep =>
      obtain rfl := Option.some.inj (hi.symm.trans hi')
      cases hact with
      | acquireSpin hf' _ hh hnone =>
        obtain ⟨rfl, rfl, rfl⟩ := Frame.acquire.inj (hf.symm.trans hf')
        exact absurd hnone (hfind.resolve_left hh)
      | acquireSleep hf' _ hh hready =>
        exact .inr (h.switched h' hi (hstep.sleep_other hi hready))
      | acquireDone hf' =>
        obtain ⟨rfl, rfl, rfl⟩ := Frame.acquire.inj (hf.symm.trans hf')
        cases hstep
        exact .inl ((h'.cpu _ hi).trans (Function.update_self ..))
      | relAcq hf' | semPSpin hf' | semPSleep hf' | semPDone hf' | cvSleep hf' | cvAcquire hf'
      | joinDone hf' => cases hf.symm.trans hf'
      | joinAgain _ hf' => cases hf.symm.trans hf'
  · rintro slept sem u m' hcpu ⟨⟨hr, hfind⟩, he⟩
    obtain ⟨i, hi⟩ := h.running_of_cpu (by simp [hcpu])
    have hf : a.frame i = .semP slept sem u := (h.cpu i hi).symm.trans hcpu
    obtain ⟨a', h', hs⟩ := hP.sim_step_of_ne ha h hr he nofun
    simp only [Mach.findsReady, hcpu, decide_eq_true_eq, h.count, h.repr.readyIds] at hfind
    cases hs with
    | act hi' hact hstep =>
      obtain rfl := Option.some.inj (hi.symm.trans hi')
      cases hact with
      | semPSpin hf' _ hc hnone =>
        obtain ⟨rfl, rfl, rfl⟩ := Frame.semP.inj (hf.symm.trans hf')
        exact absurd hnone (hfind.resolve_left (not_not.mpr hc))
      | semPSleep hf' _ hc hready =>
        exact .inr (h.switched h' hi (hstep.sleep_other hi hready))
      | semPDone hf' =>
        obtain ⟨rfl, rfl, rfl⟩ := Frame.semP.inj (hf.symm.trans hf')
        cases hstep
        exact .inl ((h'.cpu _ hi).trans (Function.update_self ..))
      | relAcq hf' | acquireSpin hf' | acquireSleep hf' | acquireDone hf' | cvSleep hf'
      | cvAcquire hf' | joinDone hf' => cases hf.symm.trans hf'
      | joinAgain _ hf' => cases hf.symm.trans hf'

/-- The primitive whose waiting loop a thread is in. -/
def Frame.loopsOn : Frame U → Option (PrimKind × Addr)
  | .acquire _ lock _ => some (.lock, lock)
  | .semP _ sem _ => some (.semaphore, sem)
  | _ => none

theorem Frame.eq_of_loopsOn_lock {fr : Frame U} {lock : Addr}
    (h : fr.loopsOn = some (.lock, lock)) : ∃ slept u, fr = .acquire slept lock u := by
  cases fr <;> cases h
  exact ⟨_, _, rfl⟩

theorem Frame.eq_of_loopsOn_semaphore {fr : Frame U} {sem : Addr}
    (h : fr.loopsOn = some (.semaphore, sem)) : ∃ slept u, fr = .semP slept sem u := by
  cases fr <;> cases h
  exact ⟨_, _, rfl⟩

/-- With nobody ready, a turn of the loop of `thread_lock_acquire` changes nothing at all. -/
theorem Mach.turn_acquire_spins {slept : Bool} {lock : Addr} {u : U}
    (hcpu : m.cpu = .acquire slept lock u) (hk : m.st.kind lock = some .lock)
    (hh : m.st.held lock ≠ 0) (hr : m.st.readyNum = 0) : m.step P .turn = .ok m := by
  have hsleep : m.st.threadSleep lock = .ok (m.st, .stay) := if_pos hr
  have hturn : m.st.threadLockAcquireTurn lock = .ok (m.st, .again .stay) := by
    simp only [threadLockAcquireTurn, checkKind, hk, if_pos hh, hsleep, bind, Except.bind, if_true]
  change m.turn = .ok m
  simp only [turn, hcpu, hturn, bind, Except.bind, loop]
  rw [← hcpu]

theorem Mach.turn_semP_spins {slept : Bool} {sem : Addr} {u : U}
    (hcpu : m.cpu = .semP slept sem u) (hk : m.st.kind sem = some .semaphore)
    (hc : m.st.count sem = 0) (hr : m.st.readyNum = 0) : m.step P .turn = .ok m := by
  have hsleep : m.st.threadSleep sem = .ok (m.st, .stay) := if_pos hr
  have hturn : m.st.threadSemaphorePTurn sem = .ok (m.st, .again .stay) := by
    simp only [threadSemaphorePTurn, checkKind, hk, if_pos hc, hsleep, bind, Except.bind, if_true]
  change m.turn = .ok m
  simp only [turn, hcpu, hturn, bind, Except.bind, loop]
  rw [← hcpu]

end Loops

/-! ## The handlers -/

namespace GreenServer

variable {n : ℕ} {S : GreenServer n} {m m' : Mach (GreenPc n) (Shared n)}
  {a a' : AMach (GreenPc n) (Shared n)} {l : Label (Option (Fin n)) (Fin n × Request)} {i : ℕ}
  {role : Role} {c : Fin n} {sl : ℕ}

/-- When a handler gives the lock back behind a failed test, somebody waits for it or is ready. -/
def releasesAttended (S : GreenServer n) (m : Mach (GreenPc n) (Shared n))
    (l : Label (Option (Fin n)) (Fin n × Request)) : Bool :=
  match m.cpu, m.callOf S.program l with
  | .user (.serve .test _ _ _), some (.release lk) => m.st.waitingIds lk ≠ [] ∨ m.st.readyIds ≠ []
  | _, _ => true

/-- The runs of the server with this condition on the handlers that give up. -/
def attended (S : GreenServer n) :
    Lts (Mach (GreenPc n) (Shared n)) (Label (Option (Fin n)) (Fin n × Request)) :=
  S.program.runs.guard fun m l => S.releasesAttended m l = true

/-- **The waiting loops of the handlers do not spin.** A handler whose test fails does not come to a
test again as long as its thread is the only one that runs. -/
def HandlersSwitch
    (T : Lts (Mach (GreenPc n) (Shared n)) (Label (Option (Fin n)) (Fin n × Request)))
    (m : Mach (GreenPc n) (Shared n)) : Prop :=
  ∀ role c sl e al m₁ ls m₂, m.cpu = .user (.serve .test role c sl) → m.g.buf.blocked role = true →
    T.step m (.call e al) m₁ → Path T m₁ ls m₂ → m₁.st.coCurrentId = m.st.coCurrentId →
    (∀ x ∈ ls, x.2.2.st.coCurrentId = m.st.coCurrentId) →
    ∀ role' c' sl', m₂.cpu ≠ .user (.serve .test role' c' sl')

/-- Thread `i` has given the lock back and is about to sleep, with somebody ready. -/
structure Sleepy (i : ℕ) (a : AMach (GreenPc n) (Shared n)) : Prop where
  running : a.sched.running = some i
  created : i ≠ 0
  frame : ∃ role c sl, a.frame i = .user (.serve .released role c sl)
  ready : a.sched.ready ≠ []

/-- It sleeps next, and another thread runs. Nobody else can get in between, since the thread runs
until it sleeps. -/
theorem Sleepy.next (h : Sleepy i a) (hs : Steps S a a') :
    Sleepy i a' ∨ ∃ j, j ≠ i ∧ a'.sched.running = some j := by
  obtain ⟨hi, h0, ⟨role, c, sl, hf⟩, hr⟩ := h
  have hrun : ∀ {k}, a.sched.running = some k → k = i := fun hk =>
    Option.some.inj (hk.symm.trans hi)
  cases hs with
  | lock hi' | create hi' | notCreated hi' | resume hi' => exact absurd (hrun hi').symm h0
  | act hi' _ hact hstep =>
    obtain rfl := hrun hi'
    cases hact with
    | call hf' hd =>
      cases hf.symm.trans hf'
      cases hd with
      | acquire _ hE => cases hE
      | change hT =>
        cases hT with
        | free _ hE => cases hE
      | sleep _ hT =>
        cases hT with
        | free _ hE => cases hE
      | sleepReleased => exact .inr (hstep.sleep_other hi hr)
    | alloc hf' => cases hf.symm.trans hf'
    | turn hf' => cases hf.symm.trans hf'
  | exit hi' _ hf' =>
    obtain rfl := hrun hi'
    cases hf.symm.trans hf'
  | env _ hsched hframe => exact .inl ⟨hsched ▸ hi, h0, ⟨role, c, sl, hframe ▸ hf⟩, hsched ▸ hr⟩

/-- The failed test itself: the thread that waits for the lock runs, or the handler goes on. -/
theorem giveUp_next (hset : SetUp a) (hl : S.locked = true) (hi : a.sched.running = some i)
    (hf : a.frame i = .user (.serve .test role c sl)) (hb : a.g.buf.blocked role = true)
    {e : Option (Fin n)} {al : Alloc} (hs : AStep S.program a (.call e al) a')
    (hok : ∀ lk, a.Calls S.program (.call e al) (.release lk) → a.sched.waiting lk ≠ [] ∨
      a.sched.ready ≠ []) : Sleepy i a' ∨ ∃ j, j ≠ i ∧ a'.sched.running = some j := by
  have hrun : ∀ {k}, a.sched.running = some k → k = i := fun hk =>
    Option.some.inj (hk.symm.trans hi)
  have hloop : (GreenPc.serve .test role c sl).InLoop := trivial
  have hzero : i ≠ 0 := by
    rintro rfl
    obtain ⟨u, hu, hat⟩ := hset.main
    cases hu.symm.trans hf
    exact hat
  -- at the test there are only the calls of `Does`
  have hdoes : ∀ {k u cl ret g}, a.sched.running = some k → a.frame k = .user u →
      S.program.next e (a.view k) u a.g = some (cl, ret, g) →
      ∃ w, Does S (a.view i) a.g (.serve .test role c sl) cl w g := by
    intro k u cl ret g hk hu hn
    obtain rfl := hrun hk
    cases hf.symm.trans hu
    obtain ⟨w, -, hd⟩ := next_does hloop hn
    exact ⟨w, hd⟩
  cases hs with
  | act hi' hact hstep =>
    obtain rfl := hrun hi'
    cases act_acts (hf ▸ .user hloop) hact with
    | call hf' hd =>
      cases hf.symm.trans hf'
      cases hd with
      | acquire _ hE => cases hE
      | change hT hb' =>
        cases hT with
        | here => cases hb.symm.trans hb'
        | free hl' => cases hl.symm.trans hl'
      | sleep hl' => cases hl.symm.trans hl'
      | @giveUp _ _ _ lk _ _ hp =>
        by_cases hw : a.sched.waiting lk = []
        · have hready := (hok _ (calls_release hi hf hl hb hp)).resolve_left (not_not.mpr hw)
          have hsame := hstep.wakeup_nil hw
          refine .inl ⟨hsame ▸ hi, hzero, ⟨role, c, sl, Function.update_self ..⟩, hsame ▸ hready⟩
        · exact .inr (hstep.wakeup_other hi hw)
    | alloc hf' => cases hf.symm.trans hf'
    | turn hf' => cases hf.symm.trans hf'
  | exit hi' hf' hn =>
    obtain ⟨w, hd⟩ := hdoes hi' hf' hn
    cases hd
  | create hi' hf' hn =>
    obtain ⟨w, hd⟩ := hdoes hi' hf' hn
    cases hd
  | notCreated hi' hf' hn =>
    obtain ⟨w, hd⟩ := hdoes hi' hf' hn
    cases hd
  | primMade hi' hf' hn hc =>
    obtain ⟨w, hd⟩ := hdoes hi' hf' hn
    cases hd <;> cases hc
  | primGone hi' hf' hn hc =>
    obtain ⟨w, hd⟩ := hdoes hi' hf' hn
    cases hd <;> rcases hc with ⟨hc, -⟩ | ⟨hc, -⟩ <;> cases hc

/-- As long as the handler's thread is the only one that runs, it has not slept yet. -/
theorem Sleepy.path {ms : List (Mach (GreenPc n) (Shared n) ×
    Label (Option (Fin n)) (Fin n × Request) × Mach (GreenPc n) (Shared n))}
    (ha : Reach S.program.aruns a) (h : Sim S.program False m a) (hi : Sleepy i a)
    (hp : Path S.attended m ms m') (hsame : ∀ x ∈ ms, x.2.2.st.coCurrentId = i) :
    ∃ b, Reach S.program.aruns b ∧ Sim S.program False m' b ∧ Sleepy i b := by
  induction hp with
  | nil => exact ⟨a, ha, h, hi⟩
  | snoc hp hs ih =>
    obtain ⟨b, hb, hsim, hsleepy⟩ := ih fun x hx => hsame x (List.mem_append_left _ hx)
    have hco := hsame _ (List.mem_append_right _ List.mem_cons_self)
    obtain ⟨b', hsim', rfl | ⟨k, hk⟩⟩ := sim_step hb hsim hs.2
    · exact ⟨b', hb, hsim', hsleepy⟩
    · refine ⟨b', .step hb hk, hsim', ?_⟩
      rcases hsleepy.next ((SetUp.of_reach hb).shape.steps hk) with hnext | ⟨j, hji, hj⟩
      · exact hnext
      · exact absurd ((hsim'.coCurrentId hj).symm.trans hco) hji

theorem handlersSwitch (hl : S.locked = true) (hm : Reach S.attended m) :
    HandlersSwitch S.attended m := by
  intro role c sl e al m₁ ls m₂ hcpu hb hstep hp hsame₁ hsame role' c' sl' hcpu₂
  obtain ⟨a, ha, h⟩ := reach hm.of_guard
  have hset := SetUp.of_reach ha
  obtain ⟨cl, hcl⟩ : ∃ cl, m.Calls S.program (.call e al) cl := by
    have he := hstep.2
    change m.step S.program (.call e al) = .ok m₁ at he
    rcases hn : S.program.next e m.st.view (.serve .test role c sl) m.g with _ | ⟨cl, ret, g⟩
    · simp only [Mach.step, hcpu, hn] at he
      cases he
    · exact ⟨cl, e, al, _, ret, g, rfl, hcpu, hn⟩
  obtain ⟨i, hi⟩ := h.running_of_calls hcl
  have hf : a.frame i = .user (.serve .test role c sl) := (h.cpu i hi).symm.trans hcpu
  obtain ⟨a₁, h₁, hs⟩ := (handover S).sim_step_of_ne ha h (resumesReady hset h) hstep.2
    fun t junk he => by cases he
  have hco := h.coCurrentId hi
  have hattended : ∀ lk, a.Calls S.program (.call e al) (.release lk) →
      a.sched.waiting lk ≠ [] ∨ a.sched.ready ≠ [] := by
    intro lk hc
    have hok : S.releasesAttended m (.call e al) = true := hstep.1
    simp only [releasesAttended, hcpu, Mach.calls_iff.mp (h.calls hc), decide_eq_true_eq,
      h.repr.readyIds] at hok
    have hprim : lk ∈ a.sched.prims := by
      obtain ⟨k, _, _, u, ret, g, -, hk, hu, hn⟩ := hc
      obtain rfl := Option.some.inj (hk.symm.trans hi)
      cases hf.symm.trans hu
      have hloop : (GreenPc.serve .test role c sl).InLoop := trivial
      obtain ⟨w, -, hd⟩ := next_does hloop hn
      cases hd with
      | giveUp _ _ hp => exact (ha.ok.prims lk).mpr (by simp [SetUp.kind_of_prim ha hp])
    rwa [h.repr.waitingIds hprim] at hok
  rcases giveUp_next hset hl hi hf (h.g ▸ hb) hs hattended with hsleepy | ⟨j, hji, hj⟩
  · obtain ⟨b, -, hsim, hnext⟩ := hsleepy.path (.step ha hs) h₁ hp
      fun x hx => (hsame x hx).trans hco
    obtain ⟨role'', c'', sl'', hf₂⟩ := hnext.frame
    cases ((hsim.cpu i hnext.running).trans hf₂).symm.trans hcpu₂
  · exact hji ((h₁.coCurrentId hj).symm.trans (hsame₁.trans hco))

end GreenServer

/-- **Blocking calls do not busy-wait** as long as a loop that has to wait finds somebody ready, and
a handler that gives the lock back behind a failed test somebody who is ready or waits for it. -/
theorem never_busy_wait {U G A E : Type} {P : Program U G A E} {main idle : U → Prop}
    (hP : P.Handover main idle) {n : ℕ} {S : GreenServer n} (hl : S.locked = true) :
    (∀ m, Reach P.attended m → LoopsSwitch P.attended m) ∧
    ∀ m, Reach S.attended m → GreenServer.HandlersSwitch S.attended m :=
  ⟨fun _ hm => hP.loopsSwitch hm, fun _ hm => GreenServer.handlersSwitch hl hm⟩

namespace Script

/-- A lock and three threads that hold it while they yield. There is always somebody ready. -/
def turnstile : Script :=
  .call .lockCreate <|
  .call (.create worker) <|
  .call (.create worker) <|
  .call (.create worker) <|
  .call (.resume 1) .done
where
  worker : Script := .call (.acquire 5) <| .call .yield <| .call (.release 5) <| .call .exit .done

/-- The first thread takes the lock and sleeps on something else, the second one wants the lock. -/
def deserted : Script :=
  .call .lockCreate <|
  .call .primInit <|
  .call (.create (.call (.acquire 5) (.call (.sleep 6) .done))) <|
  .call (.create (.call (.acquire 5) .done)) <|
  .call (.resume 1) .done

/-- One thread, and a semaphore without a unit. Nobody is there to add one. -/
def starved : Script :=
  .call .semCreate <|
  .call (.create (.call (.semP 5) .done)) <|
  .call (.resume 1) .done

end Script

/-- Thread 2 has to wait for the lock while thread 3 is ready, and a consumer waits for the buffer
while another thread is ready. -/
theorem never_busy_wait_attended :
    (∃ m, Reach Script.turnstile.program.attended m ∧ m.st.coCurrentId = 2 ∧ m.st.held 5 = 1 ∧
      LoopsSwitch Script.turnstile.program.attended m) ∧
    ∃ m, Reach (GreenServer.attended (n := 2) ⟨true, 2, 1, fun _ _ => true⟩) m ∧
      m.cpu = .user (.serve .test .consumer 0 4) ∧
      GreenServer.HandlersSwitch
        (GreenServer.attended (n := 2) ⟨true, 2, 1, fun _ _ => true⟩) m := by
  have hmain : Script.turnstile.HandsOver := ⟨trivial, trivial, trivial, trivial, rfl⟩
  have hlaw := never_busy_wait (Script.handover hmain) (n := 2)
    (S := ⟨true, 2, 1, fun _ _ => true⟩) rfl
  constructor
  · obtain ⟨m, hm, hq, hh⟩ := Mach.exists_of_reaches (P := Script.turnstile.program)
      (T := Script.turnstile.program.attended)
      (fun m l => ResumesReady Script.turnstile.program m l ∧ m.findsReady l = true)
      (fun _ _ _ hok hs => ⟨hok, hs⟩) (.init Script.turnstile.boot_init)
      [.go 5, .go 1, .go 2, .go 3, .go 0, .go 0, .turn, .go 0, .go 0]
      (fun m => m.st.coCurrentId = 2 ∧ m.st.held 5 = 1) (by decide)
    exact ⟨m, hm, hq, hh, hlaw.1 m hm⟩
  · obtain ⟨m, hm, hcpu⟩ := Mach.exists_of_reaches
      (P := GreenServer.program (n := 2) ⟨true, 2, 1, fun _ _ => true⟩)
      (T := GreenServer.attended ⟨true, 2, 1, fun _ _ => true⟩)
      (fun m l => GreenServer.releasesAttended ⟨true, 2, 1, fun _ _ => true⟩ m l = true)
      (fun _ _ _ hok hs => ⟨hok, hs⟩) (.init GreenServer.boot_init)
      (GreenServer.startup 2 ++ GreenServer.initCall 0 3 ++ GreenServer.initCall 1 4 ++
        GreenServer.asks 0 (.op .consumer) ++ [GreenServer.go 0, .turn])
      (fun m => m.cpu = .user (.serve .test .consumer 0 4)) (by decide +kernel)
    exact ⟨m, hm, hcpu, hlaw.2 m hm⟩

/-- **The loops spin.** Nobody is ready: the turn of `thread_lock_acquire` and that of
`thread_semaphore_P` lead back to the same state, and the only thread of a server comes back to its
test of an empty buffer with nobody having run in between. -/
theorem busy_wait :
    (∃ m slept u, Reach (Script.deserted.program.runs.guard
        (ResumesReady Script.deserted.program)) m ∧
      m.cpu = .acquire slept 5 u ∧ m.st.coCurrentId = 2 ∧
      m.step Script.deserted.program .turn = .ok m ∧ ¬ LoopsSwitch Script.deserted.program.runs m) ∧
    (∃ m slept u, Reach (Script.starved.program.runs.guard
        (ResumesReady Script.starved.program)) m ∧
      m.cpu = .semP slept 5 u ∧ m.st.coCurrentId = 1 ∧
      m.step Script.starved.program .turn = .ok m ∧ ¬ LoopsSwitch Script.starved.program.runs m) ∧
    ∃ m m', Reach (GreenServer.program (n := 1) ⟨true, 1, 1, fun _ _ => true⟩).runs m ∧
      m.cpu = .user (.serve .test .consumer 0 2) ∧ m.g.buf.blocked .consumer = true ∧
      m.exec (GreenServer.program ⟨true, 1, 1, fun _ _ => true⟩) (fun m _ => m.st.coCurrentId = 1)
        [GreenServer.go 0, GreenServer.go 0, GreenServer.go 0, .turn] = .ok m' ∧
      m'.cpu = m.cpu ∧ m'.st.coCurrentId = 1 := by
  refine ⟨?_, ?_, ?_⟩
  · obtain ⟨m, hm, hloop, hco, hk, hh, hr⟩ := Mach.exists_of_reaches
      (P := Script.deserted.program) (T := Script.deserted.program.runs.guard (ResumesReady _))
      (ResumesReady Script.deserted.program) (fun _ _ _ hok hs => ⟨hok, hs⟩)
      (.init Script.deserted.boot_init)
      [.go 5, .go 6, .go 1, .go 2, .go 0, .go 0, .turn, .go 0, .go 0]
      (fun m => m.cpu.loopsOn = some (.lock, 5) ∧ m.st.coCurrentId = 2 ∧
        m.st.kind 5 = some .lock ∧ m.st.held 5 ≠ 0 ∧ m.st.readyNum = 0) (by decide)
    obtain ⟨slept, u, hcpu⟩ := Frame.eq_of_loopsOn_lock hloop
    have hspin := Mach.turn_acquire_spins (P := Script.deserted.program) hcpu hk hh hr
    refine ⟨m, slept, u, hm, hcpu, hco, hspin, fun hno => ?_⟩
    rcases hno.acquire _ _ _ m hcpu hspin with huser | hother
    · cases hcpu.symm.trans huser
    · exact hother rfl
  · obtain ⟨m, hm, hloop, hco, hk, hc, hr⟩ := Mach.exists_of_reaches
      (P := Script.starved.program) (T := Script.starved.program.runs.guard (ResumesReady _))
      (ResumesReady Script.starved.program) (fun _ _ _ hok hs => ⟨hok, hs⟩)
      (.init Script.starved.boot_init) [.go 5, .go 1, .go 0, .go 0]
      (fun m => m.cpu.loopsOn = some (.semaphore, 5) ∧ m.st.coCurrentId = 1 ∧
        m.st.kind 5 = some .semaphore ∧ m.st.count 5 = 0 ∧ m.st.readyNum = 0) (by decide)
    obtain ⟨slept, u, hcpu⟩ := Frame.eq_of_loopsOn_semaphore hloop
    have hspin := Mach.turn_semP_spins (P := Script.starved.program) hcpu hk hc hr
    refine ⟨m, slept, u, hm, hcpu, hco, hspin, fun hno => ?_⟩
    rcases hno.semP _ _ _ m hcpu hspin with huser | hother
    · cases hcpu.symm.trans huser
    · exact hother rfl
  · obtain ⟨m, hm, hcpu, hb, hq⟩ := Mach.exists_of_reaches
      (P := GreenServer.program (n := 1) ⟨true, 1, 1, fun _ _ => true⟩) (fun _ _ => True)
      (fun _ _ _ _ h => h) (.init GreenServer.boot_init)
      (GreenServer.startup 1 ++ GreenServer.initCall 0 2 ++
        GreenServer.asks 0 (.op .consumer) ++ [GreenServer.go 0, .turn])
      (fun m => m.cpu = .user (.serve .test .consumer 0 2) ∧ m.g.buf.blocked .consumer = true ∧
        (match m.exec (GreenServer.program ⟨true, 1, 1, fun _ _ => true⟩)
            (fun m _ => m.st.coCurrentId = 1)
            [GreenServer.go 0, GreenServer.go 0, GreenServer.go 0, .turn] with
        | .ok m' => decide (m'.cpu = m.cpu ∧ m'.st.coCurrentId = 1)
        | .error _ => false) = true) (by decide +kernel)
    split at hq
    · rename_i m' hs
      exact ⟨m, m', hm, hcpu, hb, hs, of_decide_eq_true hq⟩
    · cases hq

end GreenLib
