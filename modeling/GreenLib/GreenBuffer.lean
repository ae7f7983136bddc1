import GreenLib.GreenSteps
import GreenLib.Sel4Server

/-!
# The buffer of the green server

Between two library calls a thread runs alone, so a handler tests and changes the buffer in one
step, and the buffer is safe whatever the lock does (`Buffer.Safe`). With the same result for kernel
threads both builds are safe (`bounded_buffer_safe`).

The lock matters for the wakeups. A handler whose test has failed gives the lock back before it
sleeps, and `thread_lock_release` runs the next thread in the queue of the lock at once. If that
thread changes the buffer, its wakeup finds the list still empty, and the first handler goes to
sleep with the buffer as it needs it (`wakeup_lost`). As long as nobody is in the queue at such a
release, every handler falls asleep in front of a buffer that it cannot use (`no_wakeup_lost`).
-/

namespace GreenLib

/-! ## Safety -/

namespace GreenServer

open Sched

variable {n : ℕ} {S : GreenServer n} {a a' : AMach (GreenPc n) (Shared n)}

/-- Entering the loop changes nothing in the buffer, nor in the history of its changes. -/
theorem Tests.safe {v : View} {g g' : Shared n} {u : GreenPc n} {role : Role} {c : Fin n} {sl : ℕ}
    (h : Tests S v g u role c sl g') : g'.buf = g.buf ∧ g'.changes = g.changes := by
  rcases h with _ | ⟨_, h⟩
  · exact ⟨rfl, rfl⟩
  · cases h <;> exact ⟨rfl, rfl⟩

/-- What a server thread does to the buffer is a change behind the assertion, if anything. -/
theorem Does.safe {v : View} {g g' : Shared n} {u w : GreenPc n} {cl : Call (GreenPc n)} {limit : ℤ}
    (h : g.buf.Safe limit g.changes) (hd : Does S v g u cl w g') :
    g'.buf.Safe limit g'.changes := by
  cases hd with
  | @register c id hid =>
    have hkept := Shared.registerClient_keeps (fun g => (g.buf, g.changes)) (g.saveCaller v.slot) id
      v.slot (fun _ _ _ => rfl) rfl
    obtain ⟨hbuf, hchanges⟩ := Prod.mk.inj hkept
    rw [hbuf, hchanges]
    exact h
  | acquire hl hE hp =>
    obtain ⟨hbuf, hchanges⟩ : g'.buf = g.buf ∧ g'.changes = g.changes := by
      cases hE <;> exact ⟨rfl, rfl⟩
    rwa [hbuf, hchanges]
  | change hT hb ha hp =>
    obtain ⟨hbuf, hchanges⟩ := hT.safe
    have h' := h.change ha
    rw [← hbuf, ← hchanges] at h'
    exact h'
  | sleep hl hT =>
    obtain ⟨hbuf, hchanges⟩ := hT.safe
    rwa [hbuf, hchanges]
  | _ => exact h

theorem Steps.safe {limit : ℤ} (h : a.g.buf.Safe limit a.g.changes) (hs : Steps S a a') :
    a'.g.buf.Safe limit a'.g.changes := by
  rcases hs.shared with ⟨q, hg⟩ | ⟨i, u, cl, w, -, -, hd⟩ | ⟨e, he⟩
  · rw [hg]
    exact h
  · exact hd.safe h
  · rw [(call_eq he).2]
    exact h

theorem safe_of_aruns (hlimit : 0 ≤ S.limit) (ha : Reach S.program.aruns a) :
    a.g.buf.Safe S.limit a.g.changes := by
  induction ha with
  | init h₀ =>
    have hg : _ = Shared.initialClientPool n S.limit := h₀.g
    rw [hg]
    exact ⟨rfl, ⟨le_rfl, hlimit⟩, rfl⟩
  | step hr hs ih => exact ((SetUp.of_reach hr).shape.steps hs).safe ih

/-- The buffer is safe in every run of the server, with the lock or without it. -/
theorem safe_of_reach (hlimit : 0 ≤ S.limit) {m : Mach (GreenPc n) (Shared n)}
    (hm : Reach S.program.runs m) : m.g.buf.Safe S.limit m.g.changes := by
  obtain ⟨a, ha, h⟩ := reach hm
  rw [h.g]
  exact safe_of_aruns hlimit ha

end GreenServer

/-- **The bounded buffer is safe in both builds.** In every run the level is the number of
increments minus the number of decrements, between 0 and `buffer_limit`, and the assertions behind
the tests hold. -/
theorem bounded_buffer_safe {limit : ℤ} (hlimit : 1 ≤ limit) :
    (∀ (n : ℕ) (S : GreenServer n), S.locked = true → S.limit = limit →
      ∀ m, Reach S.program.runs m → m.g.buf.Safe limit m.g.changes ∧
        ∀ role c sl, m.cpu = .user (.serve .test role c sl) → m.g.buf.blocked role = false →
          m.g.buf.allowed role = true) ∧
    ∀ (T : Type) [DecidableEq T] [Fintype T] (s : Sel4Server T), Reach (Sel4Server.runs T limit) s →
      s.buf.Safe limit s.changes ∧
        ∀ t role, s.pc t = .check role → s.buf.allowed role = true := by
  have h0 : 0 ≤ limit := by omega
  constructor
  · rintro n S - rfl m hm
    have hsafe := GreenServer.safe_of_reach h0 hm
    exact ⟨hsafe, fun role c sl _ hb => hsafe.range.allowed hb⟩
  · intro T _ _ s hs
    have hsafe := Sel4Server.Safe.of_reach h0 hs
    exact ⟨hsafe.buf, fun t role hp => hsafe.allowed hp⟩

namespace GreenServer

variable {n : ℕ} {S : GreenServer n}

/-- The machine on which the server starts, on a memory of zeros. -/
def boot (S : GreenServer n) : Mach (GreenPc n) (Shared n) :=
  Mach.boot S.program State.zero 0 0 (.initialClientPool n S.limit)

theorem boot_init : S.program.runs.init S.boot :=
  ⟨State.zero, 0, 0, _, State.zero_blank, rfl, rfl⟩

/-- The running thread goes on; if it allocates something, it gets the blocks and the slot with the
number `k`. -/
def go (k : ℕ) : Label (Option (Fin n)) (Fin n × Request) := .call none (.at k)

/-- Client `c` makes a call, and the running thread receives it at once. -/
def asks (c : Fin n) (r : Request) : List (Label (Option (Fin n)) (Fin n × Request)) :=
  [.env (c, r), .call (some c) (.at 0)]

/-- Client `c` calls `INIT`, and the slot `k` is allocated for it by the thread that handles the
call. -/
def initCall (c : Fin n) (k : ℕ) : List (Label (Option (Fin n)) (Fin n × Request)) :=
  asks c .init ++ [go k, go 0]

/-- `main_continued` with `k` threads: four locks, the threads, and the `thread_resume`. -/
def startup (k : ℕ) : List (Label (Option (Fin n)) (Fin n × Request)) :=
  [go 1, go 2, go 3, go 4] ++ (List.range' 1 k).map go ++ [go 0]

end GreenServer

/-- A producer fills the only place, in both builds, and the buffer is safe. -/
theorem bounded_buffer_safe_filled :
    (∃ m, Reach (GreenServer.program (n := 1) ⟨true, 1, 1, fun _ _ => true⟩).runs m ∧
      m.g.buf.level = 1 ∧ m.g.buf.Safe 1 m.g.changes) ∧
    ∃ s, Reach (Sel4Server.runs (Fin 1) 1) s ∧ s.buf.level = 1 ∧ s.buf.Safe 1 s.changes := by
  constructor
  · obtain ⟨m, hm, hl⟩ := Mach.exists_of_reaches
      (P := GreenServer.program (n := 1) ⟨true, 1, 1, fun _ _ => true⟩) (fun _ _ => True)
      (fun _ _ _ _ h => h) (.init GreenServer.boot_init)
      (GreenServer.startup 1 ++ GreenServer.initCall 0 2 ++
        GreenServer.asks 0 (.op .producer) ++ [GreenServer.go 0, .turn, GreenServer.go 0])
      (fun m => m.g.buf.level = 1) (by decide +kernel)
    exact ⟨m, hm, hl, ((bounded_buffer_safe le_rfl).1 1 _ rfl rfl m hm).1⟩
  · obtain ⟨s, hs, hl⟩ := Reach.exists_of_exec (T := Sel4Server.runs (Fin 1) 1) Sel4Server.step
      (fun _ _ _ h => h) (.init rfl) (Sel4Server.handles 0 .producer 5)
      (fun s => s.buf.level = 1) (by decide)
    exact ⟨s, hs, hl, ((bounded_buffer_safe le_rfl).2 (Fin 1) s hs).1⟩

/-! ## Wakeups -/

namespace GreenServer

open Sched

variable {n : ℕ} {S : GreenServer n} {a a' : AMach (GreenPc n) (Shared n)}
  {m : Mach (GreenPc n) (Shared n)} {l : Label (Option (Fin n)) (Fin n × Request)} {i : ℕ}
  {role : Role}

/-- A handler that gives the lock back behind a failed test finds nobody in the queue of the
lock. -/
def releasesAlone (S : GreenServer n) (m : Mach (GreenPc n) (Shared n))
    (l : Label (Option (Fin n)) (Fin n × Request)) : Bool :=
  match m.cpu, m.callOf S.program l with
  | .user (.serve .test _ _ _), some (.release lk) => m.st.waitingIds lk = []
  | _, _ => true

/-- The same condition on the abstract machine, where the queue of the lock is a list. -/
def FreesAlone (S : GreenServer n) (a : AMach (GreenPc n) (Shared n))
    (l : Label (Option (Fin n)) (Fin n × Request)) : Prop :=
  ∀ i role c sl lk, a.sched.running = some i → a.frame i = .user (.serve .test role c sl) →
    a.Calls S.program l (.release lk) → a.sched.waiting lk = []

/-- A handler that has given the lock back behind a failed test still runs, and the buffer is as the
test found it. -/
def Unbroken (a : AMach (GreenPc n) (Shared n)) : Prop :=
  ∀ i role c sl, i ≠ 0 → a.sched.place i ≠ .nowhere →
    a.frame i = .user (.serve .released role c sl) →
    a.sched.running = some i ∧ a.g.buf.blocked role = true

theorem freesAlone (h : Sim S.program False m a) (hg : S.releasesAlone m l = true) :
    FreesAlone S a l := by
  intro i role c sl lk hi hf hc
  have hcpu := (h.cpu i hi).trans hf
  have hcall := Mach.calls_iff.mp (h.calls hc)
  simp only [releasesAlone, hcpu, hcall, decide_eq_true_eq] at hg
  by_cases hp : lk ∈ a.sched.prims
  · rwa [h.repr.waitingIds hp] at hg
  · exact waiting_eq_nil hp

/-- A failed test with the lock leads to `thread_lock_release`, to which the condition applies. -/
theorem calls_release {c : Fin n} {sl lk : ℕ} {e : Option (Fin n)} {al : Alloc}
    (hi : a.sched.running = some i) (hf : a.frame i = .user (.serve .test role c sl))
    (hl : S.locked = true) (hb : a.g.buf.blocked role = true)
    (hp : a.g.prim .lockGlobal = some lk) : a.Calls S.program (.call e al) (.release lk) := by
  refine ⟨i, e, al, _, fun _ => .serve .released role c sl, a.g, rfl, hi, hf, ?_⟩
  change S.test a.g role c sl = _
  rw [test, if_pos hb, if_pos hl, hp]
  rfl

/-- **The step lemma.** Without a queue at the lock, `thread_lock_release` does not switch, so
nobody changes the buffer between the test and the sleep. -/
theorem Unbroken.next (h : Unbroken a) (hset : SetUp a) (hs : AStep S.program a l a')
    (hok : FreesAlone S a l) : Unbroken a' := by
  intro k role c sl h0 hk hfr
  by_cases hrun : a.sched.running = some k
  · cases hset.shape.steps hs with
    | act hi _ hact hstep hframe =>
      obtain rfl := Option.some.inj (hrun.symm.trans hi)
      rw [hframe, Function.update_self] at hfr
      cases hact with
      | call hf hd hc hx hkeep =>
        cases hd with
        | giveUp hl hb hp =>
          cases hfr
          rcases hs.call_or_env hrun hf with ⟨e, al, rfl⟩ | ⟨e, -, -, -, hsame⟩
          · have hnone := hok _ _ _ _ _ hrun hf (calls_release hrun hf hl hb hp)
            rw [hstep.wakeup_nil hnone, hkeep.g]
            exact ⟨hrun, hb⟩
          · -- a call of a client does not move the handler on
            rw [hsame] at hframe
            have hpc := congrFun hframe k
            rw [hf, Function.update_self] at hpc
            cases hpc
        | change =>
          simp only [Call.leavesAt] at hfr
          split at hfr <;> cases hfr
        | _ => cases hfr
      | alloc => cases hfr
      | turn _ ht => cases ht <;> cases hfr
    | exit hi _ hf _ hframe =>
      obtain rfl := Option.some.inj (hrun.symm.trans hi)
      rw [hframe, hf] at hfr
      cases hfr
    | env he hsched hframe hkeep =>
      rw [hsched, hkeep.g, (call_eq he).2]
      exact h k role c sl h0 (hsched ▸ hk) (hframe ▸ hfr)
    | lock hi | create hi | notCreated hi | resume hi =>
      exact absurd (Option.some.inj (hrun.symm.trans hi)) h0
  · rcases (hset.shape.steps hs).threads.frame_of_ne h0 hk hrun with ⟨hp, he⟩ | ⟨-, he⟩
    · exact absurd (h k role c sl h0 hp (he ▸ hfr)).1 hrun
    · cases he.symm.trans hfr

theorem Unbroken.of_reach (h : Reach (S.program.aruns.guard (FreesAlone S)) a) : Unbroken a := by
  induction h with
  | init h₀ => exact fun i _ _ _ h0 hi => absurd (h₀.place i h0) hi
  | step hr hs ih => exact ih.next (.of_reach hr.of_guard) hs.2 hs.1

/-- Who enters the list of a role is a handler of that role whose test has just failed. -/
theorem Unbroken.enqueued (h : Unbroken a) (hset : SetUp a) (hs : Steps S a a') {p : Addr}
    (hp : a.g.list role = some p) (hi : i ∈ a'.sched.waiting p) (hnew : i ∉ a.sched.waiting p) :
    a.g.buf.blocked role = true := by
  have hsame : a'.sched.waiting ≠ a.sched.waiting := fun he => hnew (he ▸ hi)
  cases hs with
  | lock _ _ _ hq => exact absurd hq.waiting hsame
  | create _ _ _ _ _ _ _ hw => exact absurd hw hsame
  | notCreated _ _ _ hq => exact absurd hq.waiting hsame
  | resume _ _ hs => rcases (hs.enqueued hi hnew).2 with he | he <;> cases he
  | exit _ _ _ hs => rcases (hs.enqueued hi hnew).2 with he | he <;> cases he
  | env _ hsched => exact absurd (by rw [hsched]) hsame
  | @act k fr r hrun h0 hact hs =>
    have hplace : a.sched.place k ≠ .nowhere := by simp [place_running hrun]
    have hassigned := (hset.assigned (by rw [hrun]; simpa using h0)).2
    have hr : r = .sleep p := by
      rcases (hs.enqueued hi hnew).2 with he | he
      · exact he
      · cases hact with
        | call _ hd => cases hd <;> cases he
        | alloc => cases he
        | turn _ ht => cases ht <;> cases he
    cases hact with
    | call hf hd =>
      cases hd with
      | sleepReleased hp' =>
        cases hr
        obtain rfl := hassigned.list_inj hp hp'
        exact (h k _ _ _ h0 hplace hf).2
      | sleep _ hT hb hp' =>
        cases hr
        obtain rfl := hassigned.list_inj hp hp'
        exact hb
      | _ => cases hr
    | alloc => cases hr
    | turn hf ht =>
      cases ht with
      | sleep =>
        cases hr
        exact absurd (hset.lock k _ _ _ h0 hplace hf) (hassigned.list_ne hp)
      | _ => cases hr

/-- **No handler misses its wakeup.** A step puts a thread into the list of a role only if the
buffer is as the handlers of that role find it useless. -/
def EnqueuesBlocked (S : GreenServer n) (m : Mach (GreenPc n) (Shared n)) : Prop :=
  ∀ l m' role p i, m.step S.program l = .ok m' → m.g.list role = some p →
    i ∈ m'.st.waitingIds p → i ∉ m.st.waitingIds p → m.g.buf.blocked role = true

end GreenServer

/-- As long as nobody waits for `lock_global` when a handler gives it back behind a failed test, the
handlers fall asleep in front of an empty or full buffer only. -/
theorem no_wakeup_lost {n : ℕ} {S : GreenServer n} {m : Mach (GreenPc n) (Shared n)}
    (hm : Reach (S.program.runs.guard fun m l => S.releasesAlone m l = true) m) :
    S.EnqueuesBlocked m := by
  obtain ⟨a, ha, h⟩ : ∃ a, Reach (S.program.aruns.guard (GreenServer.FreesAlone S)) a ∧
      Sim S.program False m a :=
    GreenServer.reach_guard (fun _ _ _ _ h hg => GreenServer.freesAlone h hg) hm
  have hunbroken := GreenServer.Unbroken.of_reach ha
  have har := ha.of_guard
  have hset := GreenServer.SetUp.of_reach har
  intro l m' role p i hs hp hi hnew
  obtain ⟨a', h', hstep⟩ := GreenServer.sim_step har h hs
  rw [h.g] at hp ⊢
  have hkind : a.kind p = some .lock := by
    cases role <;> exact GreenServer.SetUp.kind_of_prim har hp
  rw [h.repr.waitingIds ((har.ok.prims p).mpr (by simp [hkind]))] at hnew
  rcases hstep with rfl | ⟨k, hk⟩
  · rw [h'.repr.waitingIds ((har.ok.prims p).mpr (by simp [hkind]))] at hi
    exact absurd hi hnew
  · have hkind' := (hset.shape.steps hk).kind_kept har.ok hkind
    rw [h'.repr.waitingIds (((hk.ok har.ok).prims p).mpr (by simp [hkind']))] at hi
    exact hunbroken.enqueued hset (hset.shape.steps hk) hp hi hnew

/-- A consumer finds the buffer empty, with nobody at the lock, and goes to sleep. -/
theorem no_wakeup_lost_alone : ∃ m m', Reach
    ((GreenServer.program (n := 2) ⟨true, 2, 1, fun _ _ => true⟩).runs.guard fun m l =>
      GreenServer.releasesAlone ⟨true, 2, 1, fun _ _ => true⟩ m l = true) m ∧
    m.step (GreenServer.program (n := 2) ⟨true, 2, 1, fun _ _ => true⟩) (GreenServer.go 0) =
      .ok m' ∧ m'.st.waitingIds 4 = [2] ∧
    GreenServer.EnqueuesBlocked ⟨true, 2, 1, fun _ _ => true⟩ m := by
  obtain ⟨m, hm, hq⟩ := Mach.exists_of_reaches
    (P := GreenServer.program (n := 2) ⟨true, 2, 1, fun _ _ => true⟩)
    (T := (GreenServer.program (n := 2) ⟨true, 2, 1, fun _ _ => true⟩).runs.guard fun m l =>
      GreenServer.releasesAlone ⟨true, 2, 1, fun _ _ => true⟩ m l = true)
    (fun m l => GreenServer.releasesAlone ⟨true, 2, 1, fun _ _ => true⟩ m l = true)
    (fun _ _ _ hok hs => ⟨hok, hs⟩) (.init GreenServer.boot_init)
    (GreenServer.startup 2 ++ GreenServer.initCall 0 3 ++ GreenServer.initCall 1 4 ++
      GreenServer.asks 0 (.op .consumer) ++ [GreenServer.go 0, .turn, GreenServer.go 0])
    (fun m => (match m.step (GreenServer.program (n := 2) ⟨true, 2, 1, fun _ _ => true⟩)
        (GreenServer.go 0) with
      | .ok m' => decide (m'.st.waitingIds 4 = [2])
      | .error _ => false) = true) (by decide +kernel)
  split at hq
  · rename_i m' hs
    exact ⟨m, m', hm, hs, of_decide_eq_true hq, no_wakeup_lost hm⟩
  · cases hq

namespace GreenServer

/-- Five threads, five clients and one place: enough for a queue at the lock. -/
def crowded : GreenServer 5 := ⟨true, 5, 1, fun _ _ => true⟩

/-- A consumer (client 0) sleeps. A producer (client 1) fills the buffer, and its wakeup leaves it
in the ready queue with the lock, so that client 0's handler, a consumer (client 2) and two
producers (clients 3 and 4) queue up at the lock. Then client 0's handler empties the buffer, the
handler of client 2 finds it empty, gives the lock back, and with that runs the handler of client 3,
which fills the buffer and finds nobody to wake. -/
def lostWakeup : List (Label (Option (Fin 5)) (Fin 5 × Request)) :=
  startup 5 ++ initCall 0 6 ++ initCall 1 7 ++ initCall 2 8 ++ initCall 3 9 ++ initCall 4 10 ++
  asks 0 (.op .consumer) ++ [go 0, .turn, go 0, go 0] ++
  asks 1 (.op .producer) ++ [go 0, .turn, go 0] ++ [go 0, .turn] ++
  asks 2 (.op .consumer) ++ [go 0, .turn] ++ asks 3 (.op .producer) ++ [go 0, .turn] ++
  asks 4 (.op .producer) ++ [go 0, .turn] ++
  [go 0] ++ [.turn, go 0, go 0] ++ [.turn, go 0] ++ [.turn, go 0, go 0] ++ [.turn, go 0, go 0] ++
  [go 0] ++ asks 1 .tmnt ++ [go 0] ++ [go 0] ++ asks 0 .tmnt ++ [go 0]

end GreenServer

/-- **A wakeup is lost.** Thread 2 is put into `consumer_list` with the buffer full. -/
theorem wakeup_lost : ∃ m m', Reach GreenServer.crowded.program.runs m ∧
    m.step GreenServer.crowded.program (GreenServer.go 0) = .ok m' ∧
    m.g.list .consumer = some 4 ∧ m.st.waitingIds 4 = [] ∧ m'.st.waitingIds 4 = [2] ∧
    m.g.buf = ⟨1, 1⟩ ∧ m.g.buf.blocked .consumer = false ∧
    ¬ GreenServer.crowded.EnqueuesBlocked m := by
  obtain ⟨m, hm, hp, hnil, hbuf, hq⟩ := Mach.exists_of_reaches (P := GreenServer.crowded.program)
    (fun _ _ => True) (fun _ _ _ _ h => h) (.init GreenServer.boot_init) GreenServer.lostWakeup
    (fun m => m.g.list .consumer = some 4 ∧ m.st.waitingIds 4 = [] ∧ m.g.buf = ⟨1, 1⟩ ∧
      (match m.step GreenServer.crowded.program (GreenServer.go 0) with
      | .ok m' => decide (m'.st.waitingIds 4 = [2])
      | .error _ => false) = true) (by decide +kernel)
  have hb : m.g.buf.blocked .consumer = false := by rw [hbuf]; rfl
  split at hq
  · rename_i m' hs
    have hw := of_decide_eq_true hq
    refine ⟨m, m', hm, hs, hp, hnil, hw, hbuf, hb, fun hno => ?_⟩
    have hblocked := hno _ m' .consumer 4 2 hs hp (by simp [hw]) (by simp [hnil])
    cases hb.symm.trans hblocked
  · cases hq

end GreenLib
