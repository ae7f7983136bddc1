import GreenLib.Handover

/-!
# The current thread

The library stores twice who runs: as a link in `pool->t_running` and as an id in
`co_current_id`. `CurrentThread` says that the two agree, that the record they name is
live and has status running, and that no thread comes back after `thread_exit`.

The law does not hold when control falls back to thread 0. `thread_resume(0)` leaves
`t_running` null, and a `thread_exit` with an empty ready queue leaves it pointing at
the thread that has exited, so that the next `thread_resume` of thread 0 puts that
thread into the ready queue (`fallback_breaks_current_thread`). It holds in every run in
which control is passed to threads of the ready queue only (`current_thread`); thread 0
may then take part like any other thread, sleep and be woken.
-/

namespace GreenLib

open State Sched

variable {U G A E : Type}

/-- **The law of the current thread**: `t_running` and `co_current_id` lead to the same live record,
which is marked as running, and a thread that has exited is neither current nor ready. -/
structure CurrentThread (m : Mach U G) : Prop where
  /-- `t_running` is not null, its record is `addrs[co_current_id]`, live and running -/
  running : ∃ run, m.st.tRunning = some run ∧
    m.st.addrs m.st.coCurrentId = some (m.st.thread run) ∧
    m.st.threadLive (m.st.thread run) = true ∧ m.st.status (m.st.thread run) = .running
  /-- a thread that has called `thread_exit` neither runs nor is ready -/
  exited : ∀ i, m.exited i = true → m.st.coCurrentId ≠ i ∧ i ∉ m.st.readyIds

/-- Control is passed to threads of the ready queue only, and nobody exits when that queue is empty.
Then control never falls back to thread 0. -/
structure Careful (P : Program U G A E) (m : Mach U G) (l : Label A E) : Prop where
  resumes : ∀ id ∈ m.target P l, id ≠ 0 ∧ id ∈ m.st.readyIds
  exits : m.Calls P l .exit → m.st.readyNum ≠ 0

/-- The call is `thread_exit`, as a test: `Careful` is decided with it. -/
def Call.isExit : Call U → Bool
  | .exit => true
  | _ => false

theorem Mach.calls_exit_iff {P : Program U G A E} {m : Mach U G} {l : Label A E} :
    (m.callOf P l).any Call.isExit = true ↔ m.Calls P l .exit := by
  rw [Mach.calls_iff]
  rcases m.callOf P l with _ | c
  · simp
  · cases c <;> simp [Call.isExit]

instance (P : Program U G A E) (m : Mach U G) (l : Label A E) : Decidable (Careful P m l) :=
  decidable_of_iff ((∀ id ∈ m.target P l, id ≠ 0 ∧ id ∈ m.st.readyIds) ∧
      ((m.callOf P l).any Call.isExit = true → m.st.readyNum ≠ 0))
    ⟨fun h => ⟨h.1, fun hx => h.2 (Mach.calls_exit_iff.mpr hx)⟩,
      fun h => ⟨h.1, fun hx => h.2 (Mach.calls_exit_iff.mp hx)⟩⟩

/-- What `malloc` gave thread 0 reads as the record of a running thread; `thread_initial` does not
write the field. -/
def Mach.RunningStart (m : Mach U G) : Prop :=
  ∀ t, m.st.addrs 0 = some t → m.st.status t = .running

/-- The runs from such a start in which control is passed to ready threads. Programs are otherwise
free. -/
def Program.careful (P : Program U G A E) : Lts (Mach U G) (Label A E) where
  init m := P.runs.init m ∧ m.RunningStart
  step m l m' := Careful P m l ∧ P.runs.step m l m'

section Law

variable {P : Program U G A E} {m : Mach U G} {a : AMach U G}

/-- A careful step is calm, and never gives control to thread 0 by id. -/
theorem Careful.calm {l : Label A E} (h : Careful P m l) : Calm P True m l := by
  constructor
  · intro id hid
    exact .inl (h.resumes id hid)
  · intro hx h0
    exact absurd h0 (h.exits hx)

theorem Sim.currentThread (h : Sim P True m a) (hok : a.Ok) : CurrentThread m := by
  obtain ⟨link, c⟩ := h.repr.core
  -- somebody runs, since nobody handed control to thread 0 for good
  obtain ⟨i, hi⟩ : ∃ i, a.sched.running = some i := by
    rcases hr : a.sched.running with _ | i
    · exact absurd trivial (h.idle hr).1
    · exact ⟨i, rfl⟩
  have hpi := place_running hi
  obtain ⟨hrun, hco⟩ := c.running i hi
  have haddr := c.addrs i (by simp [hpi])
  constructor
  · refine ⟨link i, hrun, hco ▸ haddr, (c.record i _ haddr).2.1, ?_⟩
    have hst := c.status i (by simp [hpi]) fun _ => trivial
    rwa [hpi] at hst
  · intro k hk
    have hnow : a.sched.place k = .nowhere := by
      by_contra hne
      have hx := ((hok.placed k).mp hne).2
      rw [← h.exited, hk] at hx
      cases hx
    rw [hco, h.repr.readyIds]
    refine ⟨?_, notMem_ready (by simp [hnow])⟩
    rintro rfl
    rw [hpi] at hnow
    cases hnow

/-- **The law of the current thread.** It holds in every state of every run in which each
`thread_resume`, also one made by `thread_yield` or `thread_join`, targets a thread of the ready
queue, and `thread_exit` is called with a non-empty ready queue only. -/
theorem current_thread (hm : Reach P.careful m) : CurrentThread m := by
  have hsim : Simulation P.careful (P.aruns.guard fun _ _ => True) (Sim P True) := by
    apply simulation
    · intro m hm
      exact ⟨hm.1, fun _ => hm.2⟩
    · intro m l m' a _ _ hs
      exact ⟨hs.2, hs.1.calm, trivial⟩
  obtain ⟨a, ha, h⟩ := hsim.reach hm
  exact h.currentThread ha.of_guard.ok

/-- Thread 0 creates two threads and resumes the first, which yields to the second. The second exits
with a ready queue that is not empty. -/
def Script.passing : Script :=
  .call (.create (.call .yield .done)) <|
  .call (.create (.call .exit .done)) <|
  .call (.resume 1) .done

theorem current_thread_passing : ∃ m : Mach Script Unit,
    (m.exited 2 = true ∧ m.st.coCurrentId = 1) ∧ CurrentThread m := by
  have hinit : Script.passing.program.careful.init Script.passing.boot := by
    refine ⟨Script.passing.boot_init, ?_⟩
    intro t ht
    rfl
  obtain ⟨m, hm, hq⟩ := Mach.exists_of_reaches (T := Script.passing.program.careful)
    (Careful Script.passing.program) (fun _ _ _ hok hs => ⟨hok, hs⟩) (.init hinit)
    [.go 1, .go 2, .go 0, .go 0, .go 0]
    (fun m => m.exited 2 = true ∧ m.st.coCurrentId = 1) (by decide)
  exact ⟨m, hq, current_thread hm⟩

/-- Thread 1 yields with an empty ready queue, and thread 0 goes on. -/
def Script.yielding : Script :=
  .call (.create (.call .yield .done)) <|
  .call (.resume 1) <|
  .call .yield .done

/-- Thread 1 exits with an empty ready queue, and thread 0 goes on. -/
def Script.exiting : Script :=
  .call (.create (.call .exit .done)) <|
  .call (.resume 1) <|
  .call (.create .done) <|
  .call (.resume 2) .done

/-- **Control falls back to thread 0.** After the yield thread 0 executes while `t_running` is
null, and its next call dereferences it. After the exit, the thread that has exited stands in the
ready queue as soon as thread 0 has resumed another one. -/
theorem fallback_breaks_current_thread :
    (∃ m, Reach Script.yielding.program.runs m ∧ m.st.tRunning = none ∧
        m.fault Script.yielding.program (.go 0) = some .null ∧ ¬ CurrentThread m) ∧
      ∃ m, Reach Script.exiting.program.runs m ∧ m.exited 1 = true ∧ m.st.readyIds = [1] ∧
        ¬ CurrentThread m := by
  constructor
  · obtain ⟨m, hm, hrun, hnull⟩ := Mach.exists_of_reaches (T := Script.yielding.program.runs)
      (fun _ _ => True) (fun _ _ _ _ hs => hs) (.init Script.yielding.boot_init)
      [.go 1, .go 0, .go 0]
      (fun m => m.st.tRunning = none ∧ m.fault Script.yielding.program (.go 0) = some .null)
      (by decide)
    refine ⟨m, hm, hrun, hnull, fun h => ?_⟩
    obtain ⟨run, he, _⟩ := h.running
    cases hrun.symm.trans he
  · obtain ⟨m, hm, hx, hr⟩ := Mach.exists_of_reaches (T := Script.exiting.program.runs)
      (fun _ _ => True) (fun _ _ _ _ hs => hs) (.init Script.exiting.boot_init)
      [.go 1, .go 0, .go 0, .go 2, .go 0] (fun m => m.exited 1 = true ∧ m.st.readyIds = [1])
      (by decide)
    refine ⟨m, hm, hx, hr, fun h => (h.exited 1 hx).2 ?_⟩
    rw [hr]
    exact List.mem_singleton_self 1

end Law

end GreenLib
