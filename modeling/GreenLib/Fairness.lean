import GreenLib.Lock

/-!
# Fairness of the ready queue

Whatever the running thread calls, the ready queue loses at most one thread, the one that runs next,
and gets at most one new thread at its tail (`AStep.requeues`). So a thread in the queue never moves
back, and each time `thread_yield`, `thread_sleep` or `thread_exit` passes the processor on it moves
forward, since these take the head. A thread at position `k` runs after at most `k + 1` such
switches (`ready_fair`), whatever is created, woken or resumed in between.
-/

namespace GreenLib

open State Sched

/-! ## Queues -/

/-- The queue `q` becomes `q'` in a step after which `run` runs: at most one thread is appended, and
only the thread that runs is taken out. -/
inductive Requeues (q q' : List ℕ) (run : Option ℕ) : Prop where
  | keep (new : Option ℕ) (h : q' = q ++ new.toList)
  | take {j : ℕ} (new : Option ℕ) (hj : j ∈ q) (hrun : run = some j)
    (h : q' = q.erase j ++ new.toList)

namespace Requeues

variable {q q' : List ℕ} {run : Option ℕ} {j k t : ℕ}

/-- Taking out another element moves nobody back: the position stays, or becomes one less. -/
theorem position_erase (hk : q[k]? = some t) (hj : j ≠ t) :
    ∃ k' ≤ k, (q.erase j)[k']? = some t := by
  induction q generalizing k with
  | nil => cases hk
  | cons x q ih =>
    rcases eq_or_ne x j with rfl | hx
    · cases k with
      | zero => exact absurd (Option.some.inj hk) hj
      | succ k => exact ⟨k, Nat.le_succ k, by rwa [List.erase_cons_head]⟩
    · rw [List.erase_cons_tail (by simpa using hx)]
      cases k with
      | zero => exact ⟨0, le_rfl, hk⟩
      | succ k =>
        obtain ⟨k', hle, hk'⟩ := ih hk
        exact ⟨k' + 1, Nat.succ_le_succ hle, hk'⟩

theorem position_append (hk : q[k]? = some t) (new : List ℕ) : (q ++ new)[k]? = some t := by
  have hlt : k < q.length := (List.getElem?_eq_some_iff.mp hk).1
  rwa [List.getElem?_append_left hlt]

/-- A thread in the queue runs, or does not move back. Appending at the end cannot hurt it. -/
theorem position (h : Requeues q q' run) (hk : q[k]? = some t) :
    run = some t ∨ ∃ k' ≤ k, q'[k']? = some t := by
  cases h with
  | keep new h => exact .inr ⟨k, le_rfl, h ▸ position_append hk _⟩
  | @take j new hj hrun h =>
    rcases eq_or_ne j t with rfl | hne
    · exact .inl hrun
    · obtain ⟨k', hle, hk'⟩ := position_erase hk hne
      exact .inr ⟨k', hle, h ▸ position_append hk' _⟩

/-- If the head is taken out, the others move forward by one place. -/
theorem position_head (h : Requeues q q' run) (hrun : run = q.head?) (hq : ∀ i ∈ q', run ≠ some i)
    (hk : q[k]? = some t) : run = some t ∨ ∃ k' < k, q'[k']? = some t := by
  rcases q with _ | ⟨x, q⟩
  · cases hk
  · have hx : run = some x := hrun
    cases h with
    | keep new h => exact absurd hx (hq x (by simp [h]))
    | @take j new hj hj' h =>
      obtain rfl := Option.some.inj (hx.symm.trans hj')
      rw [List.erase_cons_head] at h
      cases k with
      | zero => exact .inl (hx.trans hk)
      | succ k => exact .inr ⟨k, Nat.lt_succ_self k, h ▸ position_append hk _⟩

/-- The queue before, with at most one thread removed and at most one appended. This is the form in
which the machine's queues are compared. -/
theorem elim (h : Requeues q q' run) :
    ∃ gone new : Option ℕ, q' = gone.elim q q.erase ++ new.toList := by
  cases h with
  | keep new h => exact ⟨none, new, h⟩
  | @take j new hj hrun h => exact ⟨some j, new, h⟩

end Requeues

/-- What the scheduler's steps do to the ready queue, by cases on them. -/
theorem Step.requeues {π : Type} [DecidableEq π] {a a' : Sched π} {i : ℕ} {r : Req π}
    (h : Step a i r a') : Requeues a.ready a'.ready a'.running := by
  have hsame : Requeues a.ready a.ready a.running := .keep none (List.append_nil _).symm
  have hhead : ∀ {j tl}, a.ready = j :: tl → a'.running = some j → a'.ready = tl →
      Requeues a.ready a'.ready a'.running := by
    intro j tl hr hrun hready
    refine .take none (hr ▸ List.mem_cons_self) hrun ?_
    rw [hr, List.erase_cons_head, hready]
    exact (List.append_nil _).symm
  cases h with
  | stay => exact hsame
  | sleepNone => exact hsame
  | sleep _ hr h => exact hhead hr h.running h.ready
  | wakeupNone => exact hsame
  | wakeup _ h => exact .keep (some i) h.ready
  | wakeupWaitNone => exact hsame
  | wakeupWait _ h => exact .keep none (h.ready.trans (List.append_nil _).symm)
  | resume _ hj h => exact .take (some i) hj h.running h.ready
  | handover _ hj h => exact .take none hj h.running (h.ready.trans (List.append_nil _).symm)
  | handback _ h => exact .keep (some i) h.ready
  | exit hr h => exact hhead hr h.running h.ready
  | exitLast hr h => exact .keep none (by rw [h.ready, hr]; rfl)

/-! ## Steps of the machine -/

section Fair

variable {U G A E : Type} {P : Program U G A E} {main idle : U → Prop} {m m' : Mach U G}
  {a a' : AMach U G} {l : Label A E} {i j k t : ℕ}

/-- **What a step does to the ready queue.** Creations append the new thread, and no other call but
those of the scheduler touches it. -/
theorem AStep.requeues (h : AStep P a l a') :
    Requeues a.sched.ready a'.sched.ready a'.sched.running := by
  have hsame : ∀ {run : Option ℕ}, Requeues a.sched.ready a.sched.ready run :=
    .keep none (List.append_nil _).symm
  cases h with
  | act _ _ hs => exact hs.requeues
  | exit _ _ _ hs => exact hs.requeues
  | create _ _ _ _ _ _ _ _ hready => exact .keep (some _) hready
  | notCreated _ _ _ hs =>
    rcases hs with rfl | rfl <;> exact hsame
  | primMade => exact hsame
  | primGone => exact hsame
  | env => exact hsame

/-- The step passes the processor on in `thread_yield`, `thread_sleep` or `thread_exit`, called by
the program or inside the library. -/
def Mach.passesOn (P : Program U G A E) (m : Mach U G) : Label A E → Bool
  | .call act al =>
    match m.callOf P (.call act al) with
    | some .yield | some .exit | some (.sleep _) => true
    | _ => false
  | .turn =>
    match m.cpu with
    | .acquire _ lock _ => m.st.held lock ≠ 0
    | .semP _ sem _ => m.st.count sem = 0
    | .cvSleep _ _ _ => true
    | .join cur new _ _ =>
      match m.st.join cur with
      | some b => !m.st.joinable b && m.st.status new == .waiting
      | none => false
    | _ => false
  | _ => false

/-- What such a step does to the memory: it is a call of one of the three functions, wherever it was
made. -/
theorem Mach.passesOn_st (he : m.step P l = .ok m') (hpass : m.passesOn P l = true) :
    (∃ tr, m.st.threadYield = .ok (m'.st, tr)) ∨ (∃ p tr, m.st.threadSleep p = .ok (m'.st, tr)) ∨
      ∃ tr, m.st.threadExit = .ok (m'.st, tr) := by
  rcases l with ⟨act, al⟩ | _ | e | ⟨t, junk⟩
  · have hcall : ∀ {c}, m.callOf P (.call act al) = some c →
        ∃ ret g, { m with g := g }.call al ret c = .ok m' := by
      intro c hc
      obtain ⟨_, _, u, ret, g, hl, hcpu, hn⟩ := Mach.calls_iff.mpr hc
      cases hl
      rw [Mach.step_call hcpu hn] at he
      exact ⟨ret, g, he⟩
    simp only [passesOn] at hpass
    split at hpass
    · rename_i hc
      obtain ⟨ret, g, he⟩ := hcall hc
      obtain ⟨s, tr, hs, rfl⟩ := Mach.finish_eq_ok he
      exact .inl ⟨tr, by rw [transfer_st]; exact hs⟩
    · rename_i hc
      obtain ⟨ret, g, he⟩ := hcall hc
      obtain ⟨s, tr, hs, rfl⟩ := Mach.finish_eq_ok he
      exact .inr (.inr ⟨tr, by rw [transfer_st]; exact hs⟩)
    · rename_i p hc
      obtain ⟨ret, g, he⟩ := hcall hc
      obtain ⟨s, tr, hs, rfl⟩ := Mach.finish_eq_ok he
      exact .inr (.inl ⟨p, tr, by rw [transfer_st]; exact hs⟩)
    · cases hpass
  · change m.turn = .ok m' at he
    simp only [turn] at he
    rcases hcpu : m.cpu with u | ⟨b, p, u⟩ | ⟨p, u⟩ | ⟨b, p, u⟩ | ⟨cv, p, u⟩ | ⟨cv, p, u⟩ |
      ⟨cur, new, id, u⟩ <;> simp only [passesOn, hcpu] at hpass he
    case acquire =>
      obtain ⟨r, hs, he⟩ := bind_eq_ok he
      obtain rfl := Except.ok.inj he
      obtain ⟨_, _, hs⟩ := bind_eq_ok hs
      rw [if_pos (of_decide_eq_true hpass)] at hs
      obtain ⟨⟨s, tr⟩, hsleep, hs⟩ := bind_eq_ok hs
      obtain rfl := Except.ok.inj hs
      exact .inr (.inl ⟨p, tr, by rw [loop_st]; exact hsleep⟩)
    case semP =>
      obtain ⟨r, hs, he⟩ := bind_eq_ok he
      obtain ⟨_, _, hs⟩ := bind_eq_ok hs
      rw [if_pos (of_decide_eq_true hpass)] at hs
      obtain ⟨⟨s, tr⟩, hsleep, hs⟩ := bind_eq_ok hs
      obtain rfl := Except.ok.inj hs
      obtain rfl := Except.ok.inj he
      exact .inr (.inl ⟨p, tr, by rw [loop_st]; exact hsleep⟩)
    case cvSleep =>
      obtain ⟨s, tr, hs, rfl⟩ := Mach.finish_eq_ok he
      exact .inr (.inl ⟨cv, tr, by rw [transfer_st]; exact hs⟩)
    case join =>
      obtain ⟨⟨s, t⟩, hs, he⟩ := bind_eq_ok he
      obtain ⟨b, hb, hs⟩ := bind_eq_ok hs
      simp only [deref_eq_ok hb, Bool.and_eq_true, Bool.not_eq_true', beq_iff_eq] at hpass
      simp only [hpass.1, hpass.2, if_false, Bool.false_eq_true] at hs
      obtain ⟨⟨s₁, tr⟩, hyield, hs⟩ := bind_eq_ok hs
      obtain ⟨rfl, rfl⟩ := Prod.mk.inj (Except.ok.inj hs)
      obtain rfl := Except.ok.inj he
      exact .inl ⟨tr, by rw [transfer_st]; exact hyield⟩
    all_goals cases hpass
  · cases hpass
  · cases hpass

namespace Sim

/-- A thread that passes the processor on runs, also on the abstract machine. -/
theorem running_of_passesOn (h : Sim P False m a) (he : m.step P l = .ok m')
    (hpass : m.passesOn P l = true) : ∃ i, a.sched.running = some i := by
  rcases l with ⟨act, al⟩ | _ | e | ⟨t, junk⟩
  · simp only [Mach.passesOn] at hpass
    split at hpass
    · exact h.running_of_calls (Mach.calls_iff.mpr (by assumption))
    · exact h.running_of_calls (Mach.calls_iff.mpr (by assumption))
    · exact h.running_of_calls (Mach.calls_iff.mpr (by assumption))
    · cases hpass
  · refine h.running_of_cpu fun u hu => ?_
    change m.turn = .ok m' at he
    simp only [Mach.turn, hu] at he
    cases he
  · cases hpass
  · cases hpass

/-- **The head of the ready queue runs** when the processor is passed on, in all three functions. -/
theorem runs_head (h : Sim P False m a) (h' : Sim P False m' a') (h0 : 0 ∉ a.sched.ready)
    {tl : List ℕ} (hready : a.sched.ready = j :: tl) (he : m.step P l = .ok m')
    (hpass : m.passesOn P l = true) : a'.sched.running = some j := by
  obtain ⟨i, hi⟩ := h.running_of_passesOn he hpass
  have hco : m'.st.coCurrentId = j := by
    have hrun : ∀ {sched : Sched Addr}, Repr False m'.st sched → sched.running = some j →
        m'.st.coCurrentId = j := by
      intro sched hrepr hrun
      obtain ⟨link, c⟩ := hrepr.core
      exact (c.running j hrun).2
    rcases Mach.passesOn_st he hpass with ⟨tr, hs⟩ | ⟨p, tr, hs⟩ | ⟨tr, hs⟩
    · rw [h.repr.threadYield_eq, hready] at hs
      exact Repr.coCurrentId_of_threadResume hs
    · obtain ⟨sched, hd⟩ := h.repr.threadSleep hi hs
      refine hrun hd.repr ?_
      cases hd.step with
      | sleepNone hnone => cases hnone.symm.trans hready
      | sleep _ hcons hb => rw [hb.running, (List.cons.inj (hcons.symm.trans hready)).1]
    · obtain ⟨sched, hx⟩ := h.repr.threadExit hi (fun _ => not_false) hs
      refine hrun hx.repr ?_
      cases hx.step with
      | exit hcons hb => rw [hb.running, (List.cons.inj (hcons.symm.trans hready)).1]
      | exitLast hnone => cases hnone.symm.trans hready
  rcases hrun : a'.sched.running with _ | x
  · have hzero : j = 0 := hco.symm.trans (h'.idle hrun).2.1
    exact absurd (by simp [hready, hzero]) h0
  · rw [← hco, h'.coCurrentId hrun]

end Sim

/-- **Fairness of the ready queue**, from the state `m` on: how many threads can still run before
one that is ready now. -/
structure ReadyFair (P : Program U G A E) (m : Mach U G) : Prop where
  /-- at most one thread is removed, the others keep their order, at most one is appended -/
  queue : ∀ l m', ResumesReady P m l → m.step P l = .ok m' → ∃ gone new : Option ℕ,
    m'.st.readyIds = gone.elim m.st.readyIds m.st.readyIds.erase ++ new.toList
  /-- a thread in the queue never moves back until it runs, and each switch moves it forward -/
  front : ∀ k t ls m', m.st.readyIds[k]? = some t →
    Path (P.runs.guard (ResumesReady P)) m ls m' → (∃ x ∈ ls, x.2.2.st.Runs t) ∨
      ∃ k', m'.st.readyIds[k']? = some t ∧ k' + ls.countP (fun x => x.1.passesOn P x.2.1) ≤ k
  /-- it runs after at most `k + 1` switches -/
  soon : ∀ k t ls m', m.st.readyIds[k]? = some t →
    Path (P.runs.guard (ResumesReady P)) m ls m' →
    ls.countP (fun x => x.1.passesOn P x.2.1) = k + 1 → ∃ x ∈ ls, x.2.2.st.Runs t

/-- One step: the thread runs, or it does not move back, and it moves forward when the processor is
passed on. -/
theorem Program.Handover.position (hP : P.Handover main idle)
    (hm : Reach (P.runs.guard (ResumesReady P)) m) (hr : ResumesReady P m l)
    (he : m.step P l = .ok m') (hk : m.st.readyIds[k]? = some t) :
    m'.st.Runs t ∨ ∃ k', m'.st.readyIds[k']? = some t ∧
      k' + (if m.passesOn P l = true then 1 else 0) ≤ k := by
  obtain ⟨a, ha, h⟩ := hP.reach hm
  obtain ⟨a', h', hstep⟩ := hP.sim_step ha h hr he
  rw [h.repr.readyIds] at hk
  rw [h'.repr.readyIds]
  -- thread 0 is not in the queue
  have hne : ∀ {b : AMach U G}, b.Zero main idle → 0 ∉ b.sched.ready := by
    intro b hz h0
    rcases hz with ⟨u, hi, -⟩ | ⟨hpark, -⟩
    · cases (place_ready h0).symm.trans (place_running hi)
    · cases (place_ready h0).symm.trans hpark
  have h0 := hne (hP.zero ha)
  have ht : t ∈ a.sched.ready := List.mem_of_getElem? hk
  have hruns : a'.sched.running = some t → m'.st.Runs t := fun hrun =>
    (h'.runs_iff fun he => h0 (he ▸ ht)).mpr (place_running hrun)
  have hq : Requeues a.sched.ready a'.sched.ready a'.sched.running := by
    rcases hstep with rfl | hs
    · exact .keep none (List.append_nil _).symm
    · exact hs.requeues
  split
  · rename_i hpass
    rcases hready : a.sched.ready with _ | ⟨j, tl⟩
    · rw [hready] at ht
      cases ht
    · have hhead := h.runs_head h' h0 hready he hpass
      have hout : ∀ i ∈ a'.sched.ready, a'.sched.running ≠ some i := by
        intro i hi hrun
        cases (place_ready hi).symm.trans (place_running hrun)
      rcases hq.position_head (by rw [hhead, hready]; rfl) hout hk with hrun | ⟨k', hlt, hk'⟩
      · exact .inl (hruns hrun)
      · exact .inr ⟨k', hk', hlt⟩
  · rcases hq.position hk with hrun | ⟨k', hle, hk'⟩
    · exact .inl (hruns hrun)
    · exact .inr ⟨k', hk', hle⟩

/-- **The whole way.** Position and switches together do not exceed the position at the start. -/
theorem Program.Handover.position_path (hP : P.Handover main idle)
    (hm : Reach (P.runs.guard (ResumesReady P)) m) (hk : m.st.readyIds[k]? = some t)
    {ls : List (Mach U G × Label A E × Mach U G)}
    (hp : Path (P.runs.guard (ResumesReady P)) m ls m') : (∃ x ∈ ls, x.2.2.st.Runs t) ∨
      ∃ k', m'.st.readyIds[k']? = some t ∧ k' + ls.countP (fun x => x.1.passesOn P x.2.1) ≤ k := by
  induction hp with
  | nil => exact .inr ⟨k, hk, le_rfl⟩
  | snoc hp hs ih =>
    rcases ih with ⟨x, hx, hrun⟩ | ⟨k₁, hk₁, hle⟩
    · exact .inl ⟨x, List.mem_append_left _ hx, hrun⟩
    · rcases hP.position (hm.path hp) hs.1 hs.2 hk₁ with hrun | ⟨k₂, hk₂, hle₂⟩
      · exact .inl ⟨_, List.mem_append_right _ List.mem_cons_self, hrun⟩
      · refine .inr ⟨k₂, hk₂, ?_⟩
        rw [List.countP_append, List.countP_singleton]
        dsimp only
        omega

/-- **The ready queue is fair** in every run of a program whose thread 0 only sets up and hands over
and whose threads resume ready threads: a thread at position `k` runs after at most `k + 1` times
that the processor is passed on. -/
theorem ready_fair (hP : P.Handover main idle) (hm : Reach (P.runs.guard (ResumesReady P)) m) :
    ReadyFair P m where
  queue l m' hr he := by
    obtain ⟨a, ha, h⟩ := hP.reach hm
    obtain ⟨a', h', rfl | hs⟩ := hP.sim_step ha h hr he
    · exact ⟨none, none, by rw [h.repr.readyIds, h'.repr.readyIds]; simp⟩
    · rw [h.repr.readyIds, h'.repr.readyIds]
      exact hs.requeues.elim
  front k t ls m' hk hp := hP.position_path hm hk hp
  soon k t ls m' hk hp hcount := by
    rcases hP.position_path hm hk hp with hrun | ⟨k', -, hle⟩
    · exact hrun
    · omega

/-- Three threads that yield once and exit then. -/
def Script.rotating : Script :=
  .call (.create worker) <|
  .call (.create worker) <|
  .call (.create worker) <|
  .call (.resume 1) .done
where
  worker : Script := .call .yield <| .call .exit .done

/-- Thread 1 runs, thread 3 is the second one in the ready queue. -/
theorem ready_fair_rotating : ∃ m : Mach Script Unit,
    (m.st.coCurrentId = 1 ∧ m.st.readyIds[1]? = some 3) ∧
      ReadyFair Script.rotating.program m := by
  obtain ⟨m, hm, hq⟩ := Mach.exists_of_reaches
    (T := Script.rotating.program.runs.guard (ResumesReady _))
    (ResumesReady Script.rotating.program) (fun _ _ _ hok hs => ⟨hok, hs⟩)
    (.init (Script.boot_init _)) [.go 1, .go 2, .go 3, .go 0]
    (fun m => m.st.coCurrentId = 1 ∧ m.st.readyIds[1]? = some 3) (by decide)
  have hmain : Script.rotating.HandsOver := ⟨trivial, trivial, trivial, rfl⟩
  exact ⟨m, hq, ready_fair (Script.handover hmain) hm⟩

end Fair

end GreenLib
