import GreenLib.Lock

/-!
# `thread_lock_release_acquire`

`main.c` calls `thread_lock_release_acquire` in the place of a release followed by an
acquire. The call frees the lock and swaps the caller with the head of the queue. Unlike a
thread that is asleep in acquire, the caller does not test and mark the lock when it is
woken: whoever wakes it has just freed the lock, so it returns with the lock free
(`Rejoins`), and the next acquire succeeds beside it.

So a call that returns never returns with the lock (`release_acquire_law`, second part),
and with three threads two of them are in the critical section
(`release_acquire_admits_two`). Programs that mix acquire and release, and for which it is
only the call that is missing, keep the law (first part).
-/

namespace GreenLib

open Sched

variable {U G A E : Type}

/-- The queues of locks are entered and left through acquire, release and
`thread_lock_release_acquire` only. -/
def Program.Mixes (P : Program U G A E) : Prop :=
  ∀ {act v u g c ret g'}, P.next act v u g = some (c, ret, g') →
    c.Leaves .locks v.kind ∨ ∃ l, c = .releaseAcquire l

/-! ## Where a caller is -/

/-- A thread inside `thread_lock_release_acquire` is asleep in the queue of the lock, or it runs
and the lock is free. -/
def Rejoins (a : AMach U G) : Prop :=
  ∀ j l u, a.sched.place j ≠ .nowhere → a.frame j = .relAcq l u → a.kind l = some .lock ∧
    (a.sched.running = some j ∧ a.held l = 0 ∧ a.helder l = -1 ∨ a.sched.place j = .waiting l)

section Steps

variable {P : Program U G A E} {held : U → Finset Addr} {a a' : AMach U G} {lab : Label A E}
  {i : ℕ} {l : Addr}

/-- Whoever wakes a thread from the queue of a lock has freed the lock, in whichever of the
calls. -/
theorem Act.frees (hM : P.Mixes) {b : AMach U G} {fr : Frame U} {r : Req Addr}
    (h : Act P a i lab b fr r) (hr : r = .wakeup l ∨ r = .wakeupWait l)
    (hl : a.kind l = some .lock) :
    b.held l = 0 ∧ b.helder l = -1 := by
  have hfree : ∀ {x : AMach U G} {l'}, (r = .wakeup l' ∨ r = .wakeupWait l') →
      (x.setLock l' (-1) 0).held l = 0 ∧ (x.setLock l' (-1) 0).helder l = -1 := by
    intro x l' hr'
    obtain rfl : l' = l := by
      rcases hr with rfl | rfl <;> rcases hr' with he | he <;> cases he <;> rfl
    simp [AMach.setLock]
  cases h with
  | plain hf hn hreq =>
    have ht : r.Touches l := hr.elim (fun h => .inr (.inl h)) fun h => .inr (.inr h)
    rcases hM hn with hc | ⟨l', rfl⟩
    · exact absurd ht (hc.not_touches hreq hl rfl)
    · cases hreq
  | release => exact hfree (.inl rfl)
  | releaseAcquire => exact hfree (.inr rfl)
  | cvWait => exact hfree (.inl rfl)
  | semV hf hn hk =>
    rcases hr with he | he <;> cases he
    cases hk.symm.trans hl
  | _ => rcases hr with he | he <;> cases he

namespace Rejoins

/-- The caller itself: it stays because nobody waits, or it goes to the end of the queue. -/
theorem own (h : Rejoins a) (hs : AStep P a lab a') (hi : a.sched.running = some i) {u : U}
    (hf : a'.frame i = .relAcq l u) (hp : a'.sched.place i ≠ .nowhere) :
    a.kind l = some .lock ∧ (a'.sched.running = some i ∧ a'.held l = 0 ∧ a'.helder l = -1 ∨
      a'.sched.place i = .waiting l) := by
  have hpi := place_running hi
  cases hs with
  | act hi' hact hstep =>
    obtain rfl := Option.some.inj (hi.symm.trans hi')
    have hfr := (Function.update_self i _ a.frame).symm.trans hf
    cases hact with
    | releaseAcquire hu hn hk =>
      obtain ⟨rfl, -⟩ := Frame.relAcq.inj hfr
      refine ⟨hk, ?_⟩
      cases hstep with
      | wakeupWaitNone => exact .inl ⟨hi, by simp [AMach.setLock]⟩
      | wakeupWait hw hb =>
        have hne := ne_running_of_place hi (place_waiting (hw ▸ List.mem_cons_self)) (by simp)
        refine .inr ((congrFun hb.place i).trans ?_)
        rw [Function.update_of_ne hne.symm, Function.update_self]
    | join _ _ hor => rcases hor with rfl | ⟨_, _, rfl⟩ <;> cases hfr
    | _ => cases hfr
  | exit hi' hu =>
    obtain rfl := Option.some.inj (hi.symm.trans hi')
    cases hu.symm.trans hf
  | create hi' hu hn hid =>
    obtain rfl := Option.some.inj (hi.symm.trans hi')
    subst hid
    have hne : i ≠ a.sched.newId := by
      rintro he
      cases hpi.symm.trans (he ▸ place_newId)
    simp [Function.update_of_ne hne] at hf
  | env =>
    obtain ⟨hk, hor⟩ := h i l u (by simp [hpi]) hf
    exact ⟨hk, hor⟩
  | _ hi' =>
    obtain rfl := Option.some.inj (hi.symm.trans hi')
    simp at hf

/-- **Every step keeps the invariant.** The interesting steps are the wakeups: the woken thread
finds the lock free. -/
theorem step (hM : P.Mixes) (hB : P.Balanced held) (hok : a.Ok) (h : Rejoins a)
    (hs : AStep P a lab a') : Rejoins a' := by
  intro j l u hp hf
  have hkind : a.kind l = some .lock → a'.kind l = some .lock := by
    intro hl
    rcases hs.kind_kept hok hl with hl' | ⟨_, _, _, _, _, _, _, _, _, _, hn⟩ | ⟨he, _⟩
    · exact hl'
    · exact (hB.next hn).elim
    · cases he
  by_cases hrun : a.sched.running = some j
  · obtain ⟨hk, hor⟩ := h.own hs hrun hf hp
    exact ⟨hkind hk, hor⟩
  have hpj : a.sched.place j ≠ .nowhere := by
    intro hnow
    obtain ⟨v, _, hv⟩ := hs.new_thread hnow hp
    cases hv.symm.trans hf
  rw [hs.frame_of_ne hpj hrun] at hf
  obtain ⟨hk, hor⟩ := h j l u hpj hf
  have hwait : a.sched.place j = .waiting l := hor.resolve_left fun h => hrun h.1
  refine ⟨hkind hk, ?_⟩
  -- asleep: it stays there, or it is woken by a thread that frees the lock
  rcases hs.moves hpj hrun with ⟨_, he⟩ | ⟨hrun', _⟩
  · exact .inr (he.trans hwait)
  · obtain ⟨i, b, fr, r, _, hact, hr, _, he⟩ := hs.woken hwait hrun'
    refine .inl ⟨hrun', ?_⟩
    rw [he]
    exact hact.frees hM hr hk

theorem reach (hM : P.Mixes) (hB : P.Balanced held) (h : Reach P.aruns a) : Rejoins a := by
  refine Reach.invariant (T := P.aruns) (P := Rejoins) ?_ ?_ h
  · intro a h₀ j l u hp hf
    obtain rfl : j = 0 := by
      by_contra hne
      exact hp (h₀.place j hne)
    cases h₀.frame.symm.trans hf
  · intro a lab a' hr h hs
    exact h.step hM hB hr.ok hs

end Rejoins

end Steps

/-! ## The law and its failure -/

/-- A caller of `thread_lock_release_acquire` returns with the lock, and nobody is in its critical
section beside another thread. -/
structure ReleaseAcquireLaw (P : Program U G A E) (held : U → Finset Addr) (m : Mach U G) :
    Prop where
  returns : ∀ l u m', m.cpu = .relAcq l u → m.step P .turn = .ok m' →
    m'.st.held l = 1 ∧ m'.st.helder l = m'.st.coCurrentId
  exclusive : ∀ l i j, m.Holds held i l → m.Holds held j l → i = j

/-- The call is `thread_lock_release_acquire`, as a Boolean for the guard of the runs. -/
def Call.isReleaseAcquire : Call U → Bool
  | .releaseAcquire _ => true
  | _ => false

/-- The step calls `thread_lock_release_acquire`. -/
def Mach.Fuses (P : Program U G A E) (m : Mach U G) (l : Label A E) : Prop :=
  (m.callOf P l).any Call.isReleaseAcquire = true

instance (P : Program U G A E) (m : Mach U G) (l : Label A E) : Decidable (m.Fuses P l) :=
  inferInstanceAs (Decidable (_ = true))

section Law

variable {P : Program U G A E} {main idle : U → Prop} {held : U → Finset Addr}

/-- **`thread_lock_release_acquire` is not release and acquire.** Programs may mix the three calls.
As long as no thread calls it, locks are exclusive. Every call of it that returns finds the lock
free, and leaves it free. -/
theorem release_acquire_law (hP : P.Handover main idle) (hM : P.Mixes) (hB : P.Balanced held) :
    (∀ m, Reach (P.runs.guard fun m l => ResumesReady P m l ∧ ¬ m.Fuses P l) m →
      ReleaseAcquireLaw P held m) ∧
    ∀ m, Reach (P.runs.guard (ResumesReady P)) m → ∀ l u, m.cpu = .relAcq l u →
      ∀ m', m.step P .turn = .ok m' →
        m'.cpu = .user u ∧ m'.st.held l = 0 ∧ m'.st.helder l = -1 := by
  constructor
  · intro m hm
    have hsim : Simulation (P.runs.guard fun m l => ResumesReady P m l ∧ ¬ m.Fuses P l)
        (P.aruns.guard fun a l =>
          ∀ lk, a.kind lk = some .lock → ¬ a.Calls P l (.releaseAcquire lk)) (Sim P False) := by
      apply hP.simulation
      · exact fun m hm => hm
      · intro m l m' a _ h hs
        refine ⟨hs.2, hs.1.1, fun lk _ hc => hs.1.2 ?_⟩
        unfold Mach.Fuses
        rw [Mach.calls_iff.mp (h.calls hc)]
        rfl
    obtain ⟨a, ha, h⟩ := hsim.reach hm
    constructor
    · intro l u m' hcpu
      obtain ⟨i, hi⟩ := h.running_of_cpu (by simp [hcpu])
      exact absurd ((h.cpu i hi).symm.trans hcpu)
        (ha.no_relAcq i (by simp [place_running hi]) l u)
    · exact fun _ _ _ => h.exclusive ha.of_guard.ok (Owners.reach hB ha.no_relAcqReturns)
  · intro m hm l u hcpu m' he
    obtain ⟨a, ha, h⟩ := hP.reach hm
    obtain ⟨i, hi⟩ := h.running_of_cpu (by simp [hcpu])
    have hpi := place_running hi
    simp only [Mach.step, Mach.turn, hcpu] at he
    obtain rfl := Except.ok.inj he
    refine ⟨rfl, ?_⟩
    obtain ⟨_, ⟨_, hfree⟩ | hwait⟩ :=
      Rejoins.reach hM hB ha i l u (by simp [hpi]) ((h.cpu i hi).symm.trans hcpu)
    · rw [← h.held, ← h.helder] at hfree
      exact hfree
    · cases hpi.symm.trans hwait

/-- Tasks leave the queues of locks alone: the monitor lets the three calls through and no raw
one. -/
theorem Task.mixes {fused : Bool} {main : Script} : (Task.program fused main).Mixes := by
  intro act v u g c ret g' h
  obtain ⟨d, rest, hs, -, hd, rfl, -⟩ := Task.next_eq_some h
  exact (Call.leaves_of_after .locks hd).imp_right And.right

/-- Thread 1 passes its lock to thread 2 and gets it back, then thread 3 asks for it. -/
def Script.swapping : Script :=
  .call .lockCreate <|
  .call (.create (.call (.acquire 5) <| .call .yield <| .call (.releaseAcquire 5) <|
    .call .yield <| .call (.release 5) .done)) <|
  .call (.create (.call (.acquire 5) <| .call (.release 5) .done)) <|
  .call (.create (.call .yield <| .call (.acquire 5) .done)) <|
  .call (.resume 1) .done

theorem Script.swapping_handsOver : Script.swapping.HandsOver :=
  ⟨trivial, trivial, trivial, trivial, rfl⟩

/-- The run up to the call: thread 1 holds the lock and thread 2 waits for it. So far the law
holds. -/
theorem release_acquire_law_swapping : ∃ m : Mach Task Unit,
    (m.st.coCurrentId = 1 ∧ m.st.helder 5 = 1 ∧ m.st.waitingIds 5 = [2]) ∧
      ReleaseAcquireLaw (Task.program true Script.swapping) Task.held m := by
  obtain ⟨m, hm, hq⟩ := Mach.exists_of_reaches
    (T := (Task.program true Script.swapping).runs.guard fun m l => ResumesReady _ m l ∧
      ¬ m.Fuses (Task.program true Script.swapping) l)
    (fun m l => ResumesReady (Task.program true Script.swapping) m l ∧
      ¬ m.Fuses (Task.program true Script.swapping) l)
    (fun _ _ _ hok hs => ⟨hok, hs⟩) (.init Task.boot_init)
    [.go 5, .go 1, .go 2, .go 3, .go 0, .go 0, .turn, .go 0, .go 0, .turn, .go 0]
    (fun m => m.st.coCurrentId = 1 ∧ m.st.helder 5 = 1 ∧ m.st.waitingIds 5 = [2]) (by decide)
  exact ⟨m, hq, (release_acquire_law (Task.handover Script.swapping_handsOver) Task.mixes
    Task.balanced).1 m hm⟩

instance (held : U → Finset Addr) (m : Mach U G) (j : ℕ) (l : Addr) :
    Decidable (m.Holds held j l) :=
  inferInstanceAs (Decidable ((j ≠ 0 ∧ m.created j = true ∧ m.exited j = false) ∧
    ∃ fr ∈ m.frameOf j, l ∈ fr.holds held))

/-- **Two threads in the critical section.** Thread 1 comes back from its call with the lock free,
and the acquire of thread 3 succeeds. -/
theorem release_acquire_admits_two :
    ∃ m, Reach ((Task.program true Script.swapping).runs.guard
        (ResumesReady (Task.program true Script.swapping))) m ∧
      m.Holds Task.held 1 5 ∧ m.Holds Task.held 3 5 ∧
      ¬ ReleaseAcquireLaw (Task.program true Script.swapping) Task.held m := by
  obtain ⟨m, hm, h₁, h₃⟩ := Mach.exists_of_reaches
    (T := (Task.program true Script.swapping).runs.guard (ResumesReady _))
    (ResumesReady (Task.program true Script.swapping))
    (fun _ _ _ hok hs => ⟨hok, hs⟩) (.init Task.boot_init)
    [.go 5, .go 1, .go 2, .go 3, .go 0, .go 0, .turn, .go 0, .go 0, .turn, .go 0, .go 0, .turn,
      .go 0, .turn, .go 0, .go 0, .turn]
    (fun m => m.Holds Task.held 1 5 ∧ m.Holds Task.held 3 5) (by decide)
  refine ⟨m, hm, h₁, h₃, fun h => ?_⟩
  cases h.exclusive 5 1 3 h₁ h₃

end Law

end GreenLib
