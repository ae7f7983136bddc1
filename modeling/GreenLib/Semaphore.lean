import GreenLib.Lock

/-!
# Semaphores

`thread_semaphore_P` and `thread_semaphore_V` on one semaphore that nobody else sleeps on,
wakes from or destroys; the rest of the program is arbitrary. The invariant of the waiting
loops says that the count stays in range, that no thread sleeps on a unit that is not
already spoken for, and in which order threads come back. What is added here is that no
unit is lost or made (`Conserves`): the count is what V has added less what P has taken,
also while threads are suspended inside P and behind V.
-/

namespace GreenLib

open Sched

variable {U G A E : Type}

/-- One semaphore, as a set to watch. The results hold for each semaphore by itself, whatever the
program does with the others. -/
def Watch.semaphore (sem : Addr) : Watch where
  on p k := p = sem ∧ k = .semaphore
  not_plain _ h := by cases h.2

/-! ## Conservation -/

/-- The count is the number of increments less the number of decrements, since the semaphore was
created. -/
def Conserves (sem : Addr) (a : AMach U G) : Prop :=
  a.kind sem = some .semaphore → a.count sem = a.vs sem - a.ps sem

section Steps

variable {P : Program U G A E} {sem : Addr} {a a' : AMach U G} {lab : Label A E} {i : ℕ}

/-- An action on another semaphore, or none, leaves the three numbers as they are. -/
theorem Conserves.same (h : Conserves sem a) {b : AMach U G} (hk : b.kind = a.kind)
    (hc : b.count sem = a.count sem) (hv : b.vs sem = a.vs sem) (hp : b.ps sem = a.ps sem) :
    Conserves sem b := by
  intro hs
  rw [hc, hv, hp]
  exact h (hk ▸ hs)

theorem Conserves.act (hw : Waiters (.semaphore sem) a) (h : Conserves sem a) {b : AMach U G}
    {fr : Frame U} {r : Req Addr} (hact : Act P a i lab b fr r) : Conserves sem b := by
  cases hact with
  | semV hf hn hk hpos =>
    rename_i p ret g
    by_cases hp : p = sem
    · subst hp
      intro hs
      obtain ⟨h₀, h₁⟩ := (hw.loop p .semaphore hs ⟨rfl, rfl⟩).range
      have hinc : wrap32 (a.count p + 1) = a.count p + 1 := (wrap32_succ_of_pos h₀ h₁ hpos).1
      have hold := h hs
      simp only [AMach.setCount, Function.update_self, hinc]
      push_cast
      omega
    · have hne : sem ≠ p := Ne.symm hp
      refine h.same rfl ?_ ?_ rfl <;> simp [AMach.setCount, Function.update_of_ne hne]
  | semPDone hf hk hc =>
    rename_i b p u
    by_cases hp : p = sem
    · subst hp
      intro hs
      obtain ⟨h₀, h₁⟩ := (hw.loop p .semaphore hs ⟨rfl, rfl⟩).range
      change 0 ≤ a.count p at h₀
      change a.count p < 2 ^ 31 at h₁
      have hdec : wrap32 (a.count p - 1) = a.count p - 1 := wrap32_of_lt (by omega) (by omega)
      have hold := h hs
      simp only [AMach.setCount, AMach.serve, Function.update_self, hdec]
      push_cast
      omega
    · have hne : sem ≠ p := Ne.symm hp
      refine h.same rfl ?_ rfl ?_ <;> simp [AMach.setCount, AMach.serve, Function.update_of_ne hne]
  | _ => exact h.same rfl rfl rfl rfl

/-- **Every step keeps the invariant.** The range of the counter, which `Waiters` gives, is what
keeps the arithmetic from wrapping. -/
theorem Conserves.step (hw : Waiters (.semaphore sem) a) (h : Conserves sem a)
    (hs : AStep P a lab a') : Conserves sem a' := by
  cases hs with
  | act hi hact hstep =>
    have hb := Conserves.act hw h hact
    exact fun hs => hb hs
  | primMade hi hf hn hc hal hp =>
    rename_i k p
    intro hs
    by_cases hsp : sem = p
    · subst hsp
      obtain rfl : k = .semaphore :=
        Option.some.inj ((Function.update_self sem (some k) a.kind).symm.trans hs)
      simp
    · have hk := h ((Function.update_of_ne hsp (some k) a.kind).symm.trans hs)
      by_cases hk' : k = .semaphore <;> simpa [hk', Function.update_of_ne hsp] using hk
  | primGone hi hf hn hc hq =>
    rename_i p
    intro hs
    have hsp : sem ≠ p := by
      rintro rfl
      cases (Function.update_self sem none a.kind).symm.trans hs
    exact h ((Function.update_of_ne hsp none a.kind).symm.trans hs)
  | _ => exact h

theorem Conserves.reach (hL : P.Leaves (.semaphore sem)) (h : Reach P.aruns a) :
    Conserves sem a := by
  refine Reach.invariant (T := P.aruns) (P := Conserves sem) ?_ ?_ h
  · intro a h₀ hs
    cases (h₀.kind sem).symm.trans hs
  · intro a lab a' hr h hs
    exact h.step (.reach hL hr) hs

end Steps

/-! ## Correctness -/

/-- **A semaphore does what it is for**: the count never goes below zero and balances, nobody waits
while there is a unit to spare, and waiters are served in the order of arrival. -/
structure SemaphoreCorrect (P : Program U G A E) (sem : Addr) (m : Mach U G) : Prop where
  count : m.st.count sem = m.vs sem - m.ps sem
  nonneg : 0 ≤ m.st.count sem
  /-- a thread inside P can go on, so in particular the assertion of P holds -/
  goesOn : ∀ slept u, m.cpu = .semP slept sem u → ∃ m', m.step P .turn = .ok m'
  /-- nobody is left asleep on an available unit -/
  idle : (∀ slept u, m.cpu ≠ .semP slept sem u) → m.st.waitingIds sem ≠ [] → m.st.count sem = 0
  /-- those who went to sleep in P: the ones whose P has returned, the one that has been woken, the
  ones that wait, in the order in which they went to sleep -/
  fifo : m.blocked sem = m.served sem ++ m.granted sem .semaphore ++ m.st.waitingIds sem

section Correct

variable {P : Program U G A E} {main idle : U → Prop} {sem : Addr} {m : Mach U G} {a : AMach U G}

/-- A turn of P does not fail: behind the loop the counter is positive, so the assertion there
holds. -/
theorem Sim.semP_goesOn (h : Sim P False m a) (hk : m.st.kind sem = some .semaphore)
    (hc : 0 ≤ m.st.count sem) {slept : Bool} {u : U} (hcpu : m.cpu = .semP slept sem u) :
    ∃ m', m.step P .turn = .ok m' := by
  obtain ⟨i, hi⟩ := h.running_of_cpu (by simp [hcpu])
  obtain ⟨link, c⟩ := h.repr.core
  have hp : sem ∈ a.sched.prims := (c.prims sem).mpr (by simp [hk])
  obtain ⟨r, hr⟩ : ∃ r, m.st.threadSemaphorePTurn sem = .ok r := by
    unfold State.threadSemaphorePTurn
    rw [show m.st.checkKind .semaphore sem = .ok () by simp [State.checkKind, hk]]
    by_cases h0 : m.st.count sem = 0
    · obtain ⟨⟨s', tr⟩, hs⟩ : ∃ r, m.st.threadSleep sem = .ok r := by
        rcases hr : a.sched.ready with _ | ⟨j, tl⟩
        · exact ⟨_, (h.repr.threadSleep_none hi hr).1⟩
        · obtain ⟨s', ti, tj, _, hs, _⟩ := h.repr.threadSleep_ready hi hp hr
          exact ⟨_, hs⟩
      exact ⟨(s', .again tr), by simp [h0, hs]; rfl⟩
    · have hpos : 0 < m.st.count sem := by omega
      exact ⟨_, by simp [h0, hpos, check]; rfl⟩
  simp only [Mach.step, Mach.turn, hcpu, hr]
  exact ⟨_, rfl⟩

/-- **Semaphores are correct.** In every run of a program whose thread 0 only sets up and which uses
the semaphore only through P and V: the count is the number of Vs less that of the Ps that have
returned and is not negative, nobody is left asleep on a unit, and those who sleep are served in
order. -/
theorem semaphore_correct (hP : P.Handover main idle) (hL : P.Leaves (.semaphore sem))
    (hm : Reach (P.runs.guard (ResumesReady P)) m) (hk : m.st.kind sem = some .semaphore) :
    SemaphoreCorrect P sem m := by
  obtain ⟨a, ha, h⟩ := hP.reach hm
  have hw := Waiters.reach hL ha
  have hka : a.kind sem = some .semaphore := h.kind ▸ hk
  obtain ⟨link, c⟩ := h.repr.core
  have hp : sem ∈ a.sched.prims := (c.prims sem).mpr (by simp [hk])
  have hnonneg : 0 ≤ m.st.count sem := by
    rw [h.count]
    exact (hw.loop sem .semaphore hka ⟨rfl, rfl⟩).range.1
  refine ⟨?_, hnonneg, fun slept u => h.semP_goesOn hk hnonneg, ?_, ?_⟩
  · rw [h.count, h.vs, h.ps]
    exact Conserves.reach hL ha hka
  · intro hcpu hne
    have hgr : m.granted sem .semaphore = [] := by
      refine if_neg fun he => ?_
      revert he hcpu
      cases m.cpu with
      | acquire b l u => cases b <;> simp [Frame.waitsOn]
      | semP b p u => cases b <;> simp [Frame.waitsOn]
      | _ => simp [Frame.waitsOn]
    rw [h.repr.waitingIds hp] at hne
    have hle := (hw.loop sem .semaphore hka ⟨rfl, rfl⟩).units hne
    rw [← h.granted, hgr] at hle
    rw [h.count] at hnonneg ⊢
    exact le_antisymm hle hnonneg
  · rw [h.blocked, h.served, h.granted, h.repr.waitingIds hp]
    exact (hw.loop sem .semaphore hka ⟨rfl, rfl⟩).fifo

/-- Two threads ask for a unit, the third one adds it. -/
def Script.permit : Script :=
  .call .semCreate <|
  .call (.create (.call (.semP 5) .done)) <|
  .call (.create (.call (.semP 5) .done)) <|
  .call (.create (.call (.semV 5) .done)) <|
  .call (.resume 1) .done

/-- Thread 1 has got the unit, thread 2 still waits: one V and one P have happened. -/
theorem semaphore_correct_permit : ∃ m : Mach Task Unit,
    (m.st.coCurrentId = 1 ∧ m.vs 5 = 1 ∧ m.ps 5 = 1 ∧ m.st.waitingIds 5 = [2]) ∧
      SemaphoreCorrect (Task.program false Script.permit) 5 m := by
  obtain ⟨m, hm, hk, hq⟩ := Mach.exists_of_reaches
    (T := (Task.program false Script.permit).runs.guard (ResumesReady _))
    (ResumesReady (Task.program false Script.permit))
    (fun _ _ _ hok hs => ⟨hok, hs⟩) (.init Task.boot_init)
    [.go 5, .go 1, .go 2, .go 3, .go 0, .go 0, .turn, .go 0, .turn, .go 0, .turn]
    (fun m => m.st.kind 5 = some .semaphore ∧
      m.st.coCurrentId = 1 ∧ m.vs 5 = 1 ∧ m.ps 5 = 1 ∧ m.st.waitingIds 5 = [2]) (by decide)
  have hmain : Script.permit.HandsOver := ⟨trivial, trivial, trivial, trivial, rfl⟩
  exact ⟨m, hq, semaphore_correct (Task.handover hmain) (Task.leaves _) hm hk⟩

end Correct

end GreenLib
