import Mathlib.Logic.Basic
import Mathlib.Order.Basic

/-!
# Runs of a transition system

A system is a set of initial states and a labelled step relation. `Reach` are the
states of its runs. The two rules every later safety proof uses are

* `Reach.invariant`: what holds initially and is kept by each step from a reachable
  state holds in every reachable state;
* `Simulation.reach`: when each concrete step is matched by an abstract step or by
  none, every reachable state is related to a reachable abstract state.

`Lts.guard` restricts a system to the runs whose steps all meet a condition on the
state before the step. `Path` is a part of a run with its steps, for what is said about the steps
themselves; `Path.countP_le` bounds their number by a rank.
-/

namespace GreenLib

universe u v w x

/-- A labelled transition system: initial states and labelled steps. The labels carry the choices
that the code does not make itself, such as the answers of the allocator. -/
structure Lts (σ : Type u) (Λ : Type v) : Type (max u v) where
  /-- the states a run may begin with -/
  init : σ → Prop
  /-- the steps -/
  step : σ → Λ → σ → Prop

/-- The states that the runs of a system visit. Safety properties are stated for all of them. -/
inductive Reach {σ : Type u} {Λ : Type v} (T : Lts σ Λ) : σ → Prop where
  | init {s : σ} (h : T.init s) : Reach T s
  | step {s s' : σ} {l : Λ} (hr : Reach T s) (h : T.step s l s') : Reach T s'

/-- The runs of `T` in which every step meets the condition `ok`. This is how a discipline of the
callers is assumed without changing the system. -/
def Lts.guard {σ : Type u} {Λ : Type v} (T : Lts σ Λ) (ok : σ → Λ → Prop) : Lts σ Λ where
  init := T.init
  step s l s' := ok s l ∧ T.step s l s'

section Rules

variable {σ : Type u} {Λ : Type v} {T : Lts σ Λ}

/-- **Invariant rule.** What holds initially and is kept by every step holds in every reachable
state. The step premise may use that the state is reachable, so invariants can build on each
other. -/
theorem Reach.invariant {P : σ → Prop} (h₀ : ∀ s, T.init s → P s)
    (h₁ : ∀ s l s', Reach T s → P s → T.step s l s' → P s') {s : σ} (hs : Reach T s) : P s := by
  induction hs with
  | init h => exact h₀ _ h
  | step hr h ih => exact h₁ _ _ _ hr ih h

/-- A system with fewer initial states and steps reaches fewer states. The step premise is needed at
reachable states only. -/
theorem Reach.mono {S : Lts σ Λ} (h₀ : ∀ s, S.init s → T.init s)
    (h₁ : ∀ s l s', Reach S s → S.step s l s' → T.step s l s') {s : σ} (hs : Reach S s) :
    Reach T s := by
  induction hs with
  | init h => exact .init (h₀ _ h)
  | step hr h ih => exact .step ih (h₁ _ _ _ hr h)

/-- A guarded run is a run, so everything shown about all runs is available under a discipline. -/
theorem Reach.of_guard {ok : σ → Λ → Prop} {s : σ} (hs : Reach (T.guard ok) s) : Reach T s := by
  refine Reach.mono (S := T.guard ok) (T := T) (fun _ h => h) ?_ hs
  intro s l s' _ h
  exact h.2

/-- A run is guarded by whatever its steps meet. Together with `Reach.of_guard` this moves a proved
fact about steps into the guard. -/
theorem Reach.guard {ok : σ → Λ → Prop} {s : σ} (hs : Reach T s)
    (hok : ∀ s l s', Reach T s → T.step s l s' → ok s l) : Reach (T.guard ok) s := by
  refine Reach.mono (S := T) (T := T.guard ok) (fun _ h => h) ?_ hs
  intro s l s' hr h
  exact ⟨hok s l s' hr h, h⟩

theorem Reach.reguard {ok ok' : σ → Λ → Prop} {s : σ} (hs : Reach (T.guard ok) s)
    (hok : ∀ s l, Reach (T.guard ok) s → ok s l → ok' s l) : Reach (T.guard ok') s := by
  refine Reach.mono (S := T.guard ok) (T := T.guard ok') (fun _ h => h) ?_ hs
  intro s l s' hr h
  exact ⟨hok s l hr h.1, h.2⟩

/-- What an executable step computes one label after the other is a run. Concrete runs are evaluated
through it. -/
theorem Reach.foldlM {ε : Type w} {f : σ → Λ → Except ε σ}
    (hf : ∀ s l s', f s l = .ok s' → T.step s l s') {ls : List Λ} {s s' : σ} (hs : Reach T s)
    (he : ls.foldlM f s = .ok s') : Reach T s' := by
  induction ls generalizing s with
  | nil => exact Except.ok.inj he ▸ hs
  | cons l ls ih =>
    rw [List.foldlM_cons] at he
    rcases hl : f s l with e | s₁
    · rw [hl] at he
      cases he
    · rw [hl] at he
      exact ih (.step hs (hf _ _ _ hl)) he

/-- Executing the labels `ls` finds a reachable state that satisfies `Q`. The premise is a closed
Boolean, so that a concrete run is a single evaluation. -/
theorem Reach.exists_of_exec {ε : Type w} (f : σ → Λ → Except ε σ)
    (hf : ∀ s l s', f s l = .ok s' → T.step s l s') {s : σ} (hs : Reach T s) (ls : List Λ)
    (Q : σ → Prop) [DecidablePred Q]
    (hq : (match ls.foldlM f s with
      | .ok s' => decide (Q s')
      | .error _ => false) = true) : ∃ s', Reach T s' ∧ Q s' := by
  split at hq
  · rename_i s' he
    exact ⟨s', hs.foldlM hf he, of_decide_eq_true hq⟩
  · cases hq

/-- The steps of a run from `s`, each with the state before and the state behind it. -/
inductive Path (T : Lts σ Λ) (s : σ) : List (σ × Λ × σ) → σ → Prop where
  | nil : Path T s [] s
  | snoc {s₁ s₂ : σ} {l : Λ} {ls : List (σ × Λ × σ)} (hp : Path T s ls s₁) (h : T.step s₁ l s₂) :
    Path T s (ls ++ [(s₁, l, s₂)]) s₂

theorem Reach.path {s s' : σ} {ls : List (σ × Λ × σ)} (hs : Reach T s) (h : Path T s ls s') :
    Reach T s' := by
  induction h with
  | nil => exact hs
  | snoc _ hstep ih => exact .step ih hstep

/-- Every state of a run has steps that lead to it, from an initial state. -/
theorem Reach.exists_path {s : σ} (hs : Reach T s) : ∃ s₀ ls, T.init s₀ ∧ Path T s₀ ls s := by
  induction hs with
  | @init s h => exact ⟨s, [], h, .nil⟩
  | step _ h ih =>
    obtain ⟨s₀, ls, h₀, hp⟩ := ih
    exact ⟨s₀, _, h₀, .snoc hp h⟩

/-- **Ranking rule.** If every step that counts lowers the rank and no step raises it, then a run
from a state of rank `r` has at most `r` steps that count. -/
theorem Path.countP_le {R : ℕ → σ → Prop} (counts : Λ → Bool)
    (hlower : ∀ r s l s', R r s → T.step s l s' → counts l = true → ∃ r' < r, R r' s')
    (hkeep : ∀ r s l s', R r s → T.step s l s' → counts l = false → R r s')
    {r : ℕ} {s s' : σ} {ls : List (σ × Λ × σ)} (hs : R r s) (hp : Path T s ls s') :
    ∃ r', R r' s' ∧ ls.countP (fun x => counts x.2.1) + r' ≤ r := by
  induction hp with
  | nil => exact ⟨r, hs, by simp⟩
  | @snoc s₁ s₂ l ls _ hstep ih =>
    obtain ⟨r₁, hr₁, hle⟩ := ih
    rw [List.countP_append]
    cases hl : counts l with
    | true =>
      obtain ⟨r₂, hlt, hr₂⟩ := hlower r₁ s₁ l s₂ hr₁ hstep hl
      exact ⟨r₂, hr₂, by simp only [List.countP_singleton, hl, if_true]; omega⟩
    | false =>
      exact ⟨r₁, hkeep r₁ s₁ l s₂ hr₁ hstep hl, by simpa [List.countP_singleton, hl] using hle⟩

end Rules

/-! ## Simulation -/

/-- `R` relates each concrete state to an abstract one that can follow it: an
abstract step, or none, for each concrete step. -/
structure Simulation {σ : Type u} {Λ : Type v} {τ : Type w} {Μ : Type x}
    (T : Lts σ Λ) (A : Lts τ Μ) (R : σ → τ → Prop) : Prop where
  init : ∀ s, T.init s → ∃ a, A.init a ∧ R s a
  step : ∀ s l s' a, Reach A a → R s a → T.step s l s' →
    ∃ a', R s' a' ∧ (a' = a ∨ ∃ k, A.step a k a')

/-- **Simulation rule.** Every reachable concrete state is related to a reachable abstract one, so
an invariant of the abstract system can be read off the concrete states. -/
theorem Simulation.reach {σ : Type u} {Λ : Type v} {τ : Type w} {Μ : Type x}
    {T : Lts σ Λ} {A : Lts τ Μ} {R : σ → τ → Prop} (h : Simulation T A R) {s : σ}
    (hs : Reach T s) : ∃ a, Reach A a ∧ R s a := by
  induction hs with
  | init h₀ =>
    obtain ⟨a, ha, hR⟩ := h.init _ h₀
    exact ⟨a, .init ha, hR⟩
  | step _ h₁ ih =>
    obtain ⟨a, ha, hR⟩ := ih
    obtain ⟨a', hR', rfl | ⟨k, hk⟩⟩ := h.step _ _ _ _ ha hR h₁
    · exact ⟨_, ha, hR'⟩
    · exact ⟨a', .step ha hk, hR'⟩

end GreenLib
