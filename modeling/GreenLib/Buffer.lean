import Mathlib.Algebra.Order.Group.Int
import Mathlib.Logic.Function.Basic

/-!
# The bounded buffer

All three servers of `main.c` share one counter: `buffer`, the number of filled places, which
producers increment and consumers decrement, between 0 and `buffer_limit`. How a handler that
finds the buffer full or empty waits is what they differ in.
-/

namespace GreenLib

/-- The two kinds of handlers that work on the buffer, and of requests they handle. -/
inductive Role : Type where
  | producer
  | consumer
  deriving DecidableEq

/-- A handler wakes handlers of the other role, since its change makes room for theirs. -/
def Role.other : Role → Role
  | .producer => .consumer
  | .consumer => .producer

@[simp] theorem Role.other_other (role : Role) : role.other.other = role := by
  cases role <;> rfl

@[simp] theorem Role.other_ne (role : Role) : role.other ≠ role := by
  cases role <;> nofun

@[simp] theorem Role.ne_other (role : Role) : role ≠ role.other := role.other_ne.symm

theorem Role.eq_or_eq_other (role role' : Role) : role' = role ∨ role' = role.other := by
  cases role <;> cases role' <;> simp [Role.other]

/-- The globals `buffer` and `buffer_limit`. Nothing in their types keeps one below the other, so
this has to be proved. -/
structure Buffer : Type where
  level : ℤ
  limit : ℤ
  deriving DecidableEq

namespace Buffer

/-- The test in front of the buffer: `buffer == buffer_limit` for a producer, `buffer == 0` for a
consumer. -/
def blocked (b : Buffer) : Role → Bool
  | .producer => b.level == b.limit
  | .consumer => b.level == 0

/-- The assertion behind the test: `buffer < buffer_limit` or `buffer > 0`. It says more than the
test if the buffer is out of range. -/
def allowed (b : Buffer) : Role → Bool
  | .producer => decide (b.level < b.limit)
  | .consumer => decide (0 < b.level)

/-- `buffer ++` or `buffer --`, by a handler that has passed the assertion. -/
def change (b : Buffer) : Role → Buffer
  | .producer => { b with level := b.level + 1 }
  | .consumer => { b with level := b.level - 1 }

/-- `0 <= buffer <= buffer_limit`, which makes the equations of the tests as good as
inequalities. -/
structure InRange (b : Buffer) : Prop where
  nonneg : 0 ≤ b.level
  le : b.level ≤ b.limit

@[simp] theorem change_limit (b : Buffer) (role : Role) : (b.change role).limit = b.limit := by
  cases role <;> rfl

variable {b : Buffer} {role : Role}

/-- In a buffer in range the test decides the assertion: a role that is not blocked may change the
buffer. -/
theorem InRange.allowed (h : b.InRange) (hb : b.blocked role = false) : b.allowed role = true := by
  obtain ⟨h₀, h₁⟩ := h
  cases role <;> simp only [Buffer.blocked, Buffer.allowed, beq_eq_false_iff_ne, ne_eq,
    decide_eq_true_eq] at hb ⊢ <;> omega

/-- A change behind the assertion stays in range, whichever role makes it. -/
theorem InRange.change (h : b.InRange) (ha : b.allowed role = true) : (b.change role).InRange := by
  obtain ⟨h₀, h₁⟩ := h
  cases role <;> simp only [Buffer.allowed, decide_eq_true_eq] at ha <;>
    constructor <;> simp only [Buffer.change] <;> omega

/-! ## Places -/

/-- The number of changes a role may still make: the filled places for consumers, the free ones for
producers. -/
def places (b : Buffer) : Role → ℤ
  | .producer => b.limit - b.level
  | .consumer => b.level

theorem places_of_blocked (h : b.blocked role = true) : b.places role = 0 := by
  cases role <;> simp only [blocked, beq_iff_eq] at h <;> simp [places, h]

theorem places_of_allowed (h : b.allowed role = true) : 0 < b.places role := by
  cases role <;> simp only [allowed, decide_eq_true_eq] at h <;> simp only [places] <;> omega

theorem InRange.places_nonneg (h : b.InRange) (role : Role) : 0 ≤ b.places role := by
  obtain ⟨h₀, h₁⟩ := h
  cases role <;> simp only [places] <;> omega

@[simp] theorem places_change_self (b : Buffer) (role : Role) :
    (b.change role).places role = b.places role - 1 := by
  cases role <;> simp only [places, change]
  omega

@[simp] theorem places_change_other (b : Buffer) (role : Role) :
    (b.change role).places role.other = b.places role.other + 1 := by
  cases role <;> simp only [places, change, Role.other]
  omega

/-- The filled and the free places are all: what one role loses the other one gains. -/
theorem places_add (b : Buffer) (role : Role) : b.places role + b.places role.other = b.limit := by
  cases role <;> simp only [places, Role.other] <;> omega

end Buffer

/-! ## Safety -/

/-- **Safety of the buffer**, with the number of changes by each role: it is in range, its limit
never changes, and its level is what the changes add up to. -/
structure Buffer.Safe (b : Buffer) (limit : ℤ) (changes : Role → ℕ) : Prop where
  limit : b.limit = limit
  range : b.InRange
  balance : b.level = changes .producer - changes .consumer

namespace Buffer.Safe

variable {b : Buffer} {limit : ℤ} {changes : Role → ℕ} {role : Role}

/-- A change behind the assertion keeps it safe, and counts for the role that makes it. -/
theorem change (h : b.Safe limit changes) (ha : b.allowed role = true) :
    (b.change role).Safe limit (Function.update changes role (changes role + 1)) where
  limit := (b.change_limit role).trans h.limit
  range := h.range.change ha
  balance := by
    have hb := h.balance
    cases role <;> simp [Buffer.change, Function.update, hb] <;> omega

/-- Without places a role has made at least as many changes as the other one. -/
theorem changes_le (h : b.Safe limit changes) (hlimit : 0 ≤ limit) (hplaces : b.places role = 0) :
    changes role.other ≤ changes role := by
  have hbalance := h.balance
  have hsize := h.limit
  cases role <;> simp only [Buffer.places, Role.other] at hplaces ⊢ <;> omega

end Buffer.Safe

end GreenLib
