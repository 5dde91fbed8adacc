import Mathlib.Algebra.Group.Int.Defs
import Mathlib.Algebra.Group.Nat.Defs
import Mathlib.Tactic.Common

/-!
# C integers and the ways a run can go wrong

`int` arithmetic is carried out on `Int`; a value that leaves the range of the 32-bit `int` type is
undefined behaviour in C and ends the run with `Fault.overflow`.
-/

namespace PeerStreamer

/-- What ends a run without a result. -/
inductive Fault where
  /-- A signed `int` expression leaves its range. -/
  | overflow
  /-- The code calls `exit` with this status. -/
  | exit (status : Int)
  /-- An access outside the bounds of its array, or through a pointer that is NULL. -/
  | outOfBounds
  /-- A loop is still running when its iteration budget is used up. -/
  | outOfFuel
  deriving DecidableEq, Repr

/-- A sequence that returns. -/
theorem bind_eq_ok.{u} {α β : Type u} {x : Except Fault α} {f : α → Except Fault β} {r : β} :
    x >>= f = .ok r ↔ ∃ a, x = .ok a ∧ f a = .ok r := by
  cases x <;> simp [bind, Except.bind]

/-- A sequence that fails. -/
theorem bind_eq_error.{u} {α β : Type u} {x : Except Fault α} {f : α → Except Fault β} {e : Fault} :
    x >>= f = .error e ↔ x = .error e ∨ ∃ a, x = .ok a ∧ f a = .error e := by
  cases x <;> simp [bind, Except.bind]

/-- A result that passes a test. -/
theorem eq_ok_of_any {α : Type} {x : Except Fault α} {p : α → Bool} (h : x.toOption.any p = true) :
    ∃ a, x = .ok a ∧ p a = true := by
  cases x with
  | error e => cases h
  | ok a => exact ⟨a, rfl, h⟩

def INT_MAX : Int := 2147483647

def INT_MIN : Int := -2147483648

/-- The value of a signed 32-bit expression. -/
def int (x : Int) : Except Fault Int :=
  if INT_MIN ≤ x ∧ x ≤ INT_MAX then .ok x else .error .overflow

theorem int_ok {x : Int} (h0 : INT_MIN ≤ x) (h1 : x ≤ INT_MAX) : int x = .ok x :=
  if_pos ⟨h0, h1⟩

theorem eq_of_int_ok {x y : Int} (h : int x = .ok y) : y = x := by
  unfold int at h
  split_ifs at h
  exact (Except.ok.inj h).symm

/-- In range for the non-negative values the code works with. -/
theorem int_nonneg {x : Int} (h0 : 0 ≤ x) (h1 : x ≤ INT_MAX) : int x = .ok x :=
  int_ok (by unfold INT_MIN; omega) h1

/-- Conversion to `size_t`, which has 64 bits. -/
def sizeT (x : Int) : Int := x % 2 ^ 64

/-- Conversion to `uint32_t`. -/
def uint32 (x : Int) : ℕ := (x % 2 ^ 32).toNat

/-- Conversion to `int`, in two's complement. -/
def toInt (x : Int) : Int := x.bmod (2 ^ 32)

theorem sizeT_of_nonneg {x : Int} (h0 : 0 ≤ x) (h1 : x < 2 ^ 64) : sizeT x = x :=
  Int.emod_eq_of_lt h0 h1

theorem uint32_natCast {n : ℕ} (h : n < 2 ^ 32) : uint32 n = n := by
  unfold uint32
  omega

theorem toInt_of_nonneg {x : Int} (h0 : 0 ≤ x) (h1 : x ≤ INT_MAX) : toInt x = x := by
  unfold INT_MAX at h1
  exact Int.bmod_eq_of_le (by omega) (by omega)

/-- Conversion to `int64_t`, in two's complement. -/
def toInt64 (x : Int) : Int := x.bmod (2 ^ 64)

/-- The conversion of a value that is not negative is not negative if its low 32 bits are a
non-negative `int`. -/
theorem toInt_nonneg_iff (x : Int) : 0 ≤ toInt x ↔ x % 2 ^ 32 < 2 ^ 31 := by
  unfold toInt
  rw [Int.bmod_def]
  split
  · omega
  · omega

theorem toInt_eq_iff {x y : Int} (h0 : 0 ≤ y) (h1 : y ≤ INT_MAX) :
    toInt x = y ↔ x % 2 ^ 32 = y := by
  unfold INT_MAX at h1
  unfold toInt
  rw [Int.bmod_def]
  split
  · omega
  · omega

theorem toInt_add_two_pow (x : Int) : toInt (x + 2 ^ 32) = toInt x :=
  Int.add_bmod_right ..

end PeerStreamer
