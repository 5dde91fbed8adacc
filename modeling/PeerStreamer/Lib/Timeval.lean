import Mathlib.Data.Nat.Notation
import Mathlib.Tactic.Common

/-!
# Time values

The `struct timeval` of `sys/time.h` and its macros.  A value is a number of seconds and a number
of microseconds below one million; `toUsec` is the time in microseconds, and every operation is
determined by what it does there.
-/

/-- Seconds and microseconds. -/
structure Timeval where
  sec : Int
  usec : Int
  usec_nonneg : 0 ≤ usec
  usec_lt : usec < 1000000
  deriving DecidableEq, Repr

namespace Timeval

/-- The time in microseconds. -/
def toUsec (t : Timeval) : Int := t.sec * 1000000 + t.usec

/-- The time value of a number of microseconds. -/
def ofUsec (x : Int) : Timeval where
  sec := x / 1000000
  usec := x % 1000000
  usec_nonneg := Int.emod_nonneg x (by decide)
  usec_lt := Int.emod_lt_of_pos x (by decide)

@[simp] theorem toUsec_ofUsec (x : Int) : (ofUsec x).toUsec = x := by
  rw [toUsec, ofUsec, Int.mul_comm]
  exact Int.mul_ediv_add_emod ..

/-- `timeradd`. -/
def timeradd (a b : Timeval) : Timeval :=
  if h : 1000000 ≤ a.usec + b.usec then
    ⟨a.sec + b.sec + 1, a.usec + b.usec - 1000000, by omega,
      by have := a.usec_lt; have := b.usec_lt; omega⟩
  else
    ⟨a.sec + b.sec, a.usec + b.usec, by have := a.usec_nonneg; have := b.usec_nonneg; omega,
      by omega⟩

/-- `timersub`. -/
def timersub (a b : Timeval) : Timeval :=
  if h : a.usec - b.usec < 0 then
    ⟨a.sec - b.sec - 1, a.usec - b.usec + 1000000,
      by have := a.usec_nonneg; have := b.usec_lt; omega, by omega⟩
  else
    ⟨a.sec - b.sec, a.usec - b.usec, by omega,
      by have := a.usec_lt; have := b.usec_nonneg; omega⟩

/-- `timercmp`, for the comparison operator `R`. -/
def timercmp (a b : Timeval) (R : Int → Int → Prop) : Prop :=
  if a.sec = b.sec then R a.usec b.usec else R a.sec b.sec

instance (a b : Timeval) (R : Int → Int → Prop) [DecidableRel R] : Decidable (timercmp a b R) :=
  inferInstanceAs (Decidable (if a.sec = b.sec then R a.usec b.usec else R a.sec b.sec))

@[simp] theorem toUsec_timeradd (a b : Timeval) :
    (timeradd a b).toUsec = a.toUsec + b.toUsec := by
  unfold timeradd
  split <;> simp only [toUsec] <;> omega

@[simp] theorem toUsec_timersub (a b : Timeval) :
    (timersub a b).toUsec = a.toUsec - b.toUsec := by
  unfold timersub
  split <;> simp only [toUsec] <;> omega

@[simp] theorem timercmp_lt (a b : Timeval) :
    timercmp a b (· < ·) ↔ a.toUsec < b.toUsec := by
  have ha := a.usec_nonneg
  have ha' := a.usec_lt
  have hb := b.usec_nonneg
  have hb' := b.usec_lt
  unfold timercmp toUsec
  split <;> omega

@[simp] theorem timercmp_gt (a b : Timeval) :
    timercmp a b (· > ·) ↔ b.toUsec < a.toUsec := by
  rw [← timercmp_lt]
  unfold timercmp
  rw [if_congr eq_comm rfl rfl]

@[simp] theorem timercmp_ge (a b : Timeval) :
    timercmp a b (· ≥ ·) ↔ b.toUsec ≤ a.toUsec := by
  rw [← Int.not_lt, ← timercmp_lt]
  unfold timercmp
  split <;> exact Int.not_lt.symm

/-- `timerisset`. -/
def timerisset (t : Timeval) : Prop := t.sec ≠ 0 ∨ t.usec ≠ 0

instance (t : Timeval) : Decidable (timerisset t) := inferInstanceAs (Decidable (_ ∨ _))

end Timeval

/-- The successive readings of a clock. -/
structure Clock where
  read : ℕ → Timeval

/-- The clock is not set back. -/
def Clock.Forward (c : Clock) : Prop := ∀ m n, m ≤ n → (c.read m).toUsec ≤ (c.read n).toUsec
