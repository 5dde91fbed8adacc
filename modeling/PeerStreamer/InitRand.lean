import Mathlib.Algebra.BigOperators.Group.List.Basic
import Mathlib.Algebra.GroupWithZero.Divisibility
import Mathlib.Algebra.Order.Ring.Int
import Mathlib.Algebra.Ring.Int.Parity
import PeerStreamer.Lib.CString
import PeerStreamer.Lib.Timeval

/-!
# The seed of the random numbers (`init_rand` of `streamer.c`)

The seed is the product of the time and of the character codes of the node's address, of which
`srand` takes the low half.  Every even code shifts the time to the left: the powers of two in the
codes add up, and with 32 of them nothing of the time is left.
-/

namespace PeerStreamer

open CString

/-! ## The code -/

/-- The value of a `char`. -/
def charCode (c : UInt8) : Int64 := c.toInt8.toInt64

/-- The loop, with `x` as it is before the character. -/
def addressProduct (x : Int64) (s : List UInt8) : Int64 := s.foldl (fun x c => x * charCode c) x

/-- What `srand` is called with, an `unsigned int`. -/
def initRand (s : List UInt8) (t : Timeval) : UInt32 :=
  .ofInt (Int64.ofInt t.usec * Int64.ofInt t.sec * addressProduct 1 s).toInt

/-- The characters of a node address. -/
def addressChars : List UInt8 := bytes "0123456789.:"

/-- The power of two in a character code. -/
def twos (c : UInt8) : ℕ := (List.range 8).countP fun k => c.toNat % 2 ^ (k + 1) = 0

/-! ## The seed modulo 2^32 -/

variable {s : List UInt8} {c : UInt8} {t : Timeval}

theorem addressProduct_ofInt (n : Int) (s : List UInt8) :
    addressProduct (.ofInt n) s = .ofInt (n * (s.map fun c => c.toInt8.toInt).prod) := by
  induction s generalizing n with
  | nil => simp [addressProduct]
  | cons c s ih =>
    have hstep : Int64.ofInt n * charCode c = Int64.ofInt (n * c.toInt8.toInt) := by
      rw [Int64.ofInt_mul]
      rfl
    rw [List.map_cons, List.prod_cons, ← mul_assoc, ← ih, ← hstep]
    rfl

/-- A `long` that wrapped around has the low half of the number itself. -/
theorem ofInt_toInt (n : Int) : UInt32.ofInt (Int64.ofInt n).toInt = UInt32.ofInt n := by
  have hmod : n.bmod Int64.size % 2 ^ 32 = n % 2 ^ 32 := by
    have hdvd : (2 ^ 32 : Int) ∣ Int64.size := by decide
    rw [← Int.emod_emod_of_dvd _ hdvd, Int.bmod_emod, Int.emod_emod_of_dvd _ hdvd]
  rw [Int64.toInt_ofInt, UInt32.ofInt, hmod]
  rfl

theorem ofInt_eq_zero {n : Int} : UInt32.ofInt n = 0 ↔ (2 : Int) ^ 32 ∣ n := by
  have hpos := Int.emod_nonneg n (show (2 : Int) ^ 32 ≠ 0 by decide)
  have hlt := Int.emod_lt_of_pos n (show (0 : Int) < 2 ^ 32 by decide)
  rw [UInt32.ofInt, ← UInt32.toNat_inj, UInt32.toNat_ofNat', Int.dvd_iff_emod_eq_zero]
  have hzero : (0 : UInt32).toNat = 0 := rfl
  omega

theorem initRand_eq (s : List UInt8) (t : Timeval) :
    initRand s t = .ofInt (t.usec * t.sec * (s.map fun c => c.toInt8.toInt).prod) := by
  have hprod := addressProduct_ofInt 1 s
  rw [one_mul] at hprod
  rw [← ofInt_toInt, Int64.ofInt_mul, Int64.ofInt_mul, ← hprod]
  rfl

/-! ## The powers of two -/

/-- The codes are an odd number times the powers of two in them. -/
theorem exists_prod_eq (h : ∀ c ∈ s, c ∈ addressChars) :
    ∃ m : Int, Odd m ∧
      (s.map fun c => c.toInt8.toInt).prod = 2 ^ (s.map twos).sum * m := by
  induction s with
  | nil => exact ⟨1, odd_one, rfl⟩
  | cons c s ih =>
    have hchar : ∀ c ∈ addressChars,
        c.toInt8.toInt / 2 ^ twos c % 2 = 1 ∧ 2 ^ twos c * (c.toInt8.toInt / 2 ^ twos c) =
          c.toInt8.toInt := by decide +kernel
    obtain ⟨hodd, hcode⟩ := hchar c (h c (List.mem_cons_self ..))
    obtain ⟨m, hm, hprod⟩ := ih fun c hc => h c (List.mem_cons_of_mem _ hc)
    refine ⟨c.toInt8.toInt / 2 ^ twos c * m, (Int.odd_iff.2 hodd).mul hm, ?_⟩
    calc ((c :: s).map fun c => c.toInt8.toInt).prod
        = c.toInt8.toInt * (2 ^ (s.map twos).sum * m) := by
          rw [List.map_cons, List.prod_cons, hprod]
      _ = 2 ^ twos c * (c.toInt8.toInt / 2 ^ twos c) * (2 ^ (s.map twos).sum * m) := by
          rw [hcode]
      _ = 2 ^ ((c :: s).map twos).sum * (c.toInt8.toInt / 2 ^ twos c * m) := by
          rw [List.map_cons, List.sum_cons, pow_add, mul_mul_mul_comm]

/-- With 32 powers of two in the address the seed is 0. -/
theorem initRand_eq_zero (h : ∀ c ∈ s, c ∈ addressChars) (htwos : 32 ≤ (s.map twos).sum)
    (t : Timeval) : initRand s t = 0 := by
  obtain ⟨m, -, hprod⟩ := exists_prod_eq h
  have hdvd : (2 : Int) ^ 32 ∣ 2 ^ (s.map twos).sum := pow_dvd_pow 2 htwos
  rw [initRand_eq, ofInt_eq_zero, hprod]
  exact ((hdvd.mul_right m).mul_left _)

/-- With fewer powers of two the time of one second and one microsecond is not lost. -/
theorem initRand_ne_zero (h : ∀ c ∈ s, c ∈ addressChars) (htwos : (s.map twos).sum < 32) :
    initRand s (.ofUsec 1000001) ≠ 0 := by
  obtain ⟨m, hm, hprod⟩ := exists_prod_eq h
  rw [initRand_eq, Ne, ofInt_eq_zero, hprod]
  intro hdvd
  have hsplit : (2 : Int) ^ 32 = 2 ^ (s.map twos).sum * 2 ^ (32 - (s.map twos).sum) := by
    rw [← pow_add, Nat.add_sub_cancel' (Nat.le_of_lt htwos)]
  have htime : (Timeval.ofUsec 1000001).usec * (Timeval.ofUsec 1000001).sec = 1 := by decide
  rw [htime, one_mul, hsplit, mul_dvd_mul_iff_left (pow_ne_zero _ two_ne_zero)] at hdvd
  have htwo : (2 : Int) ∣ m := (dvd_pow_self 2 (Nat.sub_ne_zero_of_lt htwos)).trans hdvd
  exact Int.not_even_iff_odd.2 hm (even_iff_two_dvd.2 htwo)

/-- The seed depends on the time exactly for the addresses whose characters have fewer than 32
powers of two in their codes. -/
theorem seed_depends_on_time_iff (h : ∀ c ∈ s, c ∈ addressChars) :
    (∃ t t', initRand s t ≠ initRand s t') ↔ (s.map twos).sum < 32 := by
  constructor
  · rintro ⟨t, t', hne⟩
    by_contra hge
    have hge : 32 ≤ (s.map twos).sum := Nat.le_of_not_lt hge
    exact hne ((initRand_eq_zero h hge t).trans (initRand_eq_zero h hge t').symm)
  · intro hlt
    have hzero : initRand s (.ofUsec 0) = 0 := by
      rw [initRand_eq, ofInt_eq_zero]
      exact ⟨0, by simp [Timeval.ofUsec]⟩
    exact ⟨.ofUsec 1000001, .ofUsec 0, fun heq => initRand_ne_zero h hlt (heq.trans hzero)⟩

theorem seed_depends_on_time_iff_loopback :
    ∃ t t', initRand (bytes "127.0.0.1:6666") t ≠ initRand (bytes "127.0.0.1:6666") t' :=
  (seed_depends_on_time_iff (by decide +kernel)).2 (by decide +kernel)

/-- The seed of this node is 0 at every time. -/
theorem seed_constant_lan : ¬ ∃ t t',
    initRand (bytes "10.0.0.200:8000") t ≠ initRand (bytes "10.0.0.200:8000") t' := by
  rintro ⟨t, t', hne⟩
  have hchars : ∀ c ∈ bytes "10.0.0.200:8000", c ∈ addressChars := by decide +kernel
  have htwos : 32 ≤ ((bytes "10.0.0.200:8000").map twos).sum := by decide +kernel
  exact hne ((initRand_eq_zero hchars htwos t).trans (initRand_eq_zero hchars htwos t').symm)

end PeerStreamer
