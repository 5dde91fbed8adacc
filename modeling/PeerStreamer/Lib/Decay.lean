import Mathlib.Algebra.Order.Field.Basic
import Mathlib.Tactic.Linarith
import Mathlib.Tactic.Ring
import PeerStreamer.Lib.Run

/-!
# A quantity that is cut down

Some inputs of a program cut a quantity down to a share `m` of what it is, unless it falls below a
level; the others raise it by what they bring.  What was there at the start, and all that was
brought, is then cut down by every cut that follows (`run_le`).

So if not more than `R` is brought between two cuts, the quantity stays below the level and what is
left of the start, but for `R / (1 - m)` (`run_le_of_between`).
-/

namespace Decay

variable {σ ι ε ο K : Type*} [Field K] [LinearOrder K] [IsStrictOrderedRing K]
  {m level R : K} {cut : ι → Bool} {gain : ι → K} {is : List ι}

/-- What is left of all that the inputs have brought. -/
def left (m : K) (cut : ι → Bool) (gain : ι → K) (is : List ι) : K :=
  is.foldl (fun x i => if cut i then m * x else x + gain i) 0

omit [LinearOrder K] [IsStrictOrderedRing K] in
@[simp] theorem left_nil : left m cut gain [] = 0 := rfl

omit [LinearOrder K] [IsStrictOrderedRing K] in
theorem left_snoc (i : ι) : left m cut gain (is ++ [i]) =
    if cut i then m * left m cut gain is else left m cut gain is + gain i := by
  rw [left, List.foldl_append]
  rfl

omit [LinearOrder K] [IsStrictOrderedRing K] in
/-- Where every gain is one. -/
theorem sum_units (p : ι → Bool) (is : List ι) :
    (is.map fun i => if p i then (1 : K) else 0).sum = is.countP p := by
  induction is with
  | nil => simp
  | cons i is ih =>
    rw [List.map_cons, List.sum_cons, ih, List.countP_cons]
    split_ifs <;> push_cast <;> ring

theorem left_nonneg (h0 : 0 ≤ m) (hgain : ∀ i, 0 ≤ gain i) : 0 ≤ left m cut gain is := by
  induction is using List.reverseRecOn with
  | nil => exact le_rfl
  | append_singleton is i ih =>
    rw [left_snoc]
    split_ifs
    · exact mul_nonneg h0 ih
    · exact add_nonneg ih (hgain i)

/-- What is left is mostly what came after the last cut, and less than `R` a cut before. -/
theorem left_le (h0 : 0 ≤ m) (h1 : m ≤ 1)
    (hR : ∀ seg, seg <:+: is → (∀ i ∈ seg, cut i = false) → (seg.map gain).sum ≤ R) :
    ∃ seg, seg <:+ is ∧ (∀ i ∈ seg, cut i = false) ∧
      (1 - m) * left m cut gain is ≤ m * R + (1 - m) * (seg.map gain).sum := by
  have hshare : 0 ≤ 1 - m := sub_nonneg.2 h1
  have hR0 : 0 ≤ R := hR [] (List.nil_infix) (by simp)
  induction is using List.reverseRecOn with
  | nil => exact ⟨[], List.suffix_rfl, by simp, by simpa using mul_nonneg h0 hR0⟩
  | append_singleton is i ih =>
    have hprefix : is <+: is ++ [i] := List.prefix_append ..
    obtain ⟨seg, hseg, hnone, hle⟩ := ih fun seg hseg => hR seg (hseg.trans hprefix.isInfix)
    rw [left_snoc]
    cases hi : cut i with
    | true =>
      refine ⟨[], List.nil_suffix, by simp, ?_⟩
      have hsum := hR seg (hseg.isInfix.trans hprefix.isInfix) hnone
      calc (1 - m) * (m * left m cut gain is)
          = m * ((1 - m) * left m cut gain is) := by ring
        _ ≤ m * (m * R + (1 - m) * R) := by
          have hbrought := mul_le_mul_of_nonneg_left hsum hshare
          exact mul_le_mul_of_nonneg_left (hle.trans (by linarith)) h0
        _ = m * R + (1 - m) * (([] : List ι).map gain).sum := by
          rw [List.map_nil, List.sum_nil]
          ring
    | false =>
      refine ⟨seg ++ [i], ?_, ?_, ?_⟩
      · obtain ⟨pre, rfl⟩ := hseg
        exact ⟨pre, (List.append_assoc ..).symm⟩
      · intro j hj
        rcases List.mem_append.1 hj with hj | hj
        · exact hnone j hj
        · rwa [List.mem_singleton.1 hj]
      · rw [List.map_append, List.sum_append, List.map_singleton, List.sum_singleton, mul_add,
          if_neg Bool.false_ne_true, mul_add]
        linarith

variable {step : ι → σ → Except ε (σ × List ο)} {P : σ → ι → Prop} {φ : σ → K} {s s' : σ}
  {out : List ο}

/-- The quantity is cut down by the cuts, if it is not below the level, and raised by the rest. -/
structure Cut (step : ι → σ → Except ε (σ × List ο)) (P : σ → ι → Prop) (φ : σ → K) (m level : K)
    (cut : ι → Bool) (gain : ι → K) : Prop where
  nonneg : 0 ≤ m
  le_one : m ≤ 1
  level_nonneg : 0 ≤ level
  gain_nonneg : ∀ i, 0 ≤ gain i
  cuts : ∀ s i s' out, P s i → cut i = true → step i s = .ok (s', out) →
    φ s' ≤ max level (m * φ s)
  raises : ∀ s i s' out, P s i → cut i = false → step i s = .ok (s', out) → φ s' ≤ φ s + gain i

variable (hcut : Cut step P φ m level cut gain)

include hcut

/-- Along a run all that was there and was brought is cut down. -/
theorem run_le (halong : Run.Along step P is s) (h : Run.run step is s = .ok (s', out)) :
    φ s' ≤ max level (m ^ is.countP (cut ·) * φ s) + left m cut gain is := by
  refine Run.invariant (fun is s' _ =>
    φ s' ≤ max level (m ^ is.countP (cut ·) * φ s) + left m cut gain is) ?_ ?_ halong h
  · simp
  · intro pre i s₁ out₁ s₂ more hle hP hstep
    rw [left_snoc, List.countP_append, List.countP_singleton]
    cases hi : cut i with
    | true =>
      have hmax : m * max level (m ^ pre.countP (cut ·) * φ s) ≤
          max level (m ^ (pre.countP (cut ·) + 1) * φ s) := by
        rw [mul_max_of_nonneg _ _ hcut.nonneg]
        apply max_le_max
        · exact mul_le_of_le_one_left hcut.level_nonneg hcut.le_one
        · rw [pow_succ']
          exact (mul_assoc ..).ge
      have hshare := mul_le_mul_of_nonneg_left hle hcut.nonneg
      have hleft : 0 ≤ m * left m cut gain pre :=
        mul_nonneg hcut.nonneg (left_nonneg hcut.nonneg hcut.gain_nonneg)
      simp only [if_true]
      apply (hcut.cuts s₁ i s₂ more hP hi hstep).trans
      apply max_le
      · exact (le_max_left ..).trans (le_add_of_nonneg_right hleft)
      · rw [mul_add] at hshare
        linarith
    | false =>
      have hnow := hcut.raises s₁ i s₂ more hP hi hstep
      simp only [Bool.false_eq_true, if_false, add_zero]
      linarith

/-- When at most `R` is brought between two cuts. -/
theorem run_le_of_between (halong : Run.Along step P is s)
    (hR : ∀ seg, seg <:+: is → (∀ i ∈ seg, cut i = false) → (seg.map gain).sum ≤ R)
    (h : Run.run step is s = .ok (s', out)) :
    (1 - m) * φ s' ≤ (1 - m) * max level (m ^ is.countP (cut ·) * φ s) + R := by
  have hshare : 0 ≤ 1 - m := sub_nonneg.2 hcut.le_one
  have hrun := mul_le_mul_of_nonneg_left (run_le hcut halong h) hshare
  obtain ⟨seg, hseg, hnone, hleft⟩ := left_le hcut.nonneg hcut.le_one hR
  have hbrought := mul_le_mul_of_nonneg_left (hR seg hseg.isInfix hnone) hshare
  rw [mul_add] at hrun
  linarith

end Decay
