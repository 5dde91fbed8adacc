import Mathlib.Data.Int.ModEq
import Mathlib.Logic.Function.Basic
import Mathlib.Algebra.Order.Group.Unbundled.Abs
import Mathlib.Tactic.Common

/-!
# Rings indexed by a moving window of keys

A ring of `B` slots stores values under integer keys, the value with key `x` in slot `x % B`.
When all stored keys lie in a window of at most `B` consecutive integers the slot determines the
key, so looking into slot `x % B` decides whether key `x` is stored.  `Ring.Window` states that
window; the lemmas say how reading, storing and erasing act on it.
-/

namespace Ring

variable {α : Type*} {B lo hi : Int} {key : α → Int} {slots : Int → Option α}

/-- Two integers of one window of width at most `B` with equal residues are equal. -/
theorem eq_of_emod_eq (lo : Int) {x y : Int} (hx : lo ≤ x ∧ x < lo + B) (hy : lo ≤ y ∧ y < lo + B)
    (h : x % B = y % B) : x = y := by
  have hd : B ∣ x - y := Int.ModEq.dvd (Int.ModEq.symm h)
  have hlt : |x - y| < B := by rw [abs_lt]; omega
  have := Int.eq_zero_of_abs_lt_dvd hd hlt
  omega

/-- Every stored value sits in the slot of its key, and all keys lie in `[lo, hi)`. -/
structure Window (B lo hi : Int) (key : α → Int) (slots : Int → Option α) : Prop where
  slot : ∀ k c, slots k = some c → k = key c % B
  lower : ∀ k c, slots k = some c → lo ≤ key c
  upper : ∀ k c, slots k = some c → key c < hi

/-- The value `c` is in some slot. -/
def Stored (slots : Int → Option α) (c : α) : Prop := ∃ k, slots k = some c

theorem Window.empty (B lo hi : Int) (key : α → Int) : Window B lo hi key fun _ => none where
  slot _ _ h := by cases h
  lower _ _ h := by cases h
  upper _ _ h := by cases h

theorem not_stored_empty (c : α) : ¬ Stored (fun _ => none) c := by
  rintro ⟨k, h⟩
  cases h

theorem Window.stored_iff (w : Window B lo hi key slots) (c : α) :
    Stored slots c ↔ slots (key c % B) = some c := by
  constructor
  · rintro ⟨k, h⟩
    rwa [← w.slot k c h]
  · exact fun h => ⟨_, h⟩

/-- Inside one revolution the slot of `x` can only hold key `x`. -/
theorem Window.key_eq (w : Window B lo hi key slots) (hw : hi ≤ lo + B) {x : Int} {c : α}
    (hx : lo ≤ x ∧ x < lo + B) (h : slots (x % B) = some c) : key c = x := by
  refine eq_of_emod_eq lo ⟨w.lower _ _ h, ?_⟩ hx (w.slot _ _ h).symm
  have := w.upper _ _ h
  omega

/-- The lower end moves past a key whose slot is empty. -/
theorem Window.skip (w : Window B lo hi key slots) (h : slots (lo % B) = none) :
    Window B (lo + 1) hi key slots where
  slot := w.slot
  lower k c hc := by
    have hl := w.lower k c hc
    have hne : key c ≠ lo := by
      intro he
      rw [w.slot k c hc, he, h] at hc
      cases hc
    omega
  upper := w.upper

theorem Window.erase (w : Window B lo hi key slots) (k : Int) :
    Window B lo hi key (Function.update slots k none) := by
  have hsub : ∀ j c, Function.update slots k none j = some c → slots j = some c := by
    intro j c h
    by_cases hj : j = k
    · rw [hj, Function.update_self] at h
      cases h
    · rwa [Function.update_of_ne hj] at h
  exact ⟨fun j c h => w.slot j c (hsub j c h), fun j c h => w.lower j c (hsub j c h),
    fun j c h => w.upper j c (hsub j c h)⟩

theorem Window.store (w : Window B lo hi key slots) (c : α) (hl : lo ≤ key c) (hu : key c < hi) :
    Window B lo hi key (Function.update slots (key c % B) (some c)) := by
  have hcases : ∀ j d, Function.update slots (key c % B) (some c) j = some d →
      (j = key c % B ∧ d = c) ∨ slots j = some d := by
    intro j d h
    by_cases hj : j = key c % B
    · rw [hj, Function.update_self] at h
      exact Or.inl ⟨hj, (Option.some.inj h).symm⟩
    · rw [Function.update_of_ne hj] at h
      exact Or.inr h
  constructor <;> intro j d h <;> rcases hcases j d h with ⟨rfl, rfl⟩ | h
  · rfl
  · exact w.slot j d h
  · exact hl
  · exact w.lower j d h
  · exact hu
  · exact w.upper j d h

theorem Window.mono (w : Window B lo hi key slots) {hi' : Int} (h : hi ≤ hi') :
    Window B lo hi' key slots :=
  ⟨w.slot, w.lower, fun k c hc => lt_of_lt_of_le (w.upper k c hc) h⟩

/-- Erasing the slot of a key of the window drops exactly the value with that key. -/
theorem Window.stored_erase (w : Window B lo hi key slots) (hw : hi ≤ lo + B) {x : Int}
    (hx : lo ≤ x ∧ x < lo + B) (a : α) :
    Stored (Function.update slots (x % B) none) a ↔ Stored slots a ∧ key a ≠ x := by
  constructor
  · rintro ⟨k, h⟩
    by_cases hk : k = x % B
    · rw [hk, Function.update_self] at h
      cases h
    · rw [Function.update_of_ne hk] at h
      refine ⟨⟨k, h⟩, fun he => hk ?_⟩
      rw [w.slot k a h, he]
  · rintro ⟨⟨k, h⟩, hne⟩
    refine ⟨k, ?_⟩
    rw [Function.update_of_ne, h]
    rintro rfl
    exact hne (w.key_eq hw hx h)

/-- Storing into an empty slot adds exactly the stored value. -/
theorem stored_store {k : Int} {c : α} (hk : slots k = none) (a : α) :
    Stored (Function.update slots k (some c)) a ↔ a = c ∨ Stored slots a := by
  constructor
  · rintro ⟨j, h⟩
    by_cases hj : j = k
    · rw [hj, Function.update_self] at h
      exact Or.inl (Option.some.inj h).symm
    · rw [Function.update_of_ne hj] at h
      exact Or.inr ⟨j, h⟩
  · rintro (rfl | ⟨j, h⟩)
    · exact ⟨k, Function.update_self ..⟩
    · refine ⟨j, ?_⟩
      rw [Function.update_of_ne, h]
      rintro rfl
      rw [hk] at h
      cases h

end Ring
