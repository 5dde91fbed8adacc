import Mathlib.Data.Finset.Card
import Mathlib.Order.Basic
import Mathlib.Tactic.Common

/-!
# The newest elements

A bounded store of elements that arrive in any order, some of them more than once: it keeps the `k`
largest ones of all that it has seen.  A store that gives up its smallest element for a larger one
does so (`Newest.evict`), and what it keeps depends on neither the order nor the number of the
arrivals (`Newest.unique`).
-/

variable {α : Type*} [LinearOrder α]

/-- The elements kept are the `k` largest ones seen. -/
structure Newest (k : ℕ) (seen kept : Finset α) : Prop where
  subset : kept ⊆ seen
  card : kept.card = min k seen.card
  above : ∀ y ∈ seen, y ∉ kept → ∀ x ∈ kept, y < x

namespace Newest

variable {k : ℕ} {seen kept kept' : Finset α} {m x : α}

theorem empty (k : ℕ) : Newest k (∅ : Finset α) ∅ where
  subset := Finset.Subset.refl ∅
  card := by rw [Finset.card_empty, Nat.min_zero]
  above y hy := absurd hy (Finset.notMem_empty y)

/-- As long as the store is not full it has everything. -/
theorem eq_of_card_lt (h : Newest k seen kept) (hlt : kept.card < k) : kept = seen := by
  refine Finset.eq_of_subset_of_card_le h.subset ?_
  have := h.card
  omega

/-- An element that is in the store changes nothing. -/
theorem insert_mem (h : Newest k seen kept) (hx : x ∈ kept) : Newest k (insert x seen) kept := by
  rwa [Finset.insert_eq_self.2 (h.subset hx)]

/-- A full store has no use for an element below all of its own. -/
theorem insert_below (h : Newest k seen kept) (hfull : kept.card = k) (hx : ∀ y ∈ kept, x < y) :
    Newest k (insert x seen) kept where
  subset := h.subset.trans (Finset.subset_insert x seen)
  card := by
    have hcard := h.card
    have hle := Finset.card_le_card (Finset.subset_insert x seen)
    omega
  above y hy hnot z hz := by
    rcases Finset.mem_insert.1 hy with rfl | hy
    · exact hx z hz
    · exact h.above y hy hnot z hz

/-- A store that is not full takes any new element. -/
theorem insert_room (h : Newest k seen kept) (hroom : kept.card < k) (hx : x ∉ kept) :
    Newest k (insert x seen) (insert x kept) := by
  obtain rfl := h.eq_of_card_lt hroom
  refine ⟨Finset.Subset.refl _, ?_, fun y hy hnot => absurd hy hnot⟩
  rw [Finset.card_insert_of_notMem hx]
  omega

/-- A full store gives up its smallest element for a larger one. -/
theorem evict (h : Newest k seen kept) (hfull : kept.card = k) (hm : m ∈ kept)
    (hmin : ∀ y ∈ kept, m ≤ y) (hlt : m < x) (hx : x ∉ kept) :
    Newest k (insert x seen) (insert x (kept.erase m)) where
  subset := Finset.insert_subset_insert x ((Finset.erase_subset m kept).trans h.subset)
  card := by
    have hcard := h.card
    have hle := Finset.card_le_card (Finset.subset_insert x seen)
    have hpos := Finset.card_pos.2 ⟨m, hm⟩
    have hnot : x ∉ kept.erase m := fun hmem => hx (Finset.mem_of_mem_erase hmem)
    rw [Finset.card_insert_of_notMem hnot, Finset.card_erase_of_mem hm]
    omega
  above y hy hnot z hz := by
    have hyx : y ≠ x := by
      rintro rfl
      exact hnot (Finset.mem_insert_self ..)
    -- what is not kept is at most the element that was given up
    have hym : y ≤ m := by
      by_cases hk : y ∈ kept
      · by_contra hgt
        have hne : y ≠ m := fun heq => hgt heq.le
        exact hnot (Finset.mem_insert_of_mem (Finset.mem_erase.2 ⟨hne, hk⟩))
      · exact (h.above y ((Finset.mem_insert.1 hy).resolve_left hyx) hk m hm).le
    rcases Finset.mem_insert.1 hz with rfl | hz
    · exact hym.trans_lt hlt
    · obtain ⟨hne, hk⟩ := Finset.mem_erase.1 hz
      exact hym.trans_lt (lt_of_le_of_ne (hmin z hk) hne.symm)

/-- What is kept depends only on what was seen. -/
theorem unique (h : Newest k seen kept) (h' : Newest k seen kept') : kept = kept' := by
  refine Finset.eq_of_subset_of_card_le ?_ (h.card.trans h'.card.symm).ge
  intro x hx
  by_contra hnot
  -- an element kept only on one side is above everything kept on the other
  have hsub : kept' ⊆ kept.erase x := by
    intro y hy
    have hlt := h'.above x (h.subset hx) hnot y hy
    refine Finset.mem_erase.2 ⟨hlt.ne', ?_⟩
    by_contra hy'
    exact lt_asymm hlt (h.above y (h'.subset hy) hy' x hx)
  have hcard := Finset.card_le_card hsub
  have hpos := Finset.card_pos.2 ⟨x, hx⟩
  rw [Finset.card_erase_of_mem hx, h'.card, h.card] at hcard
  rw [h.card] at hpos
  omega

end Newest
