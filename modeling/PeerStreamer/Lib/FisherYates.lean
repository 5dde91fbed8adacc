import Mathlib.Algebra.BigOperators.Fin
import Mathlib.Algebra.BigOperators.Intervals
import Mathlib.Data.List.Permutation
import Mathlib.Probability.Distributions.Uniform

/-!
# The shuffle by swaps from the end

From the last index down to 1, the element at the index changes places with one at a drawn index
that is not larger.  A list of distinct elements gets into each of its orders by exactly one sequence
of draws (`bijOn_arrange`): the element at an index is final once the index is passed, and shows
which index was drawn.  Uniform independent draws so give each order the same probability.
-/

namespace FisherYates

open scoped Nat

variable {α : Type*} {d d' : ℕ → ℕ} {i j n : ℕ} {xs ys : List α}

/-- Swap the elements at `j` and `d j`, for `j` from `i` down to 1. -/
def shuffle (d : ℕ → ℕ) : ℕ → List α → List α
  | 0, xs => xs
  | i + 1, xs => shuffle d i (xs.swap (d (i + 1)) (i + 1))

theorem shuffle_perm (d : ℕ → ℕ) (i : ℕ) (xs : List α) : (shuffle d i xs).Perm xs := by
  induction i generalizing xs with
  | zero => exact .refl xs
  | succ i ih => exact (ih _).trans (List.swap_perm xs _ _)

/-- The elements behind the index stay where they are. -/
theorem getElem?_shuffle_of_lt (hd : ∀ k, 0 < k → k ≤ i → d k ≤ k) (h : i < j) (xs : List α) :
    (shuffle d i xs)[j]? = xs[j]? := by
  induction i generalizing xs with
  | zero => rfl
  | succ i ih =>
    have hle := hd (i + 1) (Nat.succ_pos i) (Nat.le_refl _)
    unfold shuffle
    rw [ih (fun k hk hki => hd k hk (Nat.le_succ_of_le hki)) (Nat.lt_of_succ_lt h)]
    by_cases hj : j < xs.length
    · have hj' : j < (xs.swap (d (i + 1)) (i + 1)).length := by rwa [List.length_swap]
      rw [List.getElem?_eq_getElem hj, List.getElem?_eq_getElem hj',
        List.getElem_swap_of_ne (by omega) (by omega)]
    · rw [List.getElem?_eq_none (by rw [List.length_swap]; omega),
        List.getElem?_eq_none (by omega)]

/-- The element at the index of a swap is the one that was drawn. -/
theorem getElem?_shuffle_succ (hd : ∀ k, 0 < k → k ≤ i + 1 → d k ≤ k) (hi : i + 1 < xs.length) :
    (shuffle d (i + 1) xs)[i + 1]? = xs[d (i + 1)]? := by
  have hle := hd (i + 1) (Nat.succ_pos i) (Nat.le_refl _)
  have hdraw : d (i + 1) < xs.length := by omega
  have hi' : i + 1 < (xs.swap (d (i + 1)) (i + 1)).length := by rwa [List.length_swap]
  unfold shuffle
  rw [getElem?_shuffle_of_lt (fun k hk hki => hd k hk (Nat.le_succ_of_le hki)) (Nat.lt_succ_self i),
    List.getElem?_eq_getElem hi', List.getElem_swap_right_of_lt hdraw,
    List.getElem?_eq_getElem hdraw]

/-- The draws can be read off the result. -/
theorem shuffle_injective (hd : ∀ k, 0 < k → k ≤ i → d k ≤ k)
    (hd' : ∀ k, 0 < k → k ≤ i → d' k ≤ k) (hxs : xs.Nodup) (hi : i < xs.length)
    (h : shuffle d i xs = shuffle d' i xs) : ∀ k, 0 < k → k ≤ i → d k = d' k := by
  induction i generalizing xs with
  | zero =>
    intro k hk hk0
    omega
  | succ i ih =>
    have hle := hd (i + 1) (Nat.succ_pos i) (Nat.le_refl _)
    have hlast : d (i + 1) = d' (i + 1) := by
      have hget := congrArg (fun ys => ys[i + 1]?) h
      rw [getElem?_shuffle_succ hd hi, getElem?_shuffle_succ hd' hi] at hget
      exact (List.getElem?_inj (by omega) hxs).1 hget
    unfold shuffle at h
    rw [← hlast] at h
    have hrest := ih (fun k hk hki => hd k hk (Nat.le_succ_of_le hki))
      (fun k hk hki => hd' k hk (Nat.le_succ_of_le hki))
      ((List.swap_perm xs _ _).nodup_iff.2 hxs) (by rw [List.length_swap]; omega) h
    intro k hk hki
    rcases Nat.lt_or_eq_of_le hki with hlt | rfl
    · exact hrest k hk (Nat.le_of_lt_succ hlt)
    · exact hlast

theorem map_swap {β : Type*} (f : α → β) (xs : List α) (i j : ℕ) :
    (xs.swap i j).map f = (xs.map f).swap i j := by
  by_cases h : i < xs.length ∧ j < xs.length
  · obtain ⟨hi, hj⟩ := h
    rw [List.swap_eq_of_lt hi hj, List.swap_eq_of_lt (by rwa [List.length_map])
      (by rwa [List.length_map]), List.map_set, List.map_set, List.getElem_map, List.getElem_map]
  · have h' : ¬ (i < (xs.map f).length ∧ j < (xs.map f).length) := by
      rwa [List.length_map]
    rw [List.swap_eq, dif_neg h, List.swap_eq, dif_neg h']

/-- The shuffle looks at no element. -/
theorem map_shuffle {β : Type*} (f : α → β) (d : ℕ → ℕ) (i : ℕ) (xs : List α) :
    (shuffle d i xs).map f = shuffle d i (xs.map f) := by
  induction i generalizing xs with
  | zero => rfl
  | succ i ih =>
    unfold shuffle
    rw [ih, map_swap]

/-- The draws for a list of length `n`: one of `i + 2` numbers for the index `i + 1`. -/
abbrev Draws (n : ℕ) : Type := (i : Fin (n - 1)) → Fin (i + 2)

/-- The number drawn for an index. -/
def Draws.pos (d : Draws n) (i : ℕ) : ℕ := if h : i - 1 < n - 1 then d ⟨i - 1, h⟩ else 0

theorem Draws.pos_le (d : Draws n) (hi : 0 < i) : d.pos i ≤ i := by
  unfold Draws.pos
  split_ifs with h
  · have hlt := (d ⟨i - 1, h⟩).isLt
    dsimp only at hlt
    omega
  · exact Nat.zero_le i

theorem Draws.ext_pos {d d' : Draws n} (h : ∀ j, 0 < j → j ≤ n - 1 → d.pos j = d'.pos j) :
    d = d' := by
  funext i
  have hpos : ∀ d : Draws n, d.pos (i + 1) = d i := fun d => dif_pos i.isLt
  have hi := h (i + 1) (Nat.succ_pos i) i.isLt
  rw [hpos, hpos] at hi
  exact Fin.ext hi

/-- There are as many sequences of draws as orders. -/
theorem card_draws (n : ℕ) : Fintype.card (Draws n) = n ! := by
  rw [Fintype.card_pi]
  simp only [Fintype.card_fin]
  rw [Fin.prod_univ_eq_prod_range (· + 2) (n - 1)]
  cases n with
  | zero => rfl
  | succ n =>
    rw [← Finset.prod_range_add_one_eq_factorial, Finset.prod_range_succ']
    exact (Nat.mul_one _).symm

/-- The list after the whole shuffle. -/
def arrange (d : Draws n) (xs : List α) : List α := shuffle d.pos (n - 1) xs

theorem arrange_perm (d : Draws n) (xs : List α) : (arrange d xs).Perm xs := shuffle_perm ..

/-- Each order of distinct elements comes from one sequence of draws. -/
theorem bijOn_arrange (hxs : xs.Nodup) (hlen : xs.length = n) :
    Set.BijOn (fun d : Draws n => arrange d xs) Set.univ {ys | ys.Perm xs} := by
  classical
  have hmaps : ∀ d : Draws n, arrange d xs ∈ xs.permutations.toFinset := fun d =>
    List.mem_toFinset.2 (List.mem_permutations.2 (arrange_perm d xs))
  have hinj : Function.Injective (fun d : Draws n => arrange d xs) := by
    intro d d' h
    refine Draws.ext_pos fun j hj hjn => ?_
    exact shuffle_injective (fun k hk _ => d.pos_le hk) (fun k hk _ => d'.pos_le hk) hxs
      (by omega) h j hj hjn
  have hcard : xs.permutations.toFinset.card = Fintype.card (Draws n) := by
    rw [List.toFinset_card_of_nodup (List.nodup_permutations xs hxs), List.length_permutations,
      hlen, card_draws]
  have himage : Finset.univ.image (fun d : Draws n => arrange d xs) = xs.permutations.toFinset := by
    refine Finset.eq_of_subset_of_card_le (fun ys hys => ?_) ?_
    · obtain ⟨d, -, rfl⟩ := Finset.mem_image.1 hys
      exact hmaps d
    · rw [Finset.card_image_of_injective _ hinj, hcard, Finset.card_univ]
  refine ⟨fun d _ => arrange_perm d xs, hinj.injOn, fun ys hys => ?_⟩
  have hmem : ys ∈ xs.permutations.toFinset := List.mem_toFinset.2 (List.mem_permutations.2 hys)
  rw [← himage] at hmem
  obtain ⟨d, -, hd⟩ := Finset.mem_image.1 hmem
  exact ⟨d, Set.mem_univ d, hd⟩

/-- Uniform draws give each order the same probability. -/
theorem map_arrange_apply (hxs : xs.Nodup) (hlen : xs.length = n) (hys : ys.Perm xs) :
    (PMF.uniformOfFintype (Draws n)).map (arrange · xs) ys = (n ! : ENNReal)⁻¹ := by
  classical
  obtain ⟨d, -, rfl⟩ := (bijOn_arrange hxs hlen).surjOn hys
  have hiff : ∀ d' : Draws n, arrange d xs = arrange d' xs ↔ d' = d := fun d' =>
    ⟨fun h => ((bijOn_arrange hxs hlen).injOn (Set.mem_univ d) (Set.mem_univ d') h).symm,
      fun h => by rw [h]⟩
  rw [PMF.map_apply]
  simp only [PMF.uniformOfFintype_apply, card_draws, hiff]
  exact tsum_ite_eq _ _

end FisherYates
