import Mathlib.Data.List.Basic
import Mathlib.Tactic.Common

/-!
# Moves within an array

`memcpy` and `memmove` on an array of cells, which are bytes or larger things.  A move that leaves
the array has no result.  An array of blocks of one size is read and written block by block.
-/

namespace Memory

variable {α : Type*} {xs ys : List α} {off n : ℕ}

/-- The `n` cells from `off` on. -/
def slice (xs : List α) (off n : ℕ) : Option (List α) :=
  if off + n ≤ xs.length then some ((xs.drop off).take n) else none

/-- The array with the cells `ys` from `off` on. -/
def store (xs : List α) (off : ℕ) (ys : List α) : Option (List α) :=
  if off + ys.length ≤ xs.length then some (xs.take off ++ ys ++ xs.drop (off + ys.length))
  else none

/-- `memmove` within the array, of `n` cells; the two ranges may overlap. -/
def memmove (xs : List α) (dst src n : ℕ) : Option (List α) := do
  let ys ← slice xs src n
  store xs dst ys

theorem slice_eq (h : off + n ≤ xs.length) : slice xs off n = some ((xs.drop off).take n) :=
  if_pos h

theorem store_eq (h : off + ys.length ≤ xs.length) :
    store xs off ys = some (xs.take off ++ ys ++ xs.drop (off + ys.length)) :=
  if_pos h

/-- Cells that stand between others. -/
theorem slice_append (as bs cs : List α) :
    slice (as ++ bs ++ cs) as.length bs.length = some bs := by
  rw [slice_eq (by simp only [List.length_append]; omega), List.append_assoc, List.drop_left,
    List.take_left]

theorem store_append (as bs cs ys : List α) (hys : ys.length = bs.length) :
    store (as ++ bs ++ cs) as.length ys = some (as ++ ys ++ cs) := by
  rw [store_eq (by simp only [List.length_append]; omega), hys, ← List.length_append,
    List.drop_left, List.append_assoc as bs, List.take_left]

/-- What is in the cells afterwards: those outside the range are unchanged. -/
theorem getElem?_store {xs' : List α} (h : store xs off ys = some xs') (i : ℕ) :
    xs'[i]? = if off ≤ i ∧ i < off + ys.length then ys[i - off]? else xs[i]? := by
  unfold store at h
  split_ifs at h with hfit
  obtain rfl := Option.some.inj h
  have hoff : (xs.take off).length = off := List.length_take_of_le (by omega)
  by_cases hlt : i < off
  · rw [if_neg (by omega), List.append_assoc, List.getElem?_append_left (by omega),
      List.getElem?_take_of_lt hlt]
  by_cases hin : i < off + ys.length
  · rw [if_pos ⟨by omega, hin⟩, List.append_assoc, List.getElem?_append_right (by omega), hoff,
      List.getElem?_append_left (by omega)]
  · have hlen : (xs.take off ++ ys).length = off + ys.length := by rw [List.length_append, hoff]
    rw [if_neg (by omega), List.getElem?_append_right (by omega), hlen, List.getElem?_drop]
    exact congrArg (xs[·]?) (by omega)

theorem length_store {xs' : List α} (h : store xs off ys = some xs') : xs'.length = xs.length := by
  unfold store at h
  split_ifs at h with hfit
  obtain rfl := Option.some.inj h
  simp only [List.length_append, List.length_take, List.length_drop]
  omega

/-- Two stores side by side are one. -/
theorem store_store {xs' zs : List α} (h : store xs off ys = some xs') :
    store xs' (off + ys.length) zs = store xs off (ys ++ zs) := by
  have hlen := length_store h
  by_cases hfit : off + (ys ++ zs).length ≤ xs.length
  · have hfit' : off + ys.length + zs.length ≤ xs'.length := by
      rw [List.length_append] at hfit
      omega
    obtain ⟨a, ha⟩ : ∃ a, store xs' (off + ys.length) zs = some a := ⟨_, store_eq hfit'⟩
    obtain ⟨b, hb⟩ : ∃ b, store xs off (ys ++ zs) = some b := ⟨_, store_eq hfit⟩
    rw [ha, hb]
    refine congrArg some (List.ext_getElem? fun i => ?_)
    rw [getElem?_store ha, getElem?_store hb, getElem?_store h, List.length_append]
    split_ifs <;> grind
  · have hfit' : ¬ off + ys.length + zs.length ≤ xs'.length := by
      rw [List.length_append] at hfit
      omega
    rw [store, store, if_neg hfit, if_neg hfit']

/-- A move that closes the gap of a cell: the cells `bs` behind it move down, and the last of them
stays where it was as well. -/
theorem memmove_gap (as bs cs : List α) (x : α) :
    memmove (as ++ x :: bs ++ cs) as.length (as.length + 1) bs.length =
      some (as ++ bs ++ (x :: bs ++ cs).drop bs.length) := by
  have hslice : slice (as ++ x :: bs ++ cs) (as.length + 1) bs.length = some bs := by
    have hx := slice_append (as ++ [x]) bs cs
    rwa [List.length_append, List.length_singleton, ← List.append_cons] at hx
  have hstore : store (as ++ x :: bs ++ cs) as.length bs =
      some (as ++ bs ++ (x :: bs ++ cs).drop bs.length) := by
    have hfit : as.length + bs.length ≤ (as ++ x :: bs ++ cs).length := by
      simp only [List.length_append, List.length_cons]
      omega
    rw [store_eq hfit, List.append_assoc as, List.take_left, List.drop_length_add_append]
  unfold memmove
  rw [hslice]
  exact hstore

/-! ## Blocks of one size -/

section Blocks

variable {bs : List (List α)} {size i : ℕ}

theorem length_flatten_of_size (h : ∀ b ∈ bs, b.length = size) :
    bs.flatten.length = size * bs.length := by
  rw [List.length_flatten, List.map_congr_left h, List.map_const', List.sum_replicate_nat,
    Nat.mul_comm]

/-- The block `i` stands between those before and those behind it. -/
theorem flatten_eq (hi : i < bs.length) :
    bs.flatten = (bs.take i).flatten ++ bs[i] ++ (bs.drop (i + 1)).flatten := by
  conv_lhs => rw [← List.take_append_drop i bs, List.drop_eq_getElem_cons hi]
  rw [List.flatten_append, List.flatten_cons, List.append_assoc]

theorem length_flatten_take (h : ∀ b ∈ bs, b.length = size) (hi : i < bs.length) :
    (bs.take i).flatten.length = size * i := by
  rw [length_flatten_of_size fun b hb => h b (List.mem_of_mem_take hb), List.length_take,
    Nat.min_eq_left (Nat.le_of_lt hi)]

theorem slice_block (h : ∀ b ∈ bs, b.length = size) (hi : i < bs.length) :
    slice bs.flatten (size * i) size = some bs[i] := by
  have hslice := slice_append (bs.take i).flatten bs[i] (bs.drop (i + 1)).flatten
  rwa [← flatten_eq hi, length_flatten_take h hi, h _ (List.getElem_mem hi)] at hslice

theorem store_block (h : ∀ b ∈ bs, b.length = size) (hi : i < bs.length) {b : List α}
    (hb : b.length = size) : store bs.flatten (size * i) b = some (bs.set i b).flatten := by
  have hstore := store_append (bs.take i).flatten bs[i] (bs.drop (i + 1)).flatten b
    (hb.trans (h _ (List.getElem_mem hi)).symm)
  rw [← flatten_eq hi, length_flatten_take h hi] at hstore
  rw [hstore, List.set_eq_take_append_cons_drop, if_pos hi, List.flatten_append,
    List.flatten_cons, List.append_assoc]

end Blocks

end Memory
