import Mathlib.Data.List.Basic
import Mathlib.Data.List.Nodup
import Mathlib.Data.List.Perm.Basic
import Mathlib.Tactic.Common
import PeerStreamer.Lib.Double

/-!
# Sets of node IDs (`nodeid_set.c`)

Sets are arrays of node IDs.  The functions that fill an array are given its room; they stop and
return -1 when it is full.
-/

namespace PeerStreamer.NodeidSet

variable {N : Type*} {p : N → Bool} {room : ℕ} {xs ys : List N} {x : N}

/-- The loop of `nidset_filter` and `nidset_complement`: copy what passes the test. -/
def copyIf (p : N → Bool) : ℕ → List N → Int × List N
  | _, [] => (0, [])
  | room, x :: xs =>
    if p x then
      match room with
      | 0 => (-1, [])
      | room + 1 =>
        let (r, dst) := copyIf p room xs
        (r, x :: dst)
    else copyIf p room xs

/-- The ids of `bs` that are not in `as`, in the order of `bs`. -/
def difference [DecidableEq N] (bs as : List N) : List N := bs.filter fun b => b ∉ as

def nidsetFilter (room : ℕ) (src : List N) (f : N → Bool) : Int × List N := copyIf f room src

section

variable [DecidableEq N]

/-- `B \ A` -/
def nidsetComplement (room : ℕ) (bs as : List N) : Int × List N :=
  copyIf (fun b => b ∉ as) room bs

/-- The index at which the id is found. -/
def nidsetFind (ids : List N) (id : N) : Option ℕ := ids.findIdx? fun x => x = id

def nidsetAdd (room : ℕ) (as bs : List N) : Int × List N :=
  let dst := as.take room
  if dst.length < as.length then (-1, dst)
  else
    let (r, more) := nidsetComplement (room - dst.length) bs as
    (r, dst ++ more)

/-- `nidset_add_i`, which adds to an array in place. -/
def nidsetAddI (room : ℕ) (dst as : List N) : Int × List N :=
  let (r, more) := nidsetComplement (room - dst.length) as dst
  (r, dst ++ more)

end

/-! ## The shuffle -/

def RAND_MAX : ℕ := 2147483647

/-- `(rand() / (RAND_MAX + 1.0)) * (i + 1)`, converted to `int`. -/
def newpos (rand : Fin (RAND_MAX + 1)) (i : ℕ) : ℕ :=
  ⌊Double.mul (Double.div rand.val (RAND_MAX + 1)) (i + 1)⌋₊

/-- The loop, from index `i` down to 1. -/
def shuffleLoop (rand : ℕ → Fin (RAND_MAX + 1)) : ℕ → List N → List N
  | 0, xs => xs
  | i + 1, xs => shuffleLoop rand i (xs.swap (newpos (rand (i + 1)) (i + 1)) (i + 1))

/-- `nidset_shuffle`, with the random number drawn for each index. -/
def nidsetShuffle (rand : ℕ → Fin (RAND_MAX + 1)) (xs : List N) : List N :=
  shuffleLoop rand (xs.length - 1) xs

theorem shuffleLoop_perm (rand : ℕ → Fin (RAND_MAX + 1)) (i : ℕ) (xs : List N) :
    (shuffleLoop rand i xs).Perm xs := by
  induction i generalizing xs with
  | zero => exact .refl xs
  | succ i ih => exact (ih _).trans (List.swap_perm xs _ _)

theorem nidsetShuffle_perm (rand : ℕ → Fin (RAND_MAX + 1)) (xs : List N) :
    (nidsetShuffle rand xs).Perm xs :=
  shuffleLoop_perm rand _ xs

/-! ## What the functions copy -/

/-- The call fails if and only if the room is too small for what passes the test, and in any case it
copies as much of that as fits. -/
theorem copyIf_eq (p : N → Bool) (room : ℕ) (xs : List N) :
    copyIf p room xs =
      (if (xs.filter p).length ≤ room then 0 else -1, (xs.filter p).take room) := by
  induction xs generalizing room with
  | nil => cases room <;> rfl
  | cons y xs ih =>
    unfold copyIf
    by_cases hy : p y = true
    · rw [if_pos hy, List.filter_cons_of_pos hy]
      cases room with
      | zero => rfl
      | succ room =>
        simp only [ih, List.length_cons, Nat.add_le_add_iff_right, List.take_succ_cons]
    · rw [if_neg hy, List.filter_cons_of_neg hy, ih]

theorem mem_copyIf (h : x ∈ (copyIf p room xs).2) : x ∈ xs ∧ p x = true := by
  rw [copyIf_eq] at h
  exact List.mem_filter.1 (List.mem_of_mem_take h)

theorem copyIf_sublist (p : N → Bool) (room : ℕ) (xs : List N) :
    (copyIf p room xs).2.Sublist xs := by
  rw [copyIf_eq]
  exact (List.take_sublist ..).trans List.filter_sublist

theorem length_copyIf_le (p : N → Bool) (room : ℕ) (xs : List N) :
    (copyIf p room xs).2.length ≤ room := by
  rw [copyIf_eq]
  exact List.length_take_le ..

/-- With room for the whole source nothing is left out. -/
theorem copyIf_of_length_le (p : N → Bool) (h : xs.length ≤ room) :
    copyIf p room xs = (0, xs.filter p) := by
  have hfit : (xs.filter p).length ≤ room := Nat.le_trans (List.length_filter_le p xs) h
  rw [copyIf_eq, if_pos hfit, List.take_of_length_le hfit]

variable [DecidableEq N]

theorem nidsetComplement_take (room : ℕ) (bs as : List N) :
    nidsetComplement room bs as =
      (if (difference bs as).length ≤ room then 0 else -1, (difference bs as).take room) :=
  copyIf_eq ..

theorem nidsetAdd_take (room : ℕ) (as bs : List N) :
    nidsetAdd room as bs =
      (if (as ++ difference bs as).length ≤ room then 0 else -1,
        (as ++ difference bs as).take room) := by
  have hlen : (as ++ difference bs as).length = as.length + (difference bs as).length :=
    List.length_append
  unfold nidsetAdd
  by_cases hroom : room < as.length
  · have hshort : (as.take room).length < as.length := by
      rw [List.length_take]
      omega
    rw [if_pos hshort, if_neg (by omega), List.take_append_of_le_length (by omega)]
  · have hall : as.take room = as := List.take_of_length_le (by omega)
    have hfit : (difference bs as).length ≤ room - as.length ↔
        (as ++ difference bs as).length ≤ room := by omega
    simp only [hall, nidsetComplement_take, hfit]
    rw [if_neg (Nat.lt_irrefl _), List.take_append, hall]

theorem nidsetAddI_take {room : ℕ} {dst : List N} (h : dst.length ≤ room) (as : List N) :
    nidsetAddI room dst as =
      (if (dst ++ difference as dst).length ≤ room then 0 else -1,
        (dst ++ difference as dst).take room) := by
  have hlen : (dst ++ difference as dst).length = dst.length + (difference as dst).length :=
    List.length_append
  have hfit : (difference as dst).length ≤ room - dst.length ↔
      (dst ++ difference as dst).length ≤ room := by omega
  simp only [nidsetAddI, nidsetComplement_take, hfit]
  rw [List.take_append, List.take_of_length_le h]

theorem nodup_append_difference (has : xs.Nodup) (hbs : ys.Nodup) :
    (xs ++ difference ys xs).Nodup := by
  refine has.append (hbs.sublist List.filter_sublist) fun x hx hd => ?_
  exact of_decide_eq_true (List.mem_filter.1 hd).2 hx

theorem nidsetComplement_of_mem (h : x ∈ ys) :
    nidsetComplement room (x :: xs) ys = nidsetComplement room xs ys := by
  have hp : ¬ decide (x ∉ ys) = true := by simpa using h
  exact if_neg hp

theorem nidsetComplement_full (h : x ∉ ys) : nidsetComplement 0 (x :: xs) ys = (-1, []) :=
  if_pos (decide_eq_true h)

theorem nidsetComplement_succ (h : x ∉ ys) :
    nidsetComplement (room + 1) (x :: xs) ys =
      ((nidsetComplement room xs ys).1, x :: (nidsetComplement room xs ys).2) :=
  if_pos (decide_eq_true h)

/-- With room for the whole source the complement is the difference of the sets. -/
theorem mem_nidsetComplement (h : xs.length ≤ room) :
    x ∈ (nidsetComplement room xs ys).2 ↔ x ∈ xs ∧ x ∉ ys := by
  rw [nidsetComplement, copyIf_of_length_le _ h, List.mem_filter, decide_eq_true_iff]

theorem of_mem_nidsetComplement (h : x ∈ (nidsetComplement room xs ys).2) : x ∈ xs :=
  (mem_copyIf h).1

theorem of_mem_nidsetAdd (h : x ∈ (nidsetAdd room xs ys).2) : x ∈ xs ∨ x ∈ ys := by
  unfold nidsetAdd at h
  dsimp only at h
  split_ifs at h
  · exact .inl (List.mem_of_mem_take h)
  · rcases List.mem_append.1 h with h | h
    · exact .inl (List.mem_of_mem_take h)
    · exact .inr (of_mem_nidsetComplement h)

theorem of_mem_nidsetAddI (h : x ∈ (nidsetAddI room xs ys).2) : x ∈ xs ∨ x ∈ ys :=
  (List.mem_append.1 h).imp_right of_mem_nidsetComplement

theorem nodup_nidsetComplement (h : xs.Nodup) : (nidsetComplement room xs ys).2.Nodup :=
  h.sublist (copyIf_sublist ..)

theorem nodup_nidsetAdd (hxs : xs.Nodup) (hys : ys.Nodup) : (nidsetAdd room xs ys).2.Nodup := by
  have htake : (xs.take room).Nodup := hxs.sublist (List.take_sublist ..)
  unfold nidsetAdd
  dsimp only
  split_ifs
  · exact htake
  · refine htake.append (nodup_nidsetComplement hys) fun x hx hy => ?_
    exact of_decide_eq_true (mem_copyIf hy).2 (List.mem_of_mem_take hx)

theorem nodup_nidsetAddI (hxs : xs.Nodup) (hys : ys.Nodup) : (nidsetAddI room xs ys).2.Nodup :=
  hxs.append (nodup_nidsetComplement hys) fun _ hx hy => of_decide_eq_true (mem_copyIf hy).2 hx

theorem length_nidsetAddI_le (h : xs.length ≤ room) :
    (nidsetAddI room xs ys).2.length ≤ room := by
  have := length_copyIf_le (fun y => decide (y ∉ xs)) (room - xs.length) ys
  rw [nidsetAddI, List.length_append]
  exact Nat.add_le_of_le_sub' h this

/-- A member is found, and at its index. -/
theorem nidsetFind_spec (h : x ∈ xs) : ∃ i, nidsetFind xs x = some i ∧ xs[i]? = some x := by
  cases hi : nidsetFind xs x with
  | none =>
    have := List.findIdx?_eq_none_iff.1 hi x h
    simp at this
  | some i =>
    obtain ⟨hlt, hx, -⟩ := List.findIdx?_eq_some_iff_getElem.1 hi
    refine ⟨i, rfl, ?_⟩
    rw [List.getElem?_eq_getElem hlt]
    simpa using hx

end PeerStreamer.NodeidSet
