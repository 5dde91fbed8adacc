import Mathlib.Data.List.Basic
import Mathlib.Tactic.Common

/-!
# Deletion from the array that is scanned

A loop over the indices of an array that removes elements of this array: after a removal the index
goes back by one, and the length is read again before every round.  If a removal closes the gap, every
element is tested once: those that pass the test are removed, in their order, and the others stay
(`scan_eq`, `elems_removeAll_filter`).
-/

namespace ScanDelete

variable {α σ ε : Type*} (elems : σ → List α) (p : α → Bool) (remove : α → σ → σ × List ε)

/-- An element of an array, for an index that may be negative. -/
def getAt? (xs : List α) (i : Int) : Option α := if 0 ≤ i then xs[i.toNat]? else none

/-- `for (; i < size; i++) if (p(elems[i])) remove(elems[i--]);` with what the removals emit. -/
def scan : ℕ → Int → σ → Option (σ × List ε)
  | 0, _, _ => none
  | fuel + 1, i, s =>
    if i < (elems s).length then
      match getAt? (elems s) i with
      | none => none
      | some a =>
        if p a then do
          let r ← scan fuel (i - 1 + 1) (remove a s).1
          return (r.1, (remove a s).2 ++ r.2)
        else scan fuel (i + 1) s
    else some (s, [])

/-- The removal of several elements. -/
def removeAll : List α → σ → σ × List ε
  | [], s => (s, [])
  | a :: as, s =>
    let r := removeAll as (remove a s).1
    (r.1, (remove a s).2 ++ r.2)

variable {s : σ} {kept rest : List α} {fuel : ℕ}

theorem getAt?_append (kept : List α) (a : α) (rest : List α) :
    getAt? (kept ++ a :: rest) kept.length = some a := by
  unfold getAt?
  rw [if_pos (Int.natCast_nonneg _), Int.toNat_natCast, List.getElem?_append_right (Nat.le_refl _),
    Nat.sub_self]
  rfl

section Gap

variable (hremove : ∀ s xs a ys, elems s = xs ++ a :: ys → elems (remove a s).1 = xs ++ ys)

include hremove

/-- The induction is on what is left to scan: a removal leaves the index and the elements before it
as they are. -/
theorem scan_eq (h : elems s = kept ++ rest) (hfuel : rest.length < fuel) :
    scan elems p remove fuel kept.length s = some (removeAll remove (rest.filter p) s) := by
  induction rest generalizing kept s fuel with
  | nil =>
    obtain ⟨fuel, rfl⟩ := Nat.exists_eq_add_of_lt hfuel
    have hend : ¬ (kept.length : Int) < (elems s).length := by
      rw [h, List.append_nil]
      exact Int.lt_irrefl _
    exact if_neg hend
  | cons a rest ih =>
    obtain ⟨fuel, rfl⟩ := Nat.exists_eq_add_of_lt hfuel
    have hin : (kept.length : Int) < (elems s).length := by
      rw [h, List.length_append, List.length_cons]
      omega
    have hfuel' : rest.length < (a :: rest).length + fuel := by
      rw [List.length_cons]
      omega
    unfold scan
    rw [if_pos hin, h, getAt?_append]
    dsimp only
    by_cases hp : p a = true
    · have hrest := ih (hremove s kept a rest h) hfuel'
      rw [if_pos hp, Int.sub_add_cancel, hrest, List.filter_cons_of_pos hp]
      rfl
    · have hkept : elems s = (kept ++ [a]) ++ rest := by rw [h, List.append_cons]
      have hrest := ih hkept hfuel'
      rw [List.length_append, List.length_singleton, Int.natCast_add] at hrest
      rw [if_neg hp, List.filter_cons_of_neg hp]
      exact hrest

theorem elems_removeAll_filter (h : elems s = kept ++ rest) :
    elems (removeAll remove (rest.filter p) s).1 = kept ++ rest.filter (fun a => !p a) := by
  induction rest generalizing kept s with
  | nil => exact h
  | cons a rest ih =>
    by_cases hp : p a = true
    · rw [List.filter_cons_of_pos hp, List.filter_cons_of_neg (by simpa using hp)]
      exact ih (hremove s kept a rest h)
    · have hkept : elems s = (kept ++ [a]) ++ rest := by rw [h, List.append_cons]
      rw [List.filter_cons_of_neg hp, List.filter_cons_of_pos (by simpa using hp), ih hkept,
        List.append_assoc, List.singleton_append]

end Gap

/-- What the removals emit, when that does not depend on the state. -/
theorem removeAll_snd {f : α → List ε} (hf : ∀ a s, (remove a s).2 = f a) (as : List α) (s : σ) :
    (removeAll remove as s).2 = as.flatMap f := by
  induction as generalizing s with
  | nil => rfl
  | cons a as ih =>
    rw [List.flatMap_cons, ← hf a s]
    exact congrArg _ (ih _)

end ScanDelete
