import Mathlib.Algebra.Group.Int.Defs
import Mathlib.Algebra.Group.Nat.Defs
import Mathlib.Data.List.TakeWhile
import Mathlib.Tactic.Common

/-!
# C strings and lines of a file

The functions of `ctype.h`, `stdlib.h` and `stdio.h` that a reader of a line-oriented file calls, on
lists of bytes, and how a line splits into a keyword and a value.  A file is read line by line
without loss as long as its lines are shorter than the buffer (`fgets_line`, `fgets_last`).
-/

namespace CString

/-- The bytes of a string literal. -/
def bytes (s : String) : List UInt8 := s.toUTF8.data.toList

/-- `isspace`, in the C locale. -/
def isspace (c : UInt8) : Bool := c = 32 || 9 ≤ c && c ≤ 13

/-- `isdigit`. -/
def isdigit (c : UInt8) : Bool := 48 ≤ c && c ≤ 57

/-- The string in a buffer: what comes before the first NUL. -/
def ofBuffer (buf : List UInt8) : List UInt8 := buf.takeWhile (· ≠ 0)

/-- `strtol` in base 10, which stops at the limits of `long`. -/
def strtol (s : List UInt8) : Int :=
  let value (digits : List UInt8) : ℕ :=
    (digits.takeWhile isdigit).foldl (fun n c => 10 * n + (c.toNat - 48)) 0
  let n : Int :=
    match s.dropWhile isspace with
    | 45 :: digits => -value digits
    | 43 :: digits => value digits
    | digits => value digits
  max (-2 ^ 63) (min n (2 ^ 63 - 1))

/-- `atoi`: the low half of the `long`. -/
def atoi (s : List UInt8) : Int := (strtol s).bmod (2 ^ 32)

/-- `fgets` with a buffer of `size` bytes: what it reads and what it leaves, or none at the end of
the file. -/
def fgets (size : ℕ) (file : List UInt8) : Option (List UInt8 × List UInt8) :=
  if file = [] then none
  else
    let n := min (size - 1) (file.findIdx (· = 10) + 1)
    some (file.take n, file.drop n)

/-- `feof` after a call of `fgets`: the file ends before the line and the buffer do. -/
def feof (size : ℕ) (file : List UInt8) : Bool := !file.contains 10 && file.length < size - 1

/-- The word that `scanf` reads for `%s`, and what it leaves. -/
def word (s : List UInt8) : Option (List UInt8 × List UInt8) :=
  let s := s.dropWhile isspace
  if s = [] then none else some (s.takeWhile (!isspace ·), s.dropWhile (!isspace ·))

/-- A keyword, white space and a value. -/
def keyword (s : List UInt8) : Option (List UInt8 × List UInt8) :=
  match s.dropWhile (!isspace ·) with
  | [] => none
  | _ :: rest => some (s.takeWhile (!isspace ·), rest.dropWhile isspace)

variable {size : ℕ} {line rest s key value : List UInt8}

theorem findIdx_newline (hline : 10 ∉ line) (rest : List UInt8) :
    (line ++ rest).findIdx (· = 10) = line.length + rest.findIdx (· = 10) := by
  have hnone : line.findIdx (· = 10) = line.length := by
    refine List.findIdx_eq_length_of_false fun c hc => ?_
    simpa using fun h : c = 10 => hline (h ▸ hc)
  rw [List.findIdx_append, hnone, if_neg (Nat.lt_irrefl _), Nat.add_comm]

theorem fgets_line (hline : 10 ∉ line) (hsize : line.length + 1 < size) :
    fgets size (line ++ 10 :: rest) = some (line ++ [10], rest) := by
  have hidx : (line ++ 10 :: rest).findIdx (· = 10) = line.length := by
    rw [findIdx_newline hline, List.findIdx_cons]
    rfl
  have hlen : min (size - 1) (line.length + 1) = (line ++ [10]).length := by
    rw [List.length_append, List.length_singleton]
    omega
  have hsplit : line ++ 10 :: rest = (line ++ [10]) ++ rest := List.append_cons ..
  unfold fgets
  rw [if_neg (by simp), hidx, hlen, hsplit]
  simp only [List.take_left, List.drop_left]

theorem fgets_last (hline : 10 ∉ line) (hne : line ≠ []) (hsize : line.length < size) :
    fgets size line = some (line, []) := by
  have hidx : line.findIdx (· = 10) = line.length := by
    have hnil := findIdx_newline hline []
    rwa [List.append_nil] at hnil
  have hlen : line.length ≤ min (size - 1) (line.length + 1) := by omega
  unfold fgets
  rw [if_neg hne, hidx]
  simp only [List.take_of_length_le hlen, List.drop_of_length_le hlen]

/-- A line that fills the buffer is read without its newline. -/
theorem fgets_full (hline : 10 ∉ line) (hne : line ≠ []) (hsize : line.length = size - 1) :
    fgets size (line ++ rest) = some (line, rest) := by
  have hmin : min (size - 1) (line.length + rest.findIdx (· = 10) + 1) = line.length := by omega
  unfold fgets
  rw [if_neg (by simp [hne]), findIdx_newline hline, hmin]
  simp only [List.take_left, List.drop_left]

theorem feof_newline (size : ℕ) (line rest : List UInt8) : feof size (line ++ 10 :: rest) = false := by
  simp [feof]

theorem ofBuffer_eq (h : 0 ∉ s) : ofBuffer s = s :=
  List.takeWhile_eq_self_iff.2 fun c hc => by simpa using fun h0 : c = 0 => h (h0 ▸ hc)

/-! ## Words -/

theorem word_space {c : UInt8} (hc : isspace c = true) (s : List UInt8) :
    word (c :: s) = word s := by
  unfold word
  rw [List.dropWhile_cons_of_pos hc]

/-- A word at the beginning. -/
theorem word_append {w : List UInt8} (hne : w ≠ []) (hw : ∀ c ∈ w, isspace c = false)
    (hrest : ∀ c ∈ rest.head?, isspace c = true) : word (w ++ rest) = some (w, rest) := by
  have hall : ∀ c ∈ w, (!isspace c) = true := fun c hc => by rw [hw c hc]; rfl
  have hskip : (w ++ rest).dropWhile isspace = w ++ rest := by
    cases w with
    | nil => exact absurd rfl hne
    | cons c w => exact List.dropWhile_cons_of_neg (by simp [hw c (List.mem_cons_self ..)])
  have hstop : rest.takeWhile (!isspace ·) = [] ∧ rest.dropWhile (!isspace ·) = rest := by
    cases rest with
    | nil => exact ⟨rfl, rfl⟩
    | cons c rest =>
      have hc : isspace c = true := hrest c rfl
      exact ⟨List.takeWhile_cons_of_neg (by simp [hc]), List.dropWhile_cons_of_neg (by simp [hc])⟩
  unfold word
  rw [hskip, if_neg (by simp [hne]), List.takeWhile_append_of_pos hall,
    List.dropWhile_append_of_pos hall, hstop.1, hstop.2, List.append_nil]

/-- The newline at the end of a line belongs to no word. -/
theorem word_newline (s : List UInt8) :
    word (s ++ [10]) = (word s).map fun r => (r.1, r.2 ++ [10]) := by
  by_cases hblank : s.dropWhile isspace = []
  · have hskip : (s ++ [10]).dropWhile isspace = [] := by
      rw [List.dropWhile_append, hblank]
      rfl
    unfold word
    rw [hskip, hblank]
    rfl
  · have hskip : (s ++ [10]).dropWhile isspace = s.dropWhile isspace ++ [10] := by
      rw [List.dropWhile_append, if_neg (by simpa using hblank)]
    have htake : (s.dropWhile isspace ++ [10]).takeWhile (!isspace ·) =
        (s.dropWhile isspace).takeWhile (!isspace ·) := by
      rw [List.takeWhile_append]
      split_ifs with hall
      · rw [List.takeWhile_cons_of_neg (by decide), List.append_nil]
        exact ((List.takeWhile_prefix _).eq_of_length hall).symm
      · rfl
    have hdrop : (s.dropWhile isspace ++ [10]).dropWhile (!isspace ·) =
        (s.dropWhile isspace).dropWhile (!isspace ·) ++ [10] := by
      rw [List.dropWhile_append]
      split_ifs with hall
      · rw [List.dropWhile_cons_of_neg (by decide), List.isEmpty_iff.1 hall]
        rfl
      · rfl
    unfold word
    rw [hskip, if_neg hblank, if_neg (by simp), htake, hdrop]
    rfl

/-! ## Keywords -/

theorem keyword_append (hkey : ∀ c ∈ key, isspace c = false) {c : UInt8} (hc : isspace c = true) :
    keyword (key ++ c :: rest) = some (key, rest.dropWhile isspace) := by
  have hall : ∀ d ∈ key, (!isspace d) = true := fun d hd => by rw [hkey d hd]; rfl
  have hstop : ¬ (!isspace c) = true := by rw [hc]; nofun
  have hdrop : (key ++ c :: rest).dropWhile (!isspace ·) = c :: rest := by
    rw [List.dropWhile_append_of_pos hall]
    exact List.dropWhile_cons_of_neg hstop
  have htake : (key ++ c :: rest).takeWhile (!isspace ·) = key := by
    rw [List.takeWhile_append_of_pos hall]
    exact (congrArg (key ++ ·) (List.takeWhile_cons_of_neg hstop)).trans (List.append_nil _)
  unfold keyword
  rw [hdrop, htake]

theorem eq_append_of_keyword (h : keyword s = some (key, value)) :
    (∀ c ∈ key, isspace c = false) ∧ ∃ c rest, isspace c = true ∧ s = key ++ c :: rest ∧
      value = rest.dropWhile isspace := by
  unfold keyword at h
  rcases hdrop : s.dropWhile (!isspace ·) with _ | ⟨c, rest⟩
  · rw [hdrop] at h
    cases h
  · rw [hdrop] at h
    obtain ⟨rfl, rfl⟩ := Prod.mk.inj (Option.some.inj h)
    have hspace : isspace c = true := by
      have hhead := List.head?_dropWhile_not (!isspace ·) s
      rw [hdrop] at hhead
      simpa using hhead
    refine ⟨fun d hd => ?_, c, rest, hspace, ?_, rfl⟩
    · simpa using List.mem_takeWhile_imp hd
    · rw [← hdrop, List.takeWhile_append_dropWhile]

/-- A comparison of the first bytes with a keyword, and white space after it. -/
theorem keyword_eq_some_iff (hkey : ∀ c ∈ key, isspace c = false) :
    keyword s = some (key, value) ↔
      (s.take key.length = key ∧ (s[key.length]?).any isspace = true) ∧
        value = (s.drop (key.length + 1)).dropWhile isspace := by
  constructor
  · intro h
    obtain ⟨-, c, rest, hc, rfl, rfl⟩ := eq_append_of_keyword h
    simp [hc]
  · rintro ⟨⟨htake, hspace⟩, rfl⟩
    obtain ⟨c, hget, hc⟩ := (Option.any_eq_true ..).1 hspace
    obtain ⟨hlt, rfl⟩ := List.getElem?_eq_some_iff.1 hget
    have hs : s = key ++ s[key.length] :: s.drop (key.length + 1) := by
      rw [← List.drop_eq_getElem_cons hlt]
      exact (List.take_append_drop key.length s).symm.trans (congrArg (· ++ _) htake)
    exact (congrArg keyword hs).trans (keyword_append hkey hc)

end CString
