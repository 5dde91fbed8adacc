import Mathlib.Data.List.Basic
import Mathlib.Data.List.Nodup
import Mathlib.Data.List.Perm.Subperm
import Mathlib.Order.Lattice

/-!
# Chunk ID sets

The chunk ID sets of GRAPES, which are not part of this repository.  `ChunkIDSet` names the
operations the streamer calls and `LawfulChunkIDSet` what it relies on: the operations are those of
a finite set whose elements can be read off by their index.  A set that is decoded from a message
may hold an ID several times; `add` and `union` do not repeat one.
-/

namespace PeerStreamer

/-- The operations of `chunkidset.h`. -/
class ChunkIDSet (S : Type*) where
  /-- `chunkID_set_init("size=0")` -/
  initList : S
  /-- `chunkID_set_init("type=bitmap")` -/
  initBitmap : S
  add : S → Int → S
  size : S → ℕ
  getChunk : S → ℕ → Int
  /-- Negative when the ID is not in the set. -/
  check : S → Int → Int
  earliest : S → Int
  latest : S → Int
  clear : S → S
  union : S → S → S

namespace ChunkIDSet

variable {S : Type*} [ChunkIDSet S]

/-- The elements, by their index. -/
def ids (s : S) : List Int := (List.range (size s)).map (getChunk s)

theorem length_ids (s : S) : (ids s).length = size s := by
  rw [ids, List.length_map, List.length_range]

theorem getChunk_mem_ids (s : S) {i : ℕ} (h : i < size s) : getChunk s i ∈ ids s :=
  List.mem_map.2 ⟨i, List.mem_range.2 h, rfl⟩

end ChunkIDSet

open ChunkIDSet

/-- The chunk ID sets behave as sets. -/
class LawfulChunkIDSet (S : Type*) [ChunkIDSet S] : Prop where
  check_iff (s : S) (x : Int) : 0 ≤ check s x ↔ x ∈ ids s
  ids_initList : ids (initList : S) = []
  ids_initBitmap : ids (initBitmap : S) = []
  mem_add (s : S) (x y : Int) : x ∈ ids (add s y) ↔ x = y ∨ x ∈ ids s
  nodup_add (s : S) (x : Int) : (ids s).Nodup → (ids (add s x)).Nodup
  ids_clear (s : S) : ids (clear s) = []
  mem_union (s t : S) (x : Int) : x ∈ ids (union s t) ↔ x ∈ ids s ∨ x ∈ ids t
  nodup_union (s t : S) : (ids s).Nodup → (ids (union s t)).Nodup
  earliest_mem (s : S) : ids s ≠ [] → earliest s ∈ ids s
  earliest_le (s : S) (x : Int) : x ∈ ids s → earliest s ≤ x
  latest_mem (s : S) : ids s ≠ [] → latest s ∈ ids s
  le_latest (s : S) (x : Int) : x ∈ ids s → x ≤ latest s

namespace ChunkIDSet

variable {S : Type*} [ChunkIDSet S] [LawfulChunkIDSet S]

theorem check_neg_iff (s : S) (x : Int) : check s x < 0 ↔ x ∉ ids s := by
  rw [← LawfulChunkIDSet.check_iff, Int.not_le]

theorem mem_add_self (s : S) (x : Int) : x ∈ ids (add s x) :=
  (LawfulChunkIDSet.mem_add s x x).2 (Or.inl rfl)

theorem mem_add_of_mem {s : S} {x : Int} (y : Int) (h : x ∈ ids s) : x ∈ ids (add s y) :=
  (LawfulChunkIDSet.mem_add s x y).2 (Or.inr h)

/-- Adding an element makes a set without repetitions larger by one at most. -/
theorem size_add_le {s : S} (h : (ids s).Nodup) (x : Int) : size (add s x) ≤ size s + 1 := by
  rw [← length_ids, ← length_ids, ← List.length_cons (a := x)]
  apply (List.subperm_of_subset (LawfulChunkIDSet.nodup_add s x h) ?_).length_le
  intro y hy
  rcases (LawfulChunkIDSet.mem_add s y x).1 hy with rfl | h
  · exact List.mem_cons_self ..
  · exact List.mem_cons_of_mem _ h

/-- The set of the elements of a list, added one after the other. -/
theorem mem_foldl_add (xs : List Int) (s : S) (y : Int) :
    y ∈ ids (xs.foldl add s) ↔ y ∈ xs ∨ y ∈ ids s := by
  induction xs generalizing s with
  | nil => simp
  | cons x xs ih =>
    rw [List.foldl_cons, ih, LawfulChunkIDSet.mem_add, List.mem_cons]
    exact or_left_comm.trans or_assoc.symm

theorem nodup_foldl_add (xs : List Int) {s : S} (h : (ids s).Nodup) :
    (ids (xs.foldl add s)).Nodup := by
  induction xs generalizing s with
  | nil => exact h
  | cons x xs ih => exact ih (LawfulChunkIDSet.nodup_add s x h)

/-- A set that is filled by `add` has no repetitions. -/
theorem nodup_ids_fill (xs : List Int) : (ids (xs.foldl add (initBitmap : S))).Nodup := by
  apply nodup_foldl_add
  rw [LawfulChunkIDSet.ids_initBitmap]
  exact List.nodup_nil

end ChunkIDSet

/-! ## A list of IDs -/

/-- Chunk ID sets as lists, which repeat an ID when the message does. -/
structure ListIDSet where
  elems : List Int
  deriving DecidableEq, Repr

namespace ListIDSet

def empty : ListIDSet := ⟨[]⟩

def insert (s : ListIDSet) (x : Int) : ListIDSet :=
  if x ∈ s.elems then s else ⟨s.elems ++ [x]⟩

/-- The smallest (largest) element, for `op` the minimum (maximum). -/
def best (op : Int → Int → Int) (s : ListIDSet) : Int := s.elems.tail.foldl op (s.elems.headD 0)

instance : ChunkIDSet ListIDSet where
  initList := empty
  initBitmap := empty
  add := insert
  size s := s.elems.length
  getChunk s i := s.elems.getD i 0
  check s x := if x ∈ s.elems then s.elems.idxOf x else -1
  earliest := best min
  latest := best max
  clear _ := empty
  union s t := t.elems.foldl insert s

theorem ids_eq (s : ListIDSet) : ids s = s.elems := by
  apply List.ext_getElem
  · exact length_ids s
  · intro i h1 h2
    simp [ids, ChunkIDSet.getChunk, h2]

/-- An ID is added at the end of the list. -/
theorem ids_add (s : ListIDSet) (x : Int) (h : x ∉ ids s) : ids (add s x) = ids s ++ [x] := by
  rw [ids_eq] at h
  rw [ids_eq, ids_eq]
  exact congrArg elems (if_neg h)

theorem mem_insert (s : ListIDSet) (x y : Int) : x ∈ (insert s y).elems ↔ x = y ∨ x ∈ s.elems := by
  unfold insert
  split_ifs with h
  · refine ⟨Or.inr, fun hx => ?_⟩
    rcases hx with rfl | hx
    · exact h
    · exact hx
  · rw [List.mem_append, List.mem_singleton]
    exact or_comm

theorem mem_foldl_insert (l : List Int) (s : ListIDSet) (x : Int) :
    x ∈ (l.foldl insert s).elems ↔ x ∈ s.elems ∨ x ∈ l := by
  induction l generalizing s with
  | nil => simp
  | cons y l ih =>
    rw [List.foldl_cons, ih, mem_insert, List.mem_cons]
    grind

theorem nodup_insert {s : ListIDSet} (h : s.elems.Nodup) (x : Int) : (insert s x).elems.Nodup := by
  unfold insert
  split_ifs with hx
  · exact h
  · rw [List.nodup_append]
    exact ⟨h, List.nodup_singleton x, by grind⟩

theorem nodup_foldl_insert (l : List Int) {s : ListIDSet} (h : s.elems.Nodup) :
    (l.foldl insert s).elems.Nodup := by
  induction l generalizing s with
  | nil => exact h
  | cons x l ih => exact ih (nodup_insert h x)

/-- Folding a choice between two elements gives an element that is at least as good as all. -/
theorem foldl_best {op : Int → Int → Int} {r : Int → Int → Prop}
    (hop : ∀ a b, op a b = a ∨ op a b = b)
    (hl : ∀ a b, r (op a b) a) (hr : ∀ a b, r (op a b) b) (refl : ∀ a, r a a)
    (trans : ∀ a b c, r a b → r b c → r a c) (l : List Int) (a : Int) :
    l.foldl op a ∈ a :: l ∧ ∀ x ∈ a :: l, r (l.foldl op a) x := by
  induction l generalizing a with
  | nil => exact ⟨List.mem_cons_self .., fun x hx => List.mem_singleton.1 hx ▸ refl x⟩
  | cons b l ih =>
    obtain ⟨hmem, hall⟩ := ih (op a b)
    rw [List.foldl_cons]
    have hab := hall _ (List.mem_cons_self ..)
    constructor
    · rcases List.mem_cons.1 hmem with h | h
      · rw [h]
        rcases hop a b with h | h <;> rw [h] <;> simp
      · exact List.mem_cons_of_mem _ (List.mem_cons_of_mem _ h)
    · intro x hx
      rcases List.mem_cons.1 hx with rfl | hx
      · exact trans _ _ _ hab (hl _ _)
      · rcases List.mem_cons.1 hx with rfl | hx
        · exact trans _ _ _ hab (hr _ _)
        · exact hall x (List.mem_cons_of_mem _ hx)

instance : LawfulChunkIDSet ListIDSet where
  check_iff s x := by
    rw [ids_eq]
    show 0 ≤ (if x ∈ s.elems then (s.elems.idxOf x : Int) else -1) ↔ _
    split_ifs with h
    · exact iff_of_true (Int.natCast_nonneg _) h
    · exact iff_of_false (by decide) h
  ids_initList := rfl
  ids_initBitmap := rfl
  mem_add s x y := by
    rw [ids_eq, ids_eq]
    exact mem_insert s x y
  nodup_add s x h := by
    rw [ids_eq] at h ⊢
    exact nodup_insert h x
  ids_clear _ := rfl
  mem_union s t x := by
    rw [ids_eq, ids_eq, ids_eq]
    exact mem_foldl_insert t.elems s x
  nodup_union s t h := by
    rw [ids_eq] at h ⊢
    exact nodup_foldl_insert t.elems h
  earliest_mem s h := by
    rw [ids_eq] at h ⊢
    obtain ⟨_ | ⟨a, l⟩⟩ := s
    · exact absurd rfl h
    · exact (foldl_best (r := (· ≤ ·)) (fun a b => by grind) (fun a b => by omega)
        (fun a b => by omega) Int.le_refl (fun _ _ _ => Int.le_trans) l a).1
  earliest_le s x h := by
    rw [ids_eq] at h
    obtain ⟨_ | ⟨a, l⟩⟩ := s
    · cases h
    · exact (foldl_best (r := (· ≤ ·)) (fun a b => by grind) (fun a b => by omega)
        (fun a b => by omega) Int.le_refl (fun _ _ _ => Int.le_trans) l a).2 x h
  latest_mem s h := by
    rw [ids_eq] at h ⊢
    obtain ⟨_ | ⟨a, l⟩⟩ := s
    · exact absurd rfl h
    · exact (foldl_best (r := (· ≥ ·)) (fun a b => by grind) (fun a b => by omega)
        (fun a b => by omega) Int.le_refl (fun _ _ _ h h' => Int.le_trans h' h) l a).1
  le_latest s x h := by
    rw [ids_eq] at h
    obtain ⟨_ | ⟨a, l⟩⟩ := s
    · cases h
    · exact (foldl_best (r := (· ≥ ·)) (fun a b => by grind) (fun a b => by omega)
        (fun a b => by omega) Int.le_refl (fun _ _ _ h h' => Int.le_trans h' h) l a).2 x h

end ListIDSet

end PeerStreamer
