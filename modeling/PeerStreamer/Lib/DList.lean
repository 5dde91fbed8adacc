import Mathlib.Data.List.AList
import Mathlib.Data.List.Induction
import Mathlib.Data.List.Nodup
import Mathlib.Data.List.Perm.Subperm
import Mathlib.Tactic.Common

/-!
# Doubly linked lists in a heap

A heap maps the allocated addresses to cells; a cell holds a value and pointers to its neighbours,
`none` where there is no neighbour.  `Seg` says that the cells of a list of addresses and values
are linked to each other in this order, between two given neighbours.  The links of two adjacent
segments are those of the whole (`seg_append`), so that a store into one cell is a fact about the
segment that ends or begins there.
-/

namespace DList

structure Cell (A V : Type*) where
  value : V
  backward : Option A
  forward : Option A
  deriving DecidableEq, Repr

/-- The allocated cells. -/
abbrev Heap (A V : Type*) := AList fun _ : A => Cell A V

variable {A V : Type*} {h h' : Heap A V} {a b : A} {v : V} {p n : Option A}
  {xs ys : List (A × V)}

/-- The first address of a list of cells. -/
def first (xs : List (A × V)) : Option A := xs.head?.map Prod.fst

/-- The last one. -/
def last (xs : List (A × V)) : Option A := xs.getLast?.map Prod.fst

@[simp] theorem first_nil : first ([] : List (A × V)) = none := rfl

@[simp] theorem first_cons (x : A × V) (xs : List (A × V)) : first (x :: xs) = some x.1 := rfl

@[simp] theorem last_nil : last ([] : List (A × V)) = none := rfl

@[simp] theorem last_concat (xs : List (A × V)) (x : A × V) : last (xs ++ [x]) = some x.1 := by
  simp [last]

theorem first_append (xs ys : List (A × V)) : first (xs ++ ys) = (first xs).or (first ys) := by
  cases xs <;> simp [first]

theorem first_mem (h : first xs = some a) : a ∈ xs.map Prod.fst := by
  obtain ⟨x, hx, rfl⟩ := Option.map_eq_some_iff.1 h
  exact List.mem_map_of_mem (List.mem_of_head? hx)

theorem last_mem (h : last xs = some a) : a ∈ xs.map Prod.fst := by
  obtain ⟨x, hx, rfl⟩ := Option.map_eq_some_iff.1 h
  exact List.mem_map_of_mem (List.mem_of_getLast? hx)

variable [DecidableEq A]

/-! ## Stores -/

/-- A store into an allocated cell. -/
def modify (a : A) (f : Cell A V → Cell A V) (h : Heap A V) : Heap A V :=
  match h.lookup a with
  | none => h
  | some c => h.insert a (f c)

theorem lookup_modify (f : Cell A V → Cell A V) (h : Heap A V) (a b : A) :
    (modify a f h).lookup b = if b = a then (h.lookup b).map f else h.lookup b := by
  unfold modify
  by_cases hb : b = a
  · subst hb
    rw [if_pos rfl]
    cases hc : h.lookup b with
    | none => exact hc
    | some c => exact AList.lookup_insert h
  · rw [if_neg hb]
    split
    · rfl
    · exact AList.lookup_insert_ne hb

theorem mem_modify (f : Cell A V → Cell A V) (h : Heap A V) (a b : A) :
    b ∈ modify a f h ↔ b ∈ h := by
  rw [← AList.lookup_isSome, ← AList.lookup_isSome, lookup_modify]
  split_ifs
  · rw [Option.isSome_map]
  · rfl

/-- A store through a pointer that may be NULL, guarded by a check. -/
def modify? (p : Option A) (f : Cell A V → Cell A V) (h : Heap A V) : Heap A V :=
  p.elim h fun a => modify a f h

theorem mem_modify? (p : Option A) (f : Cell A V → Cell A V) (h : Heap A V) (b : A) :
    b ∈ modify? p f h ↔ b ∈ h := by
  cases p with
  | none => rfl
  | some a => exact mem_modify f h a b

theorem lookup_modify?_ne (hp : p ≠ some b) (f : Cell A V → Cell A V) (h : Heap A V) :
    (modify? p f h).lookup b = h.lookup b := by
  cases p with
  | none => rfl
  | some a =>
    show (modify a f h).lookup b = h.lookup b
    rw [lookup_modify, if_neg]
    rintro rfl
    exact hp rfl

/-! ## Segments -/

/-- The cells hold these values and are linked in this order, between `p` and `n`. -/
def Seg (h : Heap A V) (p n : Option A) : List (A × V) → Prop
  | [] => True
  | (a, v) :: xs => h.lookup a = some ⟨v, p, (first xs).or n⟩ ∧ Seg h (some a) n xs

/-- A list that starts at `head`: nothing is before its first cell or after its last one. -/
structure Linked (h : Heap A V) (head : Option A) (xs : List (A × V)) : Prop where
  head_eq : head = first xs
  nodup : (xs.map Prod.fst).Nodup
  seg : Seg h none none xs

theorem Linked.empty : Linked (∅ : Heap A V) none [] := ⟨rfl, List.nodup_nil, trivial⟩

theorem seg_append : Seg h p n (xs ++ ys) ↔
    Seg h p ((first ys).or n) xs ∧ Seg h ((last xs).or p) n ys := by
  induction xs generalizing p with
  | nil => simp [Seg]
  | cons x xs ih =>
    have hlast : (last (x :: xs)).or p = (last xs).or (some x.1) := by
      unfold last
      rw [List.getLast?_cons]
      cases xs.getLast? <;> rfl
    rw [List.cons_append, Seg, Seg, ih, first_append, hlast, Option.or_assoc, and_assoc]

theorem Seg.congr (hs : Seg h p n xs) (hh : ∀ a ∈ xs.map Prod.fst, h'.lookup a = h.lookup a) :
    Seg h' p n xs := by
  induction xs generalizing p with
  | nil => trivial
  | cons x xs ih =>
    refine ⟨(hh _ (List.mem_cons_self ..)).trans hs.1, ih hs.2 fun a ha => ?_⟩
    exact hh a (List.mem_cons_of_mem _ ha)

/-- A store elsewhere. -/
theorem Seg.modify_ne (hs : Seg h p n xs) (f : Cell A V → Cell A V)
    (ha : a ∉ xs.map Prod.fst) : Seg (modify a f h) p n xs := by
  apply hs.congr
  intro b hb
  rw [lookup_modify, if_neg]
  rintro rfl
  exact ha hb

theorem Seg.mem (hs : Seg h p n xs) (ha : a ∈ xs.map Prod.fst) : a ∈ h := by
  induction xs generalizing p with
  | nil => exact absurd ha List.not_mem_nil
  | cons x xs ih =>
    rcases List.mem_cons.1 ha with rfl | ha
    · rw [← AList.lookup_isSome, hs.1]
      rfl
    · exact ih hs.2 ha

/-- The pointer before the first cell is changed. -/
theorem Seg.setBackward (hs : Seg h p n xs) (hnd : (xs.map Prod.fst).Nodup) (p' : Option A) :
    Seg (modify? (first xs) (fun c => { c with backward := p' }) h) p' n xs := by
  cases xs with
  | nil => trivial
  | cons x xs =>
    refine ⟨?_, hs.2.modify_ne _ (List.nodup_cons.1 hnd).1⟩
    show (modify x.1 _ h).lookup x.1 = _
    rw [lookup_modify, if_pos rfl, hs.1]
    rfl

/-- The pointer behind the last cell is changed. -/
theorem Seg.setForward (hs : Seg h p n xs) (hnd : (xs.map Prod.fst).Nodup) (n' : Option A) :
    Seg (modify? (last xs) (fun c => { c with forward := n' }) h) p n' xs := by
  induction xs using List.reverseRecOn with
  | nil => trivial
  | append_singleton xs x _ =>
    obtain ⟨hxs, hx, -⟩ := seg_append.1 hs
    have hmem : x.1 ∉ xs.map Prod.fst := by
      rw [List.map_append, List.nodup_append] at hnd
      exact fun hmem => hnd.2.2 _ hmem _ (List.mem_singleton_self _) rfl
    rw [last_concat]
    refine seg_append.2 ⟨hxs.modify_ne _ hmem, ?_, trivial⟩
    show (modify x.1 _ h).lookup x.1 = _
    rw [lookup_modify, if_pos rfl, hx]
    rfl

/-! ## Adding and removing a cell -/

/-- A new cell in front of the list. -/
theorem Linked.push (hl : Linked h p xs) (hfresh : a ∉ h) (v : V) :
    Linked (modify? (first xs) (fun c => { c with backward := some a })
      (h.insert a ⟨v, none, p⟩)) (some a) ((a, v) :: xs) := by
  have hmem : a ∉ xs.map Prod.fst := fun hmem => hfresh (hl.seg.mem hmem)
  have hs : Seg (h.insert a ⟨v, none, p⟩) none none xs := by
    apply hl.seg.congr
    intro b hb
    exact AList.lookup_insert_ne fun e => hmem (e ▸ hb)
  refine ⟨rfl, List.nodup_cons.2 ⟨hmem, hl.nodup⟩, ?_, hs.setBackward hl.nodup (some a)⟩
  rw [Option.or_none, hl.head_eq]
  cases xs with
  | nil => exact AList.lookup_insert h
  | cons x xs =>
    have hne : a ≠ x.1 := by
      rintro rfl
      exact hmem (List.mem_cons_self ..)
    show (modify x.1 _ _).lookup a = _
    rw [lookup_modify, if_neg hne]
    exact AList.lookup_insert h

/-- The neighbours of a cell are linked to each other. -/
def bypass (l r : Option A) (h : Heap A V) : Heap A V :=
  modify? r (fun c => { c with backward := l }) (modify? l (fun c => { c with forward := r }) h)

theorem mem_bypass (l r : Option A) (h : Heap A V) (b : A) : b ∈ bypass l r h ↔ b ∈ h := by
  rw [bypass, mem_modify?, mem_modify?]

theorem lookup_bypass_ne {l r : Option A} (hl : l ≠ some b) (hr : r ≠ some b) (h : Heap A V) :
    (bypass l r h).lookup b = h.lookup b := by
  rw [bypass, lookup_modify?_ne hr, lookup_modify?_ne hl]

omit [DecidableEq A] in
theorem nodup_middle (hnd : ((xs ++ (a, v) :: ys).map Prod.fst).Nodup) :
    ((xs ++ ys).map Prod.fst).Nodup ∧ a ∉ (xs ++ ys).map Prod.fst := by
  rw [List.map_append, List.map_cons, List.nodup_middle, List.nodup_cons] at hnd
  rw [List.map_append]
  exact ⟨hnd.2, hnd.1⟩

theorem Seg.bypass (hs : Seg h none none (xs ++ (a, v) :: ys))
    (hnd : ((xs ++ (a, v) :: ys).map Prod.fst).Nodup) :
    Seg (bypass (last xs) (first ys) h) none none (xs ++ ys) := by
  obtain ⟨hxs, -, hys⟩ := seg_append.1 hs
  have hnd' := (nodup_middle hnd).1
  rw [List.map_append, List.nodup_append] at hnd'
  have hl : Seg (modify? (last xs) (fun c => { c with forward := first ys }) h) none (first ys) xs :=
    hxs.setForward hnd'.1 _
  have hr : Seg (modify? (last xs) (fun c => { c with forward := first ys }) h) (some a) none ys := by
    cases hlast : last xs with
    | none => exact hys
    | some b => exact hys.modify_ne _ fun hb => hnd'.2.2 _ (last_mem hlast) _ hb rfl
  refine seg_append.2 ⟨?_, ?_⟩
  · rw [Option.or_none]
    cases ys with
    | nil => exact hl
    | cons y ys =>
      apply hl.modify_ne
      intro hb
      exact hnd'.2.2 _ hb _ (List.mem_cons_self ..) rfl
  · rw [Option.or_none]
    exact hr.setBackward hnd'.2.1 _

/-- A cell is taken out of the list and freed. -/
theorem Linked.unlink (hl : Linked h p (xs ++ (a, v) :: ys)) :
    Linked ((DList.bypass (last xs) (first ys) h).erase a) (first (xs ++ ys)) (xs ++ ys) := by
  obtain ⟨hnd, hmem⟩ := nodup_middle hl.nodup
  refine ⟨rfl, hnd, (hl.seg.bypass hl.nodup).congr fun b hb => ?_⟩
  exact AList.lookup_erase_ne fun e => hmem (e ▸ hb)

/-- A store into a cell that is freed. -/
theorem Linked.modify_erase (hl : Linked (h.erase a) p xs) (f : Cell A V → Cell A V) :
    Linked ((modify a f h).erase a) p xs := by
  refine ⟨hl.head_eq, hl.nodup, hl.seg.congr fun b hb => ?_⟩
  by_cases hba : b = a
  · rw [hba, AList.lookup_erase, AList.lookup_erase]
  · rw [AList.lookup_erase_ne hba, AList.lookup_erase_ne hba, lookup_modify, if_neg hba]

/-- What the cell in the middle of a list holds. -/
theorem Linked.lookup (hl : Linked h p (xs ++ (a, v) :: ys)) :
    h.lookup a = some ⟨v, last xs, first ys⟩ := by
  have := (seg_append.1 hl.seg).2.1
  rwa [Option.or_none, Option.or_none] at this

/-- A store into the value of a cell. -/
theorem Linked.setValue (hl : Linked h p (xs ++ (a, v) :: ys)) (f : V → V) :
    Linked (modify a (fun c => { c with value := f c.value }) h) p (xs ++ (a, f v) :: ys) := by
  obtain ⟨hxs, ha, hys⟩ := seg_append.1 hl.seg
  obtain ⟨hnd, hmem⟩ := nodup_middle hl.nodup
  rw [List.map_append, List.mem_append, not_or] at hmem
  have hnodup : ((xs ++ (a, f v) :: ys).map Prod.fst).Nodup := by
    simpa using hl.nodup
  refine ⟨?_, hnodup, seg_append.2 ⟨hxs.modify_ne _ hmem.1, ?_, hys.modify_ne _ hmem.2⟩⟩
  · rw [hl.head_eq, first_append, first_append]
    rfl
  · rw [lookup_modify, if_pos rfl, ha]
    rfl

/-! ## Following the pointers -/

/-- The cells met on the way from `p`, in `k` steps at most. -/
def follow (dir : Cell A V → Option A) (h : Heap A V) : ℕ → Option A → List A
  | 0, _ => []
  | _, none => []
  | k + 1, some a => a :: (h.lookup a).elim [] fun c => follow dir h k (dir c)

theorem Seg.follow_forward (hs : Seg h p none xs) {k : ℕ} (hk : xs.length ≤ k) :
    follow Cell.forward h k (first xs) = xs.map Prod.fst := by
  induction xs generalizing p k with
  | nil => cases k <;> rfl
  | cons x xs ih =>
    cases k with
    | zero => exact absurd hk (Nat.not_succ_le_zero _)
    | succ k =>
      rw [first_cons, follow, hs.1, Option.elim_some, Option.or_none,
        ih hs.2 (Nat.le_of_succ_le_succ hk)]
      rfl

theorem Seg.follow_backward (hs : Seg h none n xs) {k : ℕ} (hk : xs.length ≤ k) :
    follow Cell.backward h k (last xs) = (xs.map Prod.fst).reverse := by
  induction xs using List.reverseRecOn generalizing n k with
  | nil => cases k <;> rfl
  | append_singleton xs x ih =>
    rw [List.length_append] at hk
    cases k with
    | zero => exact absurd hk (Nat.not_succ_le_zero _)
    | succ k =>
      obtain ⟨hxs, hx, -⟩ := seg_append.1 hs
      rw [last_concat, follow, hx, Option.elim_some, Option.or_none,
        ih hxs (Nat.le_of_succ_le_succ hk)]
      simp

/-- A linked list is no longer than the heap. -/
theorem Linked.length_le (hl : Linked h p xs) : xs.length ≤ h.entries.length := by
  have hsub : xs.map Prod.fst ⊆ h.keys := fun a ha => AList.mem_keys.1 (hl.seg.mem ha)
  have hle := (List.subperm_of_subset hl.nodup hsub).length_le
  rwa [List.length_map, AList.keys, List.keys, List.length_map] at hle

end DList
