import Mathlib.Data.List.Perm.Basic
import Mathlib.Data.List.Sort
import Mathlib.Tactic.Common

/-!
# What `qsort` promises

`qsort` calls its comparator with the addresses of two slots of the array.  It sorts by the comparator
if the results are consistent: a total order of the objects decides them, whatever slots the objects
are in at the time.  Otherwise nothing is known but that the array holds the same objects
(`Outcome`).
-/

namespace Qsort

variable {α : Type*}

/-- The result of a comparator, by the array and the two slots that it is called for. -/
abbrev Comparator (α : Type*) := List α → ℕ → ℕ → Int

/-- The order `le` of the objects of the array decides every comparison, in every arrangement. -/
structure Consistent (cmp : Comparator α) (xs : List α) (le : α → α → Prop) : Prop where
  total : ∀ a ∈ xs, ∀ b ∈ xs, le a b ∨ le b a
  trans : ∀ a ∈ xs, ∀ b ∈ xs, ∀ c ∈ xs, le a b → le b c → le a c
  nonpos_iff : ∀ ys : List α, ys.Perm xs → ∀ i j a b, i ≠ j → ys[i]? = some a → ys[j]? = some b →
    (cmp ys i j ≤ 0 ↔ le a b)
  nonneg_iff : ∀ ys : List α, ys.Perm xs → ∀ i j a b, i ≠ j → ys[i]? = some a → ys[j]? = some b →
    (0 ≤ cmp ys i j ↔ le b a)

/-- The arrays that `qsort` may leave. -/
structure Outcome (cmp : Comparator α) (xs ys : List α) : Prop where
  perm : ys.Perm xs
  sorted : ∀ le, Consistent cmp xs le → ys.Pairwise le

variable {cmp : Comparator α} {xs ys : List α} {R : α → α → Prop}

theorem Consistent.of_perm (h : Consistent cmp xs R) (hperm : ys.Perm xs) : Consistent cmp ys R where
  total := fun a ha b hb => h.total a (hperm.subset ha) b (hperm.subset hb)
  trans := fun a ha b hb c hc => h.trans a (hperm.subset ha) b (hperm.subset hb) c (hperm.subset hc)
  nonpos_iff := fun zs hzs => h.nonpos_iff zs (hzs.trans hperm)
  nonneg_iff := fun zs hzs => h.nonneg_iff zs (hzs.trans hperm)

/-- A comparator that compares the objects in the slots by a total order. -/
theorem Outcome.pairwise (f : α → α → Int)
    (hcmp : ∀ zs i j a b, zs[i]? = some a → zs[j]? = some b → cmp zs i j = f a b)
    (hflip : ∀ a b, 0 ≤ f a b ↔ f b a ≤ 0) (htotal : ∀ a b, f a b ≤ 0 ∨ f b a ≤ 0)
    (htrans : ∀ a b c, f a b ≤ 0 → f b c ≤ 0 → f a c ≤ 0) (h : Outcome cmp xs ys) :
    ys.Pairwise fun a b => f a b ≤ 0 := by
  refine h.sorted _ ⟨fun a _ b _ => htotal a b, fun a _ b _ c _ => htrans a b c, ?_, ?_⟩
  · intro zs _ i j a b _ hi hj
    rw [hcmp zs i j a b hi hj]
  · intro zs _ i j a b _ hi hj
    rw [hcmp zs i j a b hi hj]
    exact hflip a b

/-- A comparator that does not look at the first two slots when it compares them. -/
def Blind (cmp : Comparator α) : Prop :=
  ∀ a b rest, cmp (a :: b :: rest) 0 1 = cmp (b :: a :: rest) 0 1

/-- Any two objects can be brought to the first two slots, in either order, so that a consistent
order has to leave them undecided. -/
theorem Blind.related (hblind : Blind cmp) (h : Consistent cmp xs R) {a b : α}
    (hab : [a, b].Sublist xs) : R a b := by
  obtain ⟨rest, hperm⟩ : ∃ rest, xs.Perm (a :: b :: rest) := hab.exists_perm_append
  have hswap : (b :: a :: rest).Perm xs := (List.Perm.swap a b rest).trans hperm.symm
  have hle : cmp (a :: b :: rest) 0 1 ≤ 0 ↔ R a b :=
    h.nonpos_iff _ hperm.symm 0 1 a b Nat.zero_ne_one rfl rfl
  have hge : cmp (b :: a :: rest) 0 1 ≤ 0 ↔ R b a :=
    h.nonpos_iff _ hswap 0 1 b a Nat.zero_ne_one rfl rfl
  have ha : a ∈ xs := hperm.symm.subset (by simp)
  have hb : b ∈ xs := hperm.symm.subset (by simp)
  rw [hblind, hge] at hle
  rcases h.total a ha b hb with hab | hba
  · exact hab
  · exact hle.1 hba

/-- So every arrangement may be left. -/
theorem outcome_of_blind (hblind : Blind cmp) (hperm : ys.Perm xs) : Outcome cmp xs ys where
  perm := hperm
  sorted := fun _ h =>
    List.pairwise_iff_forall_sublist.2 fun hab => hblind.related (h.of_perm hperm) hab

/-! ## Comparators that look at the objects -/

/-- The comparator that applies a function to the objects in the slots. -/
def Comparator.ofFun (f : α → α → Int) : Comparator α := fun ys i j =>
  (ys[i]?.bind fun a => ys[j]?.map (f a)).getD 0

section OfFun

variable {f : α → α → Int} {a b : α} {i j : ℕ}

theorem Comparator.ofFun_eq (hi : ys[i]? = some a) (hj : ys[j]? = some b) :
    ofFun f ys i j = f a b := by
  simp [ofFun, hi, hj]

/-- A function that compares the objects of the array by a total order. -/
theorem Outcome.pairwise_of_mem (h : Outcome (.ofFun f) xs ys)
    (htotal : ∀ a ∈ xs, ∀ b ∈ xs, R a b ∨ R b a)
    (htrans : ∀ a ∈ xs, ∀ b ∈ xs, ∀ c ∈ xs, R a b → R b c → R a c)
    (hnonpos : ∀ a ∈ xs, ∀ b ∈ xs, (f a b ≤ 0 ↔ R a b))
    (hnonneg : ∀ a ∈ xs, ∀ b ∈ xs, (0 ≤ f a b ↔ R b a)) : ys.Pairwise R := by
  refine h.sorted R ⟨htotal, htrans, ?_, ?_⟩
  · intro zs hzs i j a b _ hi hj
    rw [Comparator.ofFun_eq hi hj]
    exact hnonpos a (hzs.subset (List.mem_of_getElem? hi)) b (hzs.subset (List.mem_of_getElem? hj))
  · intro zs hzs i j a b _ hi hj
    rw [Comparator.ofFun_eq hi hj]
    exact hnonneg a (hzs.subset (List.mem_of_getElem? hi)) b (hzs.subset (List.mem_of_getElem? hj))

/-- Two objects of the array are in different slots, unless they are the same. -/
theorem Consistent.nonpos_of_mem (h : Consistent (.ofFun f) xs R) (hself : ∀ a, f a a = 0)
    (ha : a ∈ xs) (hb : b ∈ xs) : R a b ↔ f a b ≤ 0 := by
  by_cases hab : a = b
  · subst hab
    exact iff_of_true ((h.total a ha a ha).elim id id) (hself a).le
  · obtain ⟨i, hi⟩ := List.mem_iff_getElem?.1 ha
    obtain ⟨j, hj⟩ := List.mem_iff_getElem?.1 hb
    have hne : i ≠ j := by
      rintro rfl
      exact hab (Option.some_inj.1 (hi.symm.trans hj))
    rw [← h.nonpos_iff xs (.refl xs) i j a b hne hi hj, Comparator.ofFun_eq hi hj]

/-- An insertion sort does what `qsort` promises. -/
theorem outcome_insertionSort (hself : ∀ a, f a a = 0) (xs : List α) :
    Outcome (.ofFun f) xs (xs.insertionSort fun a b => f a b ≤ 0) where
  perm := List.perm_insertionSort _ xs
  sorted R h := by
    classical
    -- on the objects of the array the order is total
    let le : {a // a ∈ xs} → {a // a ∈ xs} → Prop := fun a b => R a b
    have : Std.Total le := ⟨fun a b => h.total a a.2 b b.2⟩
    have : IsTrans _ le := ⟨fun a b c => h.trans a a.2 b b.2 c c.2⟩
    have hmap := List.map_insertionSort le (fun a b => f a b ≤ 0) Subtype.val xs.attach
      fun a _ b _ => h.nonpos_of_mem hself a.2 b.2
    rw [List.attach_map_subtype_val] at hmap
    rw [← hmap, List.pairwise_map]
    exact List.pairwise_insertionSort le xs.attach

end OfFun

end Qsort
