import PeerStreamer.Lib.Qsort
import PeerStreamer.Topology

/-!
# The order by round trip time

With `topo_keep_best`, `update_peers` sorts the old ids by `vcmp_rtt`.  `qsort` calls it with the
addresses of slots, which hold pointers to node IDs, but it takes the addresses themselves for node
IDs.  What it compares are words of the array further on and of the memory behind it.
-/

namespace PeerStreamer.Rtt

open Qsort

variable {N : Type}

/-- The node IDs in memory: where they are and the fields that the round trip time is read from, the
memory behind the array that is sorted, and the measures of the monitoring library.  `monl` says that
the program is built with this library. -/
structure Machine (N : Type) where
  monl : Bool
  addr : N → UInt64
  mhs : N → ℕ → Int32
  nMhs : N → Int32
  behind : ℕ → UInt64
  monRetrieveResult : Int32 → Option ℚ

/-- What the code takes for the address of a node ID. -/
inductive Addr (N : Type) where
  | node (n : N)
  | slot (i : ℕ)

/-! ## The code

Addresses have eight bytes and come in little-endian order.  In `struct nodeID` the handles `mhs` are
sixteen bytes from the beginning, four bytes each, and `n_mhs` is behind the twenty of them. -/

/-- The word at an index of the array, which holds pointers. -/
def word (m : Machine N) (xs : List N) (w : ℕ) : UInt64 :=
  match xs[w]? with
  | some n => m.addr n
  | none => m.behind (w - xs.length)

/-- The `int` that is `off` bytes behind the address of a slot. -/
def intAt (m : Machine N) (xs : List N) (i off : ℕ) : Int32 :=
  let w := word m xs (i + off / 8)
  if off % 8 = 0 then w.toUInt32.toInt32 else (w >>> 32).toUInt32.toInt32

def mhs (m : Machine N) (xs : List N) (id : Addr N) (j : ℕ) : Int32 :=
  match id with
  | .node n => m.mhs n j
  | .slot i => intAt m xs i (4 * j + 16)

def nMhs (m : Machine N) (xs : List N) (id : Addr N) : Int32 :=
  match id with
  | .node n => m.nMhs n
  | .slot i => intAt m xs i (4 * 20 + 16)

/-- `get_measure` of the windowed average; NaN is `none`. -/
def getMeasure (m : Machine N) (xs : List N) (id : Addr N) (j : ℕ) : Option ℚ :=
  if (nMhs m xs id).toInt > j then m.monRetrieveResult (mhs m xs id j) else none

def getRtt (m : Machine N) (xs : List N) (id : Addr N) : Option ℚ := getMeasure m xs id 1

def getRttOf (m : Machine N) (xs : List N) (id : Addr N) : Option ℚ :=
  if m.monl then getRtt m xs id else none

/-- A comparison of two `double` values, which is false if one of them is NaN. -/
def compares (R : ℚ → ℚ → Prop) (a b : Option ℚ) : Prop := ∃ x ∈ a, ∃ y ∈ b, R x y

instance (R : ℚ → ℚ → Prop) [DecidableRel R] (a b : Option ℚ) : Decidable (compares R a b) :=
  inferInstanceAs (Decidable (∃ x ∈ a, ∃ y ∈ b, R x y))

/-- What `cmp_rtt` returns for the times `ra` and `rb`. -/
def cmpTimes (ra rb : Option ℚ) : Int :=
  if (ra = none ∧ rb = none) ∨ compares (· = ·) ra rb then 0
  else if rb = none ∨ compares (· < ·) ra rb then -1
  else 1

def cmpRtt (m : Machine N) (xs : List N) (a b : Addr N) : Int :=
  cmpTimes (getRttOf m xs a) (getRttOf m xs b)

/-- The comparator of `qsort`: the addresses of the slots go to `cmp_rtt` as they are. -/
def vcmpRtt (m : Machine N) : Comparator N := fun xs i j => cmpRtt m xs (.slot i) (.slot j)

/-! ## What is compared -/

variable {m : Machine N} {xs ys rest : List N} {a b : N} {k : ℕ}

/-- The round trip time of a node. -/
def rtt (m : Machine N) (n : N) : Option ℚ := getRttOf m [] (.node n)

/-- A time that is not larger, where an unknown time is larger than all others. -/
def NotWorse (r s : Option ℚ) : Prop := s = none ∨ compares (· ≤ ·) r s

theorem word_add_two (m : Machine N) (a b : N) (rest : List N) (w : ℕ) :
    word m (a :: b :: rest) (w + 2) = word m rest w := by
  unfold word
  rw [List.getElem?_cons_succ, List.getElem?_cons_succ, List.length_cons, List.length_cons,
    Nat.add_sub_add_right]

theorem intAt_add_sixteen (m : Machine N) (a b : N) (rest : List N) (i off : ℕ) :
    intAt m (a :: b :: rest) i (off + 16) = intAt m rest i off := by
  have hword : i + (off + 16) / 8 = i + off / 8 + 2 := by omega
  have hhalf : (off + 16) % 8 = off % 8 := by omega
  rw [intAt, hword, hhalf, word_add_two, intAt]

/-- The first two slots do not matter for what is read at any slot. -/
theorem getRttOf_slot (m : Machine N) (a b : N) (rest : List N) (i : ℕ) :
    getRttOf m (a :: b :: rest) (.slot i) = getRttOf m (b :: a :: rest) (.slot i) := by
  simp only [getRttOf, getRtt, getMeasure, nMhs, mhs, intAt_add_sixteen]

theorem blind_vcmpRtt (m : Machine N) : Blind (vcmpRtt m) := by
  intro a b rest
  unfold vcmpRtt cmpRtt
  rw [getRttOf_slot m a b rest 0, getRttOf_slot m a b rest 1]

/-- So every rearrangement that the model of `update_peers` leaves open is an outcome of the sort. -/
theorem outcome_order (m : Machine N) (order : Topology.Order N) (xs : List N) :
    Outcome (vcmpRtt m) xs (order.sort xs) :=
  outcome_of_blind (blind_vcmpRtt m) (order.perm xs)

/-! ## The order of the nodes

As a comparison of nodes, `cmp_rtt` is right. -/

theorem NotWorse.of_eq {r s : Option ℚ} (h : r = s) : NotWorse r s := by
  subst h
  cases r with
  | none => exact .inl rfl
  | some x => exact .inr ⟨x, rfl, x, rfl, le_refl x⟩

theorem NotWorse.total (r s : Option ℚ) : NotWorse r s ∨ NotWorse s r := by
  cases r with
  | none => exact .inr (.inl rfl)
  | some x =>
    cases s with
    | none => exact .inl (.inl rfl)
    | some y =>
      rcases le_total x y with hxy | hyx
      · exact .inl (.inr ⟨x, rfl, y, rfl, hxy⟩)
      · exact .inr (.inr ⟨y, rfl, x, rfl, hyx⟩)

theorem NotWorse.trans {r s u : Option ℚ} (hrs : NotWorse r s) (hsu : NotWorse s u) :
    NotWorse r u := by
  rcases hsu with hu | ⟨y, hy, z, hz, hyz⟩
  · exact .inl hu
  · rcases hrs with hs | ⟨x, hx, y', hy', hxy⟩
    · rw [hs] at hy
      cases hy
    · obtain rfl : y' = y := Option.some.inj (hy'.symm.trans hy)
      exact .inr ⟨x, hx, z, hz, hxy.trans hyz⟩

theorem NotWorse.antisymm {r s : Option ℚ} (hrs : NotWorse r s) (hsr : NotWorse s r) : r = s := by
  rcases hrs with hs | ⟨x, hx, y, hy, hxy⟩
  · rcases hsr with hr | ⟨y, hy, -⟩
    · rw [hr, hs]
    · rw [hs] at hy
      cases hy
  · rcases hsr with hr | ⟨y', hy', x', hx', hyx⟩
    · rw [hr] at hx
      cases hx
    · obtain rfl : y' = y := Option.some.inj (hy'.symm.trans hy)
      obtain rfl : x' = x := Option.some.inj (hx'.symm.trans hx)
      rw [hx, hy, le_antisymm hxy hyx]

@[simp] theorem compares_some {R : ℚ → ℚ → Prop} {x y : ℚ} :
    compares R (some x) (some y) ↔ R x y := by
  simp [compares]

/-- The sign of the result says which of the two times is not worse. -/
theorem cmpTimes_spec (r s : Option ℚ) :
    (cmpTimes r s ≤ 0 ↔ NotWorse r s) ∧ (0 ≤ cmpTimes r s ↔ NotWorse s r) := by
  unfold cmpTimes NotWorse
  cases r with
  | none => cases s <;> simp [compares]
  | some x =>
    cases s with
    | none => simp [compares]
    | some y =>
      simp only [reduceCtorEq, and_self, false_or, compares_some]
      rcases lt_trichotomy x y with hlt | rfl | hgt
      · simp [hlt, hlt.ne, hlt.le, not_le.2 hlt]
      · simp
      · simp [hgt.ne', not_lt.2 hgt.le, not_le.2 hgt, hgt.le]

theorem cmpTimes_nonpos {r s : Option ℚ} : cmpTimes r s ≤ 0 ↔ NotWorse r s := (cmpTimes_spec r s).1

theorem cmpTimes_nonneg {r s : Option ℚ} : 0 ≤ cmpTimes r s ↔ NotWorse s r := (cmpTimes_spec r s).2

/-! ## The ids that are kept -/

/-- The first `k` ids are not worse than the others. -/
def KeepsBest (m : Machine N) (k : ℕ) (ys : List N) : Prop :=
  ∀ p ∈ ys.take k, ∀ q ∈ ys.drop k, NotWorse (rtt m p) (rtt m q)

/-- A comparator that hands the nodes in the slots to `cmp_rtt` would keep the best. -/
theorem keepsBest_of_agrees {cmp : Comparator N}
    (hcmp : ∀ zs i j a b, zs[i]? = some a → zs[j]? = some b →
      cmp zs i j = cmpRtt m zs (.node a) (.node b))
    (h : Outcome cmp xs ys) (k : ℕ) : KeepsBest m k ys := by
  have hsorted := h.pairwise (fun a b => cmpTimes (rtt m a) (rtt m b)) hcmp
    (fun a b => cmpTimes_nonneg.trans cmpTimes_nonpos.symm)
    (fun a b => by simpa only [cmpTimes_nonpos] using NotWorse.total (rtt m a) (rtt m b))
    (fun a b c => by simpa only [cmpTimes_nonpos] using NotWorse.trans)
  rw [← List.take_append_drop k ys] at hsorted
  intro p hp q hq
  exact cmpTimes_nonpos.1 ((List.pairwise_append.1 hsorted).2.2 p hp q hq)

/-- Two ids can be brought to the ends of the array. -/
theorem exists_perm_ends {p q : N} (hp : p ∈ xs) (hq : q ∈ xs) (hne : p ≠ q) :
    ∃ mid, (p :: (mid ++ [q])).Perm xs := by
  obtain ⟨l₁, l₂, rfl⟩ := List.append_of_mem hp
  have hq' : q ∈ l₁ ++ l₂ := by
    rcases List.mem_append.1 hq with hq | hq
    · exact List.mem_append_left l₂ hq
    · exact List.mem_append_right l₁ ((List.mem_cons.1 hq).resolve_left hne.symm)
  obtain ⟨l₃, l₄, hsplit⟩ := List.append_of_mem hq'
  have hmid : (l₃ ++ l₄ ++ [q]).Perm (l₁ ++ l₂) := by
    rw [hsplit]
    exact (List.perm_append_singleton q _).trans List.perm_middle.symm
  exact ⟨l₃ ++ l₄, (hmid.cons p).trans List.perm_middle.symm⟩

/-- Every outcome of the sort keeps the best ids only if none or all are kept or all have the same
time. -/
theorem keeps_best_iff (hk : k ≤ xs.length) :
    (∀ ys, Outcome (vcmpRtt m) xs ys → KeepsBest m k ys) ↔
      k = 0 ∨ k = xs.length ∨ ∀ p ∈ xs, ∀ q ∈ xs, rtt m p = rtt m q := by
  constructor
  · intro h
    by_cases hzero : k = 0
    · exact .inl hzero
    by_cases hall : k = xs.length
    · exact .inr (.inl hall)
    have hnotWorse : ∀ p ∈ xs, ∀ q ∈ xs, p ≠ q → NotWorse (rtt m p) (rtt m q) := by
      intro p hp q hq hne
      obtain ⟨mid, hperm⟩ := exists_perm_ends hp hq hne
      have hlen : (p :: mid).length + 1 = xs.length := by
        have := hperm.length_eq
        rw [List.length_cons, List.length_append, List.length_singleton] at this
        exact this
      refine h _ (outcome_of_blind (blind_vcmpRtt m) hperm) p ?_ q ?_
      · obtain ⟨k, rfl⟩ := Nat.exists_eq_succ_of_ne_zero hzero
        rw [List.take_succ_cons]
        exact List.mem_cons_self ..
      · rw [← List.cons_append, List.drop_append_of_le_length (by omega)]
        exact List.mem_append_right _ (List.mem_singleton_self q)
    refine .inr (.inr fun p hp q hq => ?_)
    by_cases hpq : p = q
    · rw [hpq]
    · exact (hnotWorse p hp q hq hpq).antisymm (hnotWorse q hq p hp (Ne.symm hpq))
  · rintro (rfl | rfl | hsame) ys hys p hp q hq
    · rw [List.take_zero] at hp
      exact absurd hp List.not_mem_nil
    · rw [← hys.perm.length_eq, List.drop_length] at hq
      exact absurd hq List.not_mem_nil
    · have hp := hys.perm.subset (List.mem_of_mem_take hp)
      have hq := hys.perm.subset (List.mem_of_mem_drop hq)
      exact .of_eq (hsame p hp q hq)

/-- Node 1 answers after 0.1 seconds and all others after 0.2; behind the array there are zeros. -/
def measured : Machine ℕ where
  monl := true
  addr n := UInt64.ofNat (4096 + 128 * n)
  mhs n _ := Int32.ofNat n
  nMhs _ := 10
  behind _ := 0
  monRetrieveResult h := some (if h = 1 then 1 / 10 else 2 / 10)

theorem keeps_best_iff_same : KeepsBest measured 1 [3, 2] :=
  (keeps_best_iff (m := measured) (k := 1) (show 1 ≤ [2, 3].length by decide)).2
    (.inr (.inr (by decide +kernel))) _ (outcome_of_blind (blind_vcmpRtt measured) (.swap 2 3 []))

/-- The worse of two ids is kept: `qsort` may leave the array as it is. -/
theorem not_keeps_best_two :
    ¬ ∀ ys, Outcome (vcmpRtt measured) [2, 1] ys → KeepsBest measured 1 ys := by
  intro h
  have hkept := h [2, 1] (outcome_of_blind (blind_vcmpRtt measured) (.refl _)) 2 (by decide) 1
    (by decide)
  have hworse : ¬ cmpTimes (rtt measured 2) (rtt measured 1) ≤ 0 := by decide +kernel
  exact hworse (cmpTimes_nonpos.2 hkept)

end PeerStreamer.Rtt
