import Mathlib.Data.Finset.Card
import PeerStreamer.CInt
import PeerStreamer.Topology

/-!
# The selection of a neighbourhood

`Selection` holds the arrays that `update_peers` fills one after the other, and the results of the
functions that fill them; `select` computes them for any number `keepSize` of old ids to keep and
any number `desiredPart` of desired ones to add that a `Query` may ask for.  With room for all old
and new ids no array is cut off (`select_eq`), so that every stage is a difference or a union of
sets without repetition.  The portions that `update_peers` asks for are rounded products of numbers
of type `int`, which stay within the query's bounds.
-/

namespace PeerStreamer.NodeidSet

variable {N : Type*} [DecidableEq N] {room : ℕ} {xs ys : List N}

theorem nidsetComplement_eq (h : xs.length ≤ room) :
    nidsetComplement room xs ys = (0, xs.filter (· ∉ ys)) :=
  copyIf_of_length_le _ h

theorem nidsetAdd_eq (h : xs.length + ys.length ≤ room) :
    nidsetAdd room xs ys = (0, xs ++ ys.filter (· ∉ xs)) := by
  have htake : xs.take room = xs := List.take_of_length_le (by omega)
  unfold nidsetAdd
  rw [htake, if_neg (lt_irrefl _), nidsetComplement_eq (by omega)]

/-- New ids with room for them are appended. -/
theorem nidsetAddI_eq (h : xs.length + ys.length ≤ room) (hdisj : ∀ y ∈ ys, y ∉ xs) :
    nidsetAddI room xs ys = (0, xs ++ ys) := by
  have hall : ys.filter (· ∉ xs) = ys := by
    rw [List.filter_eq_self]
    intro y hy
    exact decide_eq_true (hdisj y hy)
  unfold nidsetAddI
  rw [nidsetComplement_eq (by omega), hall]

end PeerStreamer.NodeidSet

namespace PeerStreamer.Topology

open NodeidSet

/-- The arrays of the selection, and what the functions that fill them return. -/
structure Selection (N : Type) where
  oldids : List N
  kept : List N
  nodeids : List N
  candidates : List N
  desireds : List N
  others : List N
  selecteds : List N
  toadds : List N
  toremoves : List N
  results : List Int
  deriving DecidableEq, Repr

def Selection.arrays {N : Type} (r : Selection N) : List (List N) :=
  [r.oldids, r.kept, r.nodeids, r.candidates, r.desireds, r.others, r.selecteds, r.toadds,
    r.toremoves]

variable {N : Type} [DecidableEq N]

/-- The orders in which the old, the desired and the other ids are taken. -/
structure Orders (N : Type) where
  old : Order N
  desired : Order N
  others : Order N

/-- What is selected from.  The old ids and the new ones may overlap. -/
structure Query (N : Type) where
  order : Orders N
  isDesired : N → Bool
  target : Int
  keepSize : ℕ
  desiredPart : Int
  old : List N
  newids : List N
  nodup_old : old.Nodup
  nodup_newids : newids.Nodup
  keepSize_le : keepSize ≤ old.length
  desiredPart_nonneg : 0 ≤ desiredPart
  desiredPart_le : desiredPart ≤ max (target - keepSize) 0

/-- The selection of `update_peers`, with arrays of `maxIds` elements. -/
def select (maxIds : ℕ) (q : Query N) : Selection N :=
  let oldids := q.order.old.sort q.old
  let kept := oldids.take q.keepSize
  let (r₁, nodeids) := nidsetAdd maxIds oldids q.newids
  let (r₂, candidates) := nidsetComplement maxIds nodeids kept
  let (r₃, desireds) := nidsetFilter maxIds candidates q.isDesired
  let desireds := q.order.desired.sort desireds
  let (r₄, selecteds) :=
    nidsetAddI maxIds kept (desireds.take (min ↑desireds.length q.desiredPart).toNat)
  let (r₅, others) := nidsetComplement maxIds candidates selecteds
  let others := q.order.others.sort others
  let randomSize : Int :=
    if q.target ≠ 0 then min ↑others.length (max (q.target - selecteds.length) 0)
    else others.length
  let (r₆, selecteds) := nidsetAddI maxIds selecteds (others.take randomSize.toNat)
  let (r₇, toadds) := nidsetComplement maxIds selecteds oldids
  let (r₈, toremoves) := nidsetComplement maxIds oldids selecteds
  { oldids, kept, nodeids, candidates, desireds, others, selecteds, toadds, toremoves,
    results := [r₁, r₂, r₃, r₄, r₅, r₆, r₇, r₈] }

/-! ## The stages as sets -/

theorem length_filter_not_mem_add {xs ys : List N} (hxs : xs.Nodup) (hys : ys.Nodup)
    (hsub : ys ⊆ xs) : (xs.filter (· ∉ ys)).length + ys.length = xs.length := by
  have hnodup : (xs.filter (· ∉ ys) ++ ys).Nodup := by
    rw [List.nodup_append]
    refine ⟨hxs.filter _, hys, ?_⟩
    rintro x hx y hy rfl
    exact decide_eq_true_iff.1 (List.mem_filter.1 hx).2 hy
  rw [← List.length_append]
  apply List.Perm.length_eq
  rw [List.perm_ext_iff_of_nodup hnodup hxs]
  intro x
  rw [List.mem_append, List.mem_filter, decide_eq_true_iff]
  constructor
  · rintro (⟨hx, -⟩ | hx)
    · exact hx
    · exact hsub hx
  · intro hx
    by_cases h : x ∈ ys
    · exact Or.inr h
    · exact Or.inl ⟨hx, h⟩

namespace Query

variable (q : Query N)

omit [DecidableEq N] in
def oldids : List N := q.order.old.sort q.old

omit [DecidableEq N] in
def kept : List N := q.oldids.take q.keepSize

def nodeids : List N := q.oldids ++ q.newids.filter (· ∉ q.oldids)

def candidates : List N := q.nodeids.filter (· ∉ q.kept)

def desireds : List N := q.order.desired.sort (q.candidates.filter q.isDesired)

/-- The desired ids that are added. -/
def wanted : List N := q.desireds.take (min ↑q.desireds.length q.desiredPart).toNat

def others : List N := q.order.others.sort (q.candidates.filter (· ∉ q.kept ++ q.wanted))

def randomSize : Int :=
  if q.target ≠ 0 then min ↑q.others.length (max (q.target - (q.kept ++ q.wanted).length) 0)
  else q.others.length

def selecteds : List N := (q.kept ++ q.wanted) ++ q.others.take q.randomSize.toNat

omit [DecidableEq N] in
theorem oldids_perm : q.oldids.Perm q.old := q.order.old.perm q.old

omit [DecidableEq N] in
theorem nodup_oldids : q.oldids.Nodup := q.oldids_perm.nodup_iff.2 q.nodup_old

omit [DecidableEq N] in
theorem nodup_kept : q.kept.Nodup := q.nodup_oldids.sublist (List.take_sublist ..)

omit [DecidableEq N] in
theorem length_kept : q.kept.length = q.keepSize := by
  rw [kept, List.length_take, q.oldids_perm.length_eq]
  exact min_eq_left q.keepSize_le

theorem mem_nodeids (x : N) : x ∈ q.nodeids ↔ x ∈ q.old ∨ x ∈ q.newids := by
  rw [nodeids, List.mem_append, List.mem_filter, decide_eq_true_iff, q.oldids_perm.mem_iff]
  tauto

theorem nodup_nodeids : q.nodeids.Nodup := by
  rw [nodeids, List.nodup_append]
  refine ⟨q.nodup_oldids, q.nodup_newids.filter _, ?_⟩
  rintro x hx y hy rfl
  exact decide_eq_true_iff.1 (List.mem_filter.1 hy).2 hx

theorem length_nodeids : q.nodeids.length = (q.old.toFinset ∪ q.newids.toFinset).card := by
  rw [← List.toFinset_card_of_nodup q.nodup_nodeids]
  congr 1
  ext x
  rw [List.mem_toFinset, Finset.mem_union, List.mem_toFinset, List.mem_toFinset, q.mem_nodeids]

theorem length_nodeids_le : q.nodeids.length ≤ q.old.length + q.newids.length := by
  rw [nodeids, List.length_append, q.oldids_perm.length_eq]
  exact Nat.add_le_add_left (List.length_filter_le ..) _

theorem kept_subset : q.kept ⊆ q.nodeids :=
  fun _ hx => List.mem_append_left _ (List.mem_of_mem_take hx)

theorem nodup_candidates : q.candidates.Nodup := q.nodup_nodeids.filter _

theorem mem_candidates {x : N} : x ∈ q.candidates ↔ x ∈ q.nodeids ∧ x ∉ q.kept := by
  rw [candidates, List.mem_filter, decide_eq_true_iff]

theorem length_candidates : q.candidates.length + q.keepSize = q.nodeids.length := by
  rw [← q.length_kept]
  exact length_filter_not_mem_add q.nodup_nodeids q.nodup_kept q.kept_subset

theorem desireds_perm : q.desireds.Perm (q.candidates.filter q.isDesired) :=
  q.order.desired.perm _

theorem nodup_wanted : q.wanted.Nodup :=
  (q.desireds_perm.nodup_iff.2 (q.nodup_candidates.filter _)).sublist (List.take_sublist ..)

theorem mem_wanted {x : N} (h : x ∈ q.wanted) : x ∈ q.candidates ∧ q.isDesired x = true :=
  List.mem_filter.1 (q.desireds_perm.mem_iff.1 (List.mem_of_mem_take h))

theorem length_wanted :
    (q.wanted.length : Int) = min ↑(q.candidates.filter q.isDesired).length q.desiredPart := by
  have hnonneg := q.desiredPart_nonneg
  rw [wanted, List.length_take, q.desireds_perm.length_eq]
  omega

/-- The desired ids come from the candidates, so none was kept. -/
theorem wanted_disjoint : ∀ x ∈ q.wanted, x ∉ q.kept :=
  fun _ hx => (q.mem_candidates.1 (q.mem_wanted hx).1).2

theorem nodup_chosen : (q.kept ++ q.wanted).Nodup := by
  rw [List.nodup_append]
  refine ⟨q.nodup_kept, q.nodup_wanted, ?_⟩
  rintro x hx y hy rfl
  exact q.wanted_disjoint x hy hx

theorem others_perm : q.others.Perm (q.candidates.filter (· ∉ q.wanted)) := by
  have hsame : q.candidates.filter (· ∉ q.kept ++ q.wanted) =
      q.candidates.filter (· ∉ q.wanted) := by
    apply List.filter_congr
    intro x hx
    have hkept := (q.mem_candidates.1 hx).2
    simp [hkept]
  rw [← hsame]
  exact q.order.others.perm _

theorem nodup_others : q.others.Nodup :=
  q.others_perm.nodup_iff.2 (q.nodup_candidates.filter _)

theorem length_others : q.others.length + q.wanted.length = q.candidates.length := by
  rw [q.others_perm.length_eq]
  exact length_filter_not_mem_add q.nodup_candidates q.nodup_wanted fun _ hx =>
    (q.mem_wanted hx).1

theorem others_disjoint : ∀ x ∈ q.others, x ∈ q.candidates ∧ x ∉ q.kept ++ q.wanted := by
  intro x hx
  obtain ⟨hcand, hnot⟩ := List.mem_filter.1 (q.others_perm.mem_iff.1 hx)
  rw [decide_eq_true_iff] at hnot
  rw [List.mem_append, not_or]
  exact ⟨hcand, (q.mem_candidates.1 hcand).2, hnot⟩

theorem randomSize_nonneg : 0 ≤ q.randomSize := by
  unfold randomSize
  split_ifs
  · omega
  · omega

theorem randomSize_le : q.randomSize ≤ q.others.length := by
  unfold randomSize
  split_ifs
  · omega
  · omega

theorem length_selecteds :
    (q.selecteds.length : Int) = q.keepSize + q.wanted.length + q.randomSize := by
  have hnonneg := q.randomSize_nonneg
  have hle := q.randomSize_le
  rw [selecteds, List.length_append, List.length_append, List.length_take, q.length_kept]
  omega

theorem nodup_selecteds : q.selecteds.Nodup := by
  rw [selecteds, List.nodup_append]
  refine ⟨q.nodup_chosen, q.nodup_others.sublist (List.take_sublist ..), ?_⟩
  rintro x hx y hy rfl
  exact (q.others_disjoint x (List.mem_of_mem_take hy)).2 hx

theorem selecteds_subset : q.selecteds ⊆ q.nodeids := by
  intro x hx
  rcases List.mem_append.1 hx with hx | hx
  · rcases List.mem_append.1 hx with hx | hx
    · exact q.kept_subset hx
    · exact (q.mem_candidates.1 (q.mem_wanted hx).1).1
  · exact (q.mem_candidates.1 (q.others_disjoint x (List.mem_of_mem_take hx)).1).1

/-- With a target the neighbourhood is filled up to it, unless more was kept or less is known. -/
theorem length_selecteds_of_target (h : q.target ≠ 0) :
    (q.selecteds.length : Int) = min ↑q.nodeids.length (max q.target q.keepSize) := by
  have hlen := q.length_selecteds
  have hcand := q.length_candidates
  have hothers := q.length_others
  have hwanted := q.length_wanted
  have hpart := q.desiredPart_le
  have hrandom : q.randomSize = min (q.others.length : Int)
      (max (q.target - (q.kept ++ q.wanted).length) 0) := if_pos h
  rw [List.length_append, q.length_kept] at hrandom
  push_cast at hrandom
  omega

theorem length_selecteds_of_zero (h : q.target = 0) :
    q.selecteds.length = q.nodeids.length := by
  have hlen := q.length_selecteds
  have hcand := q.length_candidates
  have hothers := q.length_others
  have hrandom : q.randomSize = q.others.length := if_neg (not_not.2 h)
  omega

/-- At least as many desired ids as were asked for are added, or all there are. -/
theorem le_length_desired : min q.desiredPart (q.candidates.filter q.isDesired).length ≤
    ((q.selecteds.filter fun x => x ∈ q.candidates ∧ q.isDesired x = true).length : Int) := by
  rw [min_comm, ← q.length_wanted, Nat.cast_le]
  refine (q.nodup_wanted.subperm fun x hx => ?_).length_le
  rw [List.mem_filter, decide_eq_true_iff]
  exact ⟨List.mem_append_left _ (List.mem_append_right _ hx), q.mem_wanted hx⟩

theorem length_selecteds_le : q.selecteds.length ≤ q.old.length + q.newids.length :=
  (q.nodup_selecteds.subperm q.selecteds_subset).length_le.trans q.length_nodeids_le

end Query

/-! ## The arrays -/

/-- With room for all old and new ids no array is cut off. -/
theorem select_eq {maxIds : ℕ} (q : Query N) (h : q.old.length + q.newids.length ≤ maxIds) :
    select maxIds q =
      { oldids := q.oldids
        kept := q.kept
        nodeids := q.nodeids
        candidates := q.candidates
        desireds := q.desireds
        others := q.others
        selecteds := q.selecteds
        toadds := q.selecteds.filter (· ∉ q.oldids)
        toremoves := q.oldids.filter (· ∉ q.selecteds)
        results := List.replicate 8 0 } := by
  have hold : q.oldids.length = q.old.length := q.oldids_perm.length_eq
  have hnode := q.length_nodeids_le
  have hcand : q.candidates.length ≤ q.nodeids.length := List.length_filter_le ..
  have hsplit := q.length_candidates
  have hothers := q.length_others
  have hkept := q.length_kept
  have h₁ : nidsetAdd maxIds q.oldids q.newids = (0, q.nodeids) := nidsetAdd_eq (by omega)
  have h₂ : nidsetComplement maxIds q.nodeids q.kept = (0, q.candidates) :=
    nidsetComplement_eq (by omega)
  have h₃ : nidsetFilter maxIds q.candidates q.isDesired =
      (0, q.candidates.filter q.isDesired) := copyIf_of_length_le _ (by omega)
  have h₄ : nidsetAddI maxIds q.kept q.wanted = (0, q.kept ++ q.wanted) :=
    nidsetAddI_eq (by omega) q.wanted_disjoint
  have h₅ : nidsetComplement maxIds q.candidates (q.kept ++ q.wanted) =
      (0, q.candidates.filter (· ∉ q.kept ++ q.wanted)) := nidsetComplement_eq (by omega)
  have h₆ : nidsetAddI maxIds (q.kept ++ q.wanted) (q.others.take q.randomSize.toNat) =
      (0, q.selecteds) := by
    refine nidsetAddI_eq ?_ fun x hx => (q.others_disjoint x (List.mem_of_mem_take hx)).2
    rw [List.length_append, List.length_take]
    omega
  have h₇ : nidsetComplement maxIds q.selecteds q.oldids =
      (0, q.selecteds.filter (· ∉ q.oldids)) :=
    nidsetComplement_eq (q.length_selecteds_le.trans h)
  have h₈ : nidsetComplement maxIds q.oldids q.selecteds =
      (0, q.oldids.filter (· ∉ q.selecteds)) := nidsetComplement_eq (by omega)
  have hsort : q.order.old.sort q.old = q.oldids := rfl
  have htake : q.oldids.take q.keepSize = q.kept := rfl
  have hdesireds : q.order.desired.sort (q.candidates.filter q.isDesired) = q.desireds := rfl
  have hwanted : q.desireds.take (min ↑q.desireds.length q.desiredPart).toNat = q.wanted := rfl
  have hsorted : q.order.others.sort (q.candidates.filter (· ∉ q.kept ++ q.wanted)) = q.others :=
    rfl
  have hrandom : (if q.target ≠ 0 then
      min (q.others.length : Int) (max (q.target - (q.kept ++ q.wanted).length) 0)
      else q.others.length) = q.randomSize := rfl
  simp only [select, hsort, htake, h₁, h₂, h₃, hdesireds, hwanted, h₄, h₅, hsorted, hrandom, h₆, h₇,
    h₈]
  rfl

/-- The selection is a set of known ids with the kept ones in it, as many of the desired ones as
were asked for, and the size that the target asks for; no array is exceeded. -/
theorem select_spec (maxIds : ℕ) (q : Query N) (h : q.old.length + q.newids.length ≤ maxIds) :
    (select maxIds q).selecteds.Nodup ∧
    (∀ x ∈ (select maxIds q).selecteds, x ∈ q.old ∨ x ∈ q.newids) ∧
    (select maxIds q).kept.length = q.keepSize ∧
    (∀ x ∈ (select maxIds q).kept, x ∈ q.old ∧ x ∈ (select maxIds q).selecteds) ∧
    (∀ x, x ∈ (select maxIds q).candidates ↔
      (x ∈ q.old ∨ x ∈ q.newids) ∧ x ∉ (select maxIds q).kept) ∧
    min q.desiredPart ((select maxIds q).candidates.filter q.isDesired).length ≤
      (((select maxIds q).selecteds.filter fun x =>
        x ∈ (select maxIds q).candidates ∧ q.isDesired x = true).length : Int) ∧
    (q.target ≠ 0 → ((select maxIds q).selecteds.length : Int) =
      min ↑(q.old.toFinset ∪ q.newids.toFinset).card (max q.target q.keepSize)) ∧
    (q.target = 0 → (select maxIds q).selecteds.length =
      (q.old.toFinset ∪ q.newids.toFinset).card) ∧
    (∀ r ∈ (select maxIds q).results, r = 0) ∧
    ∀ a ∈ (select maxIds q).arrays, a.length ≤ maxIds := by
  have hnode := q.length_nodeids_le
  have hcand := q.length_candidates
  rw [select_eq q h]
  refine ⟨q.nodup_selecteds, fun x hx => (q.mem_nodeids x).1 (q.selecteds_subset hx), q.length_kept,
    fun x hx => ⟨?_, List.mem_append_left _ (List.mem_append_left _ hx)⟩, fun x => ?_,
    q.le_length_desired, fun hT => ?_, fun hT => ?_, fun r hr => List.eq_of_mem_replicate hr, ?_⟩
  · exact q.oldids_perm.mem_iff.1 (List.mem_of_mem_take hx)
  · rw [← q.mem_nodeids]
    exact q.mem_candidates
  · rw [← q.length_nodeids]
    exact q.length_selecteds_of_target hT
  · rw [← q.length_nodeids]
    exact q.length_selecteds_of_zero hT
  · have hold : q.oldids.length = q.old.length := q.oldids_perm.length_eq
    have hkept := q.length_kept
    have hothers := q.length_others
    have hdesired : q.desireds.length ≤ q.candidates.length := by
      rw [q.desireds_perm.length_eq]
      exact List.length_filter_le ..
    have hsel := q.length_selecteds_le
    have hadds : (q.selecteds.filter (· ∉ q.oldids)).length ≤ q.selecteds.length :=
      List.length_filter_le ..
    have hremoves : (q.oldids.filter (· ∉ q.selecteds)).length ≤ q.oldids.length :=
      List.length_filter_le ..
    simp only [Selection.arrays, List.forall_mem_cons]
    refine ⟨?_, ?_, ?_, ?_, ?_, ?_, ?_, ?_, ?_, List.forall_mem_nil _⟩
    all_goals omega

/-- Two of four old ids are kept, and the target of three leaves room for one desired id. -/
def overlapping : Query ℕ where
  order := ⟨⟨List.reverse, List.reverse_perm⟩, ⟨id, .refl⟩, ⟨id, .refl⟩⟩
  isDesired n := n = 9
  target := 3
  keepSize := 2
  desiredPart := 1
  old := [1, 2, 3, 4]
  newids := [4, 2, 8, 9]
  nodup_old := by decide
  nodup_newids := by decide
  keepSize_le := by decide
  desiredPart_nonneg := by decide
  desiredPart_le := by decide

theorem select_spec_overlapping :
    (select 8 overlapping).selecteds.Nodup ∧ (∀ r ∈ (select 8 overlapping).results, r = 0) := by
  obtain ⟨hnodup, -, -, -, -, -, -, -, hresults, -⟩ := select_spec 8 overlapping (by decide)
  exact ⟨hnodup, hresults⟩

example : (select 8 overlapping).selecteds = [4, 3, 9] := by decide

/-! ## The selection of the code -/

section Code

variable {P S : Type} [PeerSet P N S]

omit [DecidableEq N] in
theorem trunc_nonneg {x : ℚ} (h : 0 ≤ x) : 0 ≤ trunc x := by
  rw [trunc, if_pos h]
  exact Int.floor_nonneg.2 h

omit [DecidableEq N] in
theorem trunc_le_self {x : ℚ} (h : 0 ≤ x) : (trunc x : ℚ) ≤ x := by
  rw [trunc, if_pos h]
  exact Int.floor_le x

omit [DecidableEq N] in
theorem trunc_le {x : ℚ} {n : Int} (h : 0 ≤ x) (hx : x ≤ n) : trunc x ≤ n := by
  rw [trunc, if_pos h]
  exact_mod_cast (Int.floor_le x).trans hx

omit [DecidableEq N] in
/-- The portion that is kept, but for the rounding of the product. -/
theorem keepSize_le_mul (cfg : Config) (n : ℕ) :
    (keepSize cfg n : ℚ) ≤ cfg.topoMem * (1 + 1 / 2 ^ 53) * n := by
  have hnonneg : 0 ≤ cfg.topoMem * n := mul_nonneg cfg.topoMem_nonneg (Nat.cast_nonneg n)
  have htrunc : 0 ≤ trunc (Double.mul cfg.topoMem n) := trunc_nonneg (Double.round_nonneg hnonneg)
  have hcast : (keepSize cfg n : Int) = trunc (Double.mul cfg.topoMem n) :=
    Int.toNat_of_nonneg htrunc
  calc (keepSize cfg n : ℚ) = (trunc (Double.mul cfg.topoMem n) : ℚ) := by exact_mod_cast hcast
    _ ≤ Double.mul cfg.topoMem n := trunc_le_self (Double.round_nonneg hnonneg)
    _ ≤ cfg.topoMem * n * (1 + 1 / 2 ^ 53) := Double.round_le hnonneg
    _ = cfg.topoMem * (1 + 1 / 2 ^ 53) * n := by ring

omit [DecidableEq N] in
/-- The numbers of type `int` are so small that rounding does not add one. -/
theorem keepSize_le (cfg : Config) {n : ℕ} (hn : n ≤ INT_MAX) : keepSize cfg n ≤ n := by
  have hn' : (n : ℚ) ≤ 2 ^ 31 := by
    unfold INT_MAX at hn
    exact_mod_cast (by omega : n ≤ 2 ^ 31)
  have hshare : cfg.topoMem * (1 + 1 / 2 ^ 53) * n ≤ 1 * (1 + 1 / 2 ^ 53) * n := by
    gcongr
    exact cfg.topoMem_le_one
  have hlt : (keepSize cfg n : ℚ) < (n + 1 : ℕ) := by
    push_cast
    linarith [keepSize_le_mul cfg n]
  exact Nat.le_of_lt_succ (by exact_mod_cast hlt)

omit [DecidableEq N] in
theorem desiredPart_bounds {cfg : Config} (h0 : 0 ≤ cfg.alphaTarget) (h1 : cfg.alphaTarget ≤ 1)
    (hT : cfg.neighborhoodTargetSize ≤ INT_MAX) (n : ℕ) : 0 ≤ desiredPart cfg n ∧
      desiredPart cfg n ≤ max (cfg.neighborhoodTargetSize - n) 0 := by
  set part := Double.sub 1 cfg.alphaTarget with hpart
  have hpart0 : 0 ≤ part := Double.round_nonneg (sub_nonneg.2 h1)
  have hpart1 : part ≤ 1 + 1 / 2 ^ 53 := by
    have hle : part ≤ (1 - cfg.alphaTarget) * (1 + 1 / 2 ^ 53) :=
      Double.round_le (sub_nonneg.2 h1)
    linarith
  -- a number of type `int` that is not negative
  obtain ⟨k, hk⟩ : ∃ k : ℕ, (if cfg.neighborhoodTargetSize ≠ 0 then missing cfg n else 0) = k := by
    apply Int.eq_ofNat_of_zero_le
    split_ifs
    · exact le_max_right ..
    · exact le_rfl
  have hkmax : (k : Int) ≤ max (cfg.neighborhoodTargetSize - n) 0 := by
    rw [← hk]
    split_ifs
    · exact le_rfl
    · exact le_max_right ..
  have hsmall : (k : ℚ) ≤ 2 ^ 31 := by
    unfold INT_MAX at hT
    exact_mod_cast (by omega : k ≤ 2 ^ 31)
  have hprod : 0 ≤ part * k := mul_nonneg hpart0 (Nat.cast_nonneg k)
  have hmul : 0 ≤ Double.mul part k := Double.round_nonneg hprod
  have hlt : (trunc (Double.mul part k) : ℚ) < ((k : Int) + 1 : Int) := by
    calc (trunc (Double.mul part k) : ℚ) ≤ Double.mul part k := trunc_le_self hmul
      _ ≤ part * k * (1 + 1 / 2 ^ 53) := Double.round_le hprod
      _ ≤ (1 + 1 / 2 ^ 53) * k * (1 + 1 / 2 ^ 53) := by gcongr
      _ < ((k : Int) + 1 : Int) := by
        push_cast
        linarith
  rw [desiredPart, hk, Int.cast_natCast]
  exact ⟨trunc_nonneg hmul, (Int.le_of_lt_add_one (Int.cast_lt.1 hlt)).trans hkmax⟩

def shuffleOrder (rand : ℕ → Fin (RAND_MAX + 1)) : Order N :=
  ⟨nidsetShuffle rand, nidsetShuffle_perm rand⟩

def arrangeOrder (best : Bool) (c : Choices N) (k : ℕ) : Order N :=
  if best then c.qsort else shuffleOrder (c.rand k)

omit [DecidableEq N] in
theorem arrangeOrder_sort (best : Bool) (c : Choices N) (k : ℕ) (ids : List N) :
    (arrangeOrder best c k).sort ids = arrange best c k ids := by
  unfold arrangeOrder arrange
  split_ifs <;> rfl

/-- What `update_peers` asks for. -/
def query (cfg : Config) (h0 : 0 ≤ cfg.alphaTarget) (h1 : cfg.alphaTarget ≤ 1)
    (hT : cfg.neighborhoodTargetSize ≤ INT_MAX) (c : Choices N)
    (hnew : (c.newids.map Prod.fst).Nodup) (pset : P) (old : List N) (hold : old.Nodup)
    (hkeep : keepSize cfg old.length ≤ old.length) : Query N where
  order := ⟨arrangeOrder cfg.topoKeepBest c 0, arrangeOrder cfg.topoAddBest c 1,
    shuffleOrder (c.rand 2)⟩
  isDesired := isDesired cfg c pset
  target := cfg.neighborhoodTargetSize
  keepSize := keepSize cfg old.length
  desiredPart := desiredPart cfg (keepSize cfg old.length)
  old := old
  newids := c.newids.map Prod.fst
  nodup_old := hold
  nodup_newids := hnew
  keepSize_le := hkeep
  desiredPart_nonneg := (desiredPart_bounds h0 h1 hT _).1
  desiredPart_le := (desiredPart_bounds h0 h1 hT _).2

/-- The ids that `update_peers` selects are those of its query. -/
theorem selecteds_eq_select (cfg : Config) (h0 : 0 ≤ cfg.alphaTarget) (h1 : cfg.alphaTarget ≤ 1)
    (hT : cfg.neighborhoodTargetSize ≤ INT_MAX) (c : Choices N)
    (hnew : (c.newids.map Prod.fst).Nodup) (pset : P) (maxIds : ℕ) (old : List N)
    (hold : old.Nodup) (hkeep : keepSize cfg old.length ≤ old.length) :
    selecteds cfg c pset maxIds (arrange cfg.topoKeepBest c 0 old) =
      (select maxIds (query cfg h0 h1 hT c hnew pset old hold hkeep)).selecteds := by
  have hlen : (arrange cfg.topoKeepBest c 0 old).length = old.length :=
    (arrangeOrder_sort cfg.topoKeepBest c 0 old ▸ (arrangeOrder cfg.topoKeepBest c 0).perm old :
      (arrange cfg.topoKeepBest c 0 old).Perm old).length_eq
  have hkept : ((arrange cfg.topoKeepBest c 0 old).take (keepSize cfg old.length)).length =
      keepSize cfg old.length := by
    rw [List.length_take, hlen]
    exact min_eq_left hkeep
  simp only [selecteds, select, query, arrangeOrder_sort, hlen, hkept, randomSize, missing]
  rfl

end Code

end PeerStreamer.Topology
