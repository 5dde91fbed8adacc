import Mathlib.Data.List.Perm.Subperm
import Mathlib.Data.List.Sort
import PeerStreamer.TopologyAlto
import PeerStreamer.TopologySelection

/-!
# The list built from an ALTO answer

`PeerSelectorALTO` moves entries from `currentNeighborhood` to `altoList`, so that the two together
stay a permutation of the neighbourhood (`Building.ids`).  The answer rates the addresses of the
entries (`Pending`): between a query and its answer the neighbourhood is not rebuilt.

The comparison for `qsort` subtracts the ratings.  The best rated addresses come first as long as
the difference of two ratings is an `int` (`Call.Subtractable`).
-/

namespace PeerStreamer.TopologyAlto

open Timeval PeerStreamer.Topology

variable {N P S : Type} {cfg : Config N} {call : Call N} {s s' : State N P}
  {ns ns' : List (Option N)} {n : N} {p size k : ℕ} {gs : List Guidance} {b b' : Building N}
  {draws rest : List ℕ}

/-! ## Entries that are taken out -/

/-- The entry that is found has the address, and it is taken out. -/
theorem findAltoPeer_some {a : UInt32} (h : findAltoPeer cfg a ns = (some n, ns')) :
    cfg.host n = a ∧ (n :: ns'.reduceOption).Perm ns.reduceOption := by
  induction ns generalizing ns' with
  | nil => cases h
  | cons o ns ih =>
    cases o with
    | none =>
      obtain ⟨hfound, rfl⟩ := Prod.mk.inj h
      rw [List.reduceOption_cons_of_none, List.reduceOption_cons_of_none]
      exact ih (Prod.ext hfound rfl)
    | some m =>
      rw [findAltoPeer] at h
      split_ifs at h with hhost
      · obtain ⟨hm, rfl⟩ := Prod.mk.inj h
        obtain rfl := Option.some.inj hm
        rw [List.reduceOption_cons_of_none, List.reduceOption_cons_of_some]
        exact ⟨hhost, .refl _⟩
      · obtain ⟨hfound, rfl⟩ := Prod.mk.inj h
        obtain ⟨hn, hperm⟩ := ih (Prod.ext hfound rfl)
        rw [List.reduceOption_cons_of_some, List.reduceOption_cons_of_some]
        exact ⟨hn, (List.Perm.swap ..).trans (hperm.cons m)⟩

theorem findAltoPeer_isSome {a : UInt32} (h : a ∈ ns.reduceOption.map cfg.host) :
    ∃ n ns', findAltoPeer cfg a ns = (some n, ns') := by
  induction ns with
  | nil => simp at h
  | cons o ns ih =>
    cases o with
    | none =>
      rw [List.reduceOption_cons_of_none] at h
      obtain ⟨n, ns', hn⟩ := ih h
      exact ⟨n, none :: ns', by rw [findAltoPeer, hn]⟩
    | some m =>
      rw [List.reduceOption_cons_of_some, List.map_cons, List.mem_cons] at h
      by_cases hm : cfg.host m = a
      · exact ⟨m, none :: ns, by rw [findAltoPeer, if_pos hm]⟩
      · obtain ⟨n, ns', hn⟩ := ih (h.resolve_left (Ne.symm hm))
        exact ⟨n, some m :: ns', by rw [findAltoPeer, if_neg hm, hn]⟩

theorem pick_ok (h : pick ns draws = .ok (p, n, rest)) : p < ns.length ∧ ns[p]? = some (some n) := by
  induction draws with
  | nil => cases h
  | cons r draws ih =>
    rw [pick] at h
    split at h
    · rename_i m hm
      obtain ⟨rfl, rfl, rfl⟩ : r % ns.length = p ∧ m = n ∧ draws = rest := by simpa using h
      exact ⟨(List.getElem?_eq_some_iff.1 hm).1, hm⟩
    · exact ih h

theorem pick_error {f : Fault} (h : pick ns draws = .error f) : f = .outOfFuel := by
  induction draws with
  | nil => exact (Except.error.inj h).symm
  | cons r draws ih =>
    rw [pick] at h
    split at h
    · cases h
    · exact ih h

/-- An entry that is there is picked when its index is drawn. -/
theorem pick_index (h : ns[p]? = some (some n)) (draws : List ℕ) :
    pick ns (p :: draws) = .ok (p, n, draws) := by
  have hp : p % ns.length = p := Nat.mod_eq_of_lt (List.getElem?_eq_some_iff.1 h).1
  rw [pick, hp, h]

theorem perm_reduceOption_set (h : ns[p]? = some (some n)) :
    (n :: (ns.set p none).reduceOption).Perm ns.reduceOption := by
  induction ns generalizing p with
  | nil => simp at h
  | cons o ns ih =>
    cases p with
    | zero =>
      obtain rfl : o = some n := by simpa using h
      rw [List.set_cons_zero, List.reduceOption_cons_of_none, List.reduceOption_cons_of_some]
    | succ p =>
      have hperm := ih (by simpa using h)
      rw [List.set_cons_succ]
      cases o with
      | none =>
        rw [List.reduceOption_cons_of_none, List.reduceOption_cons_of_none]
        exact hperm
      | some m =>
        rw [List.reduceOption_cons_of_some, List.reduceOption_cons_of_some]
        exact (List.Perm.swap ..).trans (hperm.cons m)

/-! ## The two loops -/

/-- The entries in `altoList` and the ones that are left. -/
def Building.ids (b : Building N) : List N := b.altoList ++ b.neighborhood.reduceOption

theorem Building.push_ok (h : b.altoList.length < size) (n : N) (ns : List (Option N)) :
    b.push size n ns = .ok ⟨ns, b.altoList ++ [n]⟩ :=
  if_pos h

/-- A move of an entry. -/
theorem ids_move (b : Building N) (h : (n :: ns.reduceOption).Perm b.neighborhood.reduceOption) :
    (Building.ids ⟨ns, b.altoList ++ [n]⟩).Perm b.ids := by
  rw [Building.ids, Building.ids, List.append_assoc]
  exact h.append_left b.altoList

/-- When there is an entry for each address, the loop adds one for each. -/
theorem altoLoop_spec (hroom : b.altoList.length + gs.length ≤ size)
    (hsub : (gs.map Guidance.altoHost).Subperm (b.neighborhood.reduceOption.map cfg.host)) :
    ∃ b' added, altoLoop cfg size gs b = .ok b' ∧ b'.altoList = b.altoList ++ added ∧
      added.map cfg.host = gs.map Guidance.altoHost ∧ b'.ids.Perm b.ids := by
  induction gs generalizing b with
  | nil => exact ⟨b, [], rfl, (List.append_nil _).symm, rfl, .refl _⟩
  | cons g gs ih =>
    rw [List.length_cons] at hroom
    have hmem : g.altoHost ∈ b.neighborhood.reduceOption.map cfg.host :=
      hsub.subset (List.mem_cons_self ..)
    obtain ⟨n, ns, hfind⟩ := findAltoPeer_isSome hmem
    obtain ⟨hhost, hperm⟩ := findAltoPeer_some hfind
    have hrest : (gs.map Guidance.altoHost).Subperm (ns.reduceOption.map cfg.host) := by
      have hcons := hsub.trans (hperm.map cfg.host).symm.subperm
      rw [List.map_cons, List.map_cons, hhost] at hcons
      exact (List.subperm_cons _).1 hcons
    have hlen : (b.altoList ++ [n]).length + gs.length ≤ size := by
      rw [List.length_append, List.length_singleton]
      omega
    obtain ⟨b', added, hloop, hlist, hadded, hids⟩ := ih (b := ⟨ns, b.altoList ++ [n]⟩) hlen hrest
    refine ⟨b', n :: added, ?_, ?_, ?_, hids.trans (ids_move b hperm)⟩
    · have hpush : b.push size n ns = .ok ⟨ns, b.altoList ++ [n]⟩ := Building.push_ok (by omega) n ns
      simp only [altoLoop, hfind, hpush, hloop, bind, Except.bind]
    · rw [hlist, List.append_assoc, List.singleton_append]
    · rw [List.map_cons, List.map_cons, hhost, hadded]

/-- A pick and the store of its entry. -/
theorem randLoop_succ_ok (h : randLoop size (k + 1) draws b = .ok (b', rest)) :
    ∃ p n draws', b.neighborhood[p]? = some (some n) ∧
      randLoop size k draws' ⟨b.neighborhood.set p none, b.altoList ++ [n]⟩ = .ok (b', rest) := by
  obtain ⟨⟨p, n, draws'⟩, hpick, h⟩ := bind_eq_ok.1 h
  obtain ⟨b₁, hpush, h⟩ := bind_eq_ok.1 h
  unfold Building.push at hpush
  split_ifs at hpush
  obtain rfl := Except.ok.inj hpush
  exact ⟨p, n, draws', (pick_ok hpick).2, h⟩

theorem randLoop_spec (h : randLoop size k draws b = .ok (b', rest)) :
    ∃ added, b'.altoList = b.altoList ++ added ∧ added.length = k ∧ b'.ids.Perm b.ids := by
  induction k generalizing draws b with
  | zero =>
    obtain ⟨rfl, rfl⟩ : b = b' ∧ draws = rest := by simpa [randLoop] using h
    exact ⟨[], (List.append_nil _).symm, rfl, .refl _⟩
  | succ k ih =>
    obtain ⟨p, n, draws', hn, hrest⟩ := randLoop_succ_ok h
    obtain ⟨added, hlist, hlen, hids⟩ := ih hrest
    refine ⟨n :: added, ?_, congrArg (· + 1) hlen,
      hids.trans (ids_move b (perm_reduceOption_set hn))⟩
    rw [hlist, List.append_assoc, List.singleton_append]

/-- With room for all picks only the draws can run out. -/
theorem randLoop_error {f : Fault} (hroom : b.altoList.length + k ≤ size)
    (h : randLoop size k draws b = .error f) : f = .outOfFuel := by
  induction k generalizing draws b with
  | zero => cases h
  | succ k ih =>
    obtain hpick | ⟨⟨p, n, draws'⟩, -, h⟩ := bind_eq_error.1 h
    · exact pick_error hpick
    · have hpush := Building.push_ok (show b.altoList.length < size by omega) n
        (b.neighborhood.set p none)
      obtain h | ⟨b₁, hb₁, h⟩ := bind_eq_error.1 h
      · rw [hpush] at h
        cases h
      · obtain rfl := Except.ok.inj (hpush.symm.trans hb₁)
        refine ih ?_ h
        rw [List.length_append, List.length_singleton]
        omega

/-- There are draws with which the loop returns when enough entries are left. -/
theorem exists_randLoop (hroom : b.altoList.length + k ≤ size)
    (hk : k ≤ b.neighborhood.reduceOption.length) :
    ∃ draws b', randLoop size k draws b = .ok (b', []) := by
  induction k generalizing b with
  | zero => exact ⟨[], b, rfl⟩
  | succ k ih =>
    obtain ⟨n, hn⟩ := List.exists_mem_of_length_pos (Nat.lt_of_lt_of_le (Nat.succ_pos k) hk)
    obtain ⟨p, hp⟩ := List.mem_iff_getElem?.1 (List.reduceOption_mem_iff.1 hn)
    have hperm := perm_reduceOption_set hp
    have hlen := hperm.length_eq
    rw [List.length_cons] at hlen
    have hroom' : (b.altoList ++ [n]).length + k ≤ size := by
      rw [List.length_append, List.length_singleton]
      omega
    have hk' : k ≤ (b.neighborhood.set p none).reduceOption.length := by omega
    obtain ⟨draws, b', hloop⟩ := ih (b := ⟨b.neighborhood.set p none, b.altoList ++ [n]⟩) hroom' hk'
    have hpush := Building.push_ok (show b.altoList.length < size by omega) n
      (b.neighborhood.set p none)
    refine ⟨p :: draws, b', ?_⟩
    simp only [randLoop, pick_index hp, hpush, hloop, bind, Except.bind]

/-! ## The sizes -/

theorem listSize_le (cfg : Config N) (c : ℕ) : listSize cfg c ≤ c := by
  unfold listSize
  split_ifs <;> omega

theorem altoBucketSize_le (cfg : Config N) (h : size ≤ ALTO_MAX_PEERS) :
    altoBucketSize cfg size ≤ size := by
  have hsize : (0 : ℚ) ≤ size := Nat.cast_nonneg size
  have hnonneg : 0 ≤ cfg.round (size * cfg.altoFactor) := by
    have hmono := cfg.round_mono (mul_nonneg hsize cfg.altoFactor_nonneg)
    rwa [← Nat.cast_zero, cfg.round_natCast 0 (Nat.zero_le _), Nat.cast_zero] at hmono
  have hle : cfg.round (size * cfg.altoFactor) ≤ ((size : Int) : ℚ) := by
    have hmono := cfg.round_mono (mul_le_of_le_one_right hsize cfg.altoFactor_le_one)
    rw [cfg.round_natCast size h] at hmono
    exact_mod_cast hmono
  have htrunc := trunc_le hnonneg hle
  unfold altoBucketSize
  omega

/-! ## The answer -/

theorem map_altoHost_rated (rating : ℕ → Int) (gs : List Guidance) :
    (rated rating gs).map Guidance.altoHost = gs.map Guidance.altoHost := by
  rw [rated, List.mapIdx_eq_zipIdx_map, List.map_map]
  show gs.zipIdx.map (Guidance.altoHost ∘ Prod.fst) = _
  rw [← List.map_map, List.zipIdx_map_fst]

/-- The entries of the neighbourhood are there, once each, and their addresses are the ones that
were asked about. -/
structure Pending (cfg : Config N) (ids : List N) (s : State N P) : Prop where
  neighborhood : s.currentNeighborhood = ids.map some
  nodup : ids.Nodup
  hosts : (s.peers.take ids.length).map Guidance.altoHost = ids.map cfg.host
  le_max : ids.length ≤ ALTO_MAX_PEERS

variable {ids : List N}

/-- An entry of `currentNeighborhood` is about to be picked at random. -/
def Picking (cfg : Config N) (call : Call N) (s : State N P) (b : Building N) : Prop :=
  let size := listSize cfg s.currentNeighborhood.length
  let bucket := altoBucketSize cfg size
  ∃ k < size - bucket, ∃ b₀ rest,
    altoLoop cfg size ((sortedPeers call s).take bucket) ⟨s.currentNeighborhood, []⟩ = .ok b₀ ∧
      randLoop size k call.draws b₀ = .ok (b, rest)

/-- The list is built from the neighbourhood `ids`. -/
structure Selects (cfg : Config N) (call : Call N) (s : State N P) (ids : List N) : Prop
    extends Pending cfg ids s where
  rated : (sortedPeers call s).Perm (rated call.rating (s.peers.take ids.length))
  /-- No store leaves `altoList` and no NULL pointer is met. -/
  in_bounds : ∀ f, buildList cfg call s = .error f → f = .outOfFuel
  pickable : ∀ b, Picking cfg call s b → ∃ n, some n ∈ b.neighborhood
  returns : ∃ draws s', buildList cfg { call with draws := draws } s = .ok s'
  length : ∀ s', buildList cfg call s = .ok s' → s'.altoList.length =
    if 0 < cfg.target ∧ cfg.target < ids.length then cfg.target.toNat else ids.length
  distinct : ∀ s', buildList cfg call s = .ok s' → s'.altoList.Nodup
  bucket : ∀ s', buildList cfg call s = .ok s' →
    let size := altoBucketSize cfg s'.altoList.length
    size ≤ s'.altoList.length ∧
      (s'.altoList.take size).map cfg.host = ((sortedPeers call s).take size).map Guidance.altoHost
  split : ∀ s', buildList cfg call s = .ok s' →
    (s'.altoList ++ s'.currentNeighborhood.reduceOption).Perm ids

theorem reduceOption_map_some (ids : List N) : (ids.map some).reduceOption = ids := by
  rw [List.reduceOption, List.filterMap_map]
  exact List.filterMap_some

namespace Pending

variable (h : Pending cfg ids s)

include h

theorem length_eq : s.currentNeighborhood.length = ids.length := by
  rw [h.neighborhood, List.length_map]

theorem bucket_le :
    altoBucketSize cfg (listSize cfg s.currentNeighborhood.length) ≤
      listSize cfg s.currentNeighborhood.length := by
  apply altoBucketSize_le
  have hsize := listSize_le cfg s.currentNeighborhood.length
  have hmax := h.le_max
  rw [← h.length_eq] at hmax
  exact hsize.trans hmax

theorem rated_perm (call : Call N) :
    (sortedPeers call s).Perm (rated call.rating (s.peers.take ids.length)) := by
  rw [← h.length_eq]
  exact (call.qsort.outcome _).perm

theorem hosts_perm (call : Call N) :
    ((sortedPeers call s).map Guidance.altoHost).Perm (ids.map cfg.host) := by
  have hperm := (h.rated_perm call).map Guidance.altoHost
  rwa [map_altoHost_rated, h.hosts] at hperm

/-- The first loop finds an entry for each address. -/
theorem altoLoop (call : Call N) (hbucket : k ≤ size) :
    ∃ b, altoLoop cfg size ((sortedPeers call s).take k) ⟨s.currentNeighborhood, []⟩ = .ok b ∧
      b.altoList.map cfg.host = ((sortedPeers call s).take k).map Guidance.altoHost ∧
      b.ids.Perm ids := by
  have hroom : ([] : List N).length + ((sortedPeers call s).take k).length ≤ size := by
    rw [List.length_nil, List.length_take]
    omega
  have hsub : (((sortedPeers call s).take k).map Guidance.altoHost).Subperm
      (s.currentNeighborhood.reduceOption.map cfg.host) := by
    rw [h.neighborhood, reduceOption_map_some]
    exact ((List.take_sublist ..).map _).subperm.trans (h.hosts_perm call).subperm
  obtain ⟨b, added, hloop, hlist, hadded, hids⟩ := altoLoop_spec
    (b := ⟨s.currentNeighborhood, []⟩) hroom hsub
  rw [List.nil_append] at hlist
  refine ⟨b, hloop, hlist ▸ hadded, hids.trans ?_⟩
  rw [Building.ids, List.nil_append, h.neighborhood, reduceOption_map_some]

theorem length_bucket (call : Call N) (hk : k ≤ ids.length)
    (hhosts : b.altoList.map cfg.host = ((sortedPeers call s).take k).map Guidance.altoHost) :
    b.altoList.length = k := by
  have hlen := congrArg List.length hhosts
  have hsorted := (h.hosts_perm call).length_eq
  rw [List.length_map, List.length_map, List.length_take] at hlen
  rw [List.length_map, List.length_map] at hsorted
  omega

end Pending

/-- The random picks follow the first loop. -/
theorem buildList_eq (call : Call N) {size bucket : ℕ}
    (hsize : size = listSize cfg s.currentNeighborhood.length)
    (hbucket : bucket = altoBucketSize cfg size)
    (hloop : altoLoop cfg size ((sortedPeers call s).take bucket) ⟨s.currentNeighborhood, []⟩ =
      .ok b) :
    buildList cfg call s = (randLoop size (size - bucket) call.draws b).map fun r =>
      { s with
        currtime := timenow call.replyTime
        altoList := r.1.altoList
        currentNeighborhood := r.1.neighborhood
        newAltoResults := 1
        peers := sortedPeers call s ++ s.peers.drop s.currentNeighborhood.length } := by
  subst hbucket hsize
  simp only [buildList, hloop, bind, Except.bind, Except.map]
  rcases randLoop _ _ call.draws b with _ | r <;> rfl

/-- Every entry that was not picked is left. -/
theorem length_ids (b : Building N) :
    b.ids.length = b.altoList.length + b.neighborhood.reduceOption.length :=
  List.length_append

/-- The list when the entries with the best ratings are in it. -/
structure Bucketed (cfg : Config N) (call : Call N) (s : State N P) (ids : List N)
    (size bucket : ℕ) (b : Building N) : Prop where
  size_eq : size = listSize cfg s.currentNeighborhood.length
  bucket_eq : bucket = altoBucketSize cfg size
  size_le : size ≤ ids.length
  bucket_le : bucket ≤ size
  loop : altoLoop cfg size ((sortedPeers call s).take bucket) ⟨s.currentNeighborhood, []⟩ = .ok b
  hosts : b.altoList.map cfg.host = ((sortedPeers call s).take bucket).map Guidance.altoHost
  perm : b.ids.Perm ids
  length : b.altoList.length = bucket

theorem Pending.bucketed (h : Pending cfg ids s) (call : Call N) :
    ∃ size bucket b, Bucketed cfg call s ids size bucket b := by
  obtain ⟨size, hsize⟩ : ∃ size, size = listSize cfg s.currentNeighborhood.length := ⟨_, rfl⟩
  obtain ⟨bucket, hbucket⟩ : ∃ bucket, bucket = altoBucketSize cfg size := ⟨_, rfl⟩
  have hle : size ≤ ids.length := by
    rw [hsize, ← h.length_eq]
    exact listSize_le ..
  have hble : bucket ≤ size := by
    rw [hbucket, hsize]
    exact h.bucket_le
  obtain ⟨b, hloop, hhosts, hids⟩ := h.altoLoop call hble
  exact ⟨size, bucket, b, hsize, hbucket, hle, hble, hloop, hhosts, hids,
    h.length_bucket call (hble.trans hle) hhosts⟩

namespace Bucketed

variable {bucket : ℕ} (h : Bucketed cfg call s ids size bucket b)

include h

theorem length_left : bucket + b.neighborhood.reduceOption.length = ids.length := by
  rw [← h.length, ← length_ids, h.perm.length_eq]

theorem room : b.altoList.length + (size - bucket) ≤ size := by
  have hlen := h.length
  have hle := h.bucket_le
  omega

/-- What the random picks leave of the list that the first loop made. -/
theorem built (hs : buildList cfg call s = .ok s') : s'.altoList.length = size ∧
    (s'.altoList.take bucket).map cfg.host =
      ((sortedPeers call s).take bucket).map Guidance.altoHost ∧
    (s'.altoList ++ s'.currentNeighborhood.reduceOption).Perm ids := by
  rw [buildList_eq call h.size_eq h.bucket_eq h.loop] at hs
  cases hrand : randLoop size (size - bucket) call.draws b with
  | error f =>
    rw [hrand] at hs
    cases hs
  | ok r =>
    rw [hrand] at hs
    obtain rfl := Except.ok.inj hs
    obtain ⟨added, hlist, hadded, hperm⟩ := randLoop_spec hrand
    refine ⟨?_, ?_, hperm.trans h.perm⟩
    · show r.1.altoList.length = size
      rw [hlist, List.length_append, hadded, h.length]
      exact Nat.add_sub_of_le h.bucket_le
    · show (r.1.altoList.take bucket).map cfg.host = _
      rw [hlist, ← h.length, List.take_left, h.length]
      exact h.hosts

theorem in_bounds {f : Fault} (hf : buildList cfg call s = .error f) : f = .outOfFuel := by
  rw [buildList_eq call h.size_eq h.bucket_eq h.loop] at hf
  cases hrand : randLoop size (size - bucket) call.draws b with
  | error f' =>
    rw [hrand] at hf
    obtain rfl := Except.error.inj hf
    exact randLoop_error h.room hrand
  | ok r =>
    rw [hrand] at hf
    cases hf

/-- The picks so far are fewer than the entries that were left. -/
theorem pickable {b' : Building N} (hpick : Picking cfg call s b') :
    ∃ n, some n ∈ b'.neighborhood := by
  simp only [Picking, ← h.size_eq, ← h.bucket_eq] at hpick
  obtain ⟨k, hk, b₁, rest, hloop, hrand⟩ := hpick
  obtain rfl := Except.ok.inj (hloop.symm.trans h.loop)
  obtain ⟨added, hlist, hadded, hperm⟩ := randLoop_spec hrand
  have hcount := (length_ids b').symm.trans (hperm.trans h.perm).length_eq
  rw [hlist, List.length_append, h.length, hadded] at hcount
  have hleft : 0 < b'.neighborhood.reduceOption.length := by
    have hle := h.size_le
    omega
  obtain ⟨n, hn⟩ := List.exists_mem_of_length_pos hleft
  exact ⟨n, List.reduceOption_mem_iff.1 hn⟩

theorem returns : ∃ draws s', buildList cfg { call with draws := draws } s = .ok s' := by
  have hleft : size - bucket ≤ b.neighborhood.reduceOption.length := by
    have hcount := h.length_left
    have hle := h.size_le
    omega
  obtain ⟨draws, b', hrand⟩ := exists_randLoop h.room hleft
  have hbuild := buildList_eq { call with draws := draws } h.size_eq h.bucket_eq h.loop
  rw [hrand] at hbuild
  exact ⟨draws, _, hbuild⟩

end Bucketed

/-- The difference of any two of the first `n` ratings is an `int`. -/
def Call.Subtractable (call : Call N) (n : ℕ) : Prop :=
  ∀ k < n, ∀ k' < n, call.rating k - call.rating k' ≤ INT_MAX

theorem qsortCompareAltoRanking_eq {g g' : Guidance} (h : g.rating - g'.rating ≤ INT_MAX)
    (h' : g'.rating - g.rating ≤ INT_MAX) :
    qsortCompareAltoRanking g g' = g.rating - g'.rating := by
  unfold INT_MAX at h h'
  exact Int.bmod_eq_of_le (by omega) (by omega)

/-- Ratings that can be subtracted are put in order. -/
theorem sorted_sortedPeers (call : Call N) (s : State N P)
    (hrange : call.Subtractable s.currentNeighborhood.length) :
    (sortedPeers call s).Pairwise (·.rating ≤ ·.rating) := by
  set gs := rated call.rating (s.peers.take s.currentNeighborhood.length)
  have hsub : ∀ g ∈ gs, ∀ g' ∈ gs, g.rating - g'.rating ≤ INT_MAX := by
    intro g hg g' hg'
    obtain ⟨i, hi, rfl⟩ := List.mem_mapIdx.1 hg
    obtain ⟨j, hj, rfl⟩ := List.mem_mapIdx.1 hg'
    rw [List.length_take] at hi hj
    exact hrange i (by omega) j (by omega)
  have hcompare : ∀ g ∈ gs, ∀ g' ∈ gs,
      qsortCompareAltoRanking g g' = g.rating - g'.rating := fun g hg g' hg' =>
    qsortCompareAltoRanking_eq (hsub g hg g' hg') (hsub g' hg' g hg)
  apply (call.qsort.outcome gs).pairwise_of_mem
  · exact fun g _ g' _ => Int.le_total g.rating g'.rating
  · exact fun g _ g' _ g'' _ => Int.le_trans
  · intro g hg g' hg'
    rw [hcompare g hg g' hg']
    omega
  · intro g hg g' hg'
    rw [hcompare g hg g' hg']
    omega

theorem selects_of_pending (h : Pending cfg ids s) (call : Call N) : Selects cfg call s ids := by
  obtain ⟨size, bucket, b, hb⟩ := h.bucketed call
  refine ⟨h, h.rated_perm call, fun f => hb.in_bounds,
    fun b' => hb.pickable, hb.returns, ?_, ?_, ?_, fun s' hs' => (hb.built hs').2.2⟩
  · intro s' hs'
    rw [(hb.built hs').1, hb.size_eq, h.length_eq]
    unfold listSize
    split_ifs <;> rfl
  · intro s' hs'
    exact ((hb.built hs').2.2.nodup_iff.2 h.nodup).of_append_left
  · intro s' hs'
    simp only [(hb.built hs').1, ← hb.bucket_eq]
    exact ⟨hb.bucket_le, (hb.built hs').2.1⟩

/-! ## Runs -/

/-- While an answer is awaited, it is about the neighbourhood. -/
def Awaits (cfg : Config N) (s : State N P) : Prop :=
  s.newAltoResults = 0 → ∃ ids, Pending cfg ids s

theorem Awaits.congr (h : Awaits cfg s) (hn : s'.newAltoResults = 0 → s.newAltoResults = 0)
    (hneigh : s'.currentNeighborhood = s.currentNeighborhood) (hpeers : s'.peers = s.peers) :
    Awaits cfg s' := by
  intro h'
  obtain ⟨ids, hids⟩ := h (hn h')
  exact ⟨ids, hneigh.trans hids.neighborhood, hids.nodup, hpeers ▸ hids.hosts, hids.le_max⟩

theorem fillPeers_eq (cfg : Config N) (ids : List N) :
    fillPeers cfg (ids.map some) = .ok (ids.map fun n => ⟨cfg.host n, -1⟩) := by
  induction ids with
  | nil => rfl
  | cons n ids ih =>
    rw [List.map_cons, fillPeers, ih]
    rfl

/-- What a query that is made asks about. -/
theorem queryAlto_query (hneigh : s.currentNeighborhood = ids.map some)
    (hmax : s.currentNeighborhood.length ≤ ALTO_MAX_PEERS)
    (hquery : timenow call.selectorTime - s.currtime > (cfg.updateInterval * 1000000).toUInt64 ∧
      s.newAltoResults ≠ 0) :
    let filled := ids.map fun n => (⟨cfg.host n, -1⟩ : Guidance)
    queryAlto cfg call s = .ok ({ s with
      peers := filled ++ s.peers.drop filled.length
      newAltoResults := if call.rescode ≠ 1 then 1 else 0 }, [.altoQueryExec filled]) := by
  have hfill := fillPeers_eq cfg ids
  rw [← hneigh] at hfill
  rw [queryAlto, if_pos hquery, if_neg (by omega), hfill]
  rfl

theorem queryAlto_returns (cfg : Config N) (hneigh : s.currentNeighborhood = ids.map some)
    (hmax : s.currentNeighborhood.length ≤ ALTO_MAX_PEERS) (call : Call N) :
    ∃ s' events, queryAlto cfg call s = .ok (s', events) := by
  by_cases hquery : timenow call.selectorTime - s.currtime >
      (cfg.updateInterval * 1000000).toUInt64 ∧ s.newAltoResults ≠ 0
  · exact ⟨_, _, queryAlto_query hneigh hmax hquery⟩
  · exact ⟨s, [], if_neg hquery⟩

/-- A query asks about the neighbourhood of the moment, and it waits for the answer if it did not
fail. -/
theorem Awaits.queryAlto (h : Awaits cfg s) (hnodup : ids.Nodup)
    (hneigh : s.currentNeighborhood = ids.map some) {events : List (Event N)}
    (hs : queryAlto cfg call s = .ok (s', events)) : Awaits cfg s' := by
  by_cases hquery : timenow call.selectorTime - s.currtime >
      (cfg.updateInterval * 1000000).toUInt64 ∧ s.newAltoResults ≠ 0
  · by_cases hmax : s.currentNeighborhood.length ≤ ALTO_MAX_PEERS
    · rw [queryAlto_query hneigh hmax hquery] at hs
      obtain ⟨rfl, -⟩ := Prod.mk.inj (Except.ok.inj hs)
      intro _
      refine ⟨ids, hneigh, hnodup, ?_, by rwa [hneigh, List.length_map] at hmax⟩
      have hlen : ids.length = (ids.map fun n => (⟨cfg.host n, -1⟩ : Guidance)).length :=
        (List.length_map _).symm
      show (List.take ids.length (_ ++ _)).map Guidance.altoHost = _
      rw [hlen, List.take_left, List.map_map]
      rfl
    · rw [TopologyAlto.queryAlto, if_pos hquery, if_pos (by omega)] at hs
      cases hs
  · rw [TopologyAlto.queryAlto, if_neg hquery] at hs
    obtain ⟨rfl, -⟩ := Prod.mk.inj (Except.ok.inj hs)
    exact h

theorem newAltoResults_buildList (h : buildList cfg call s = .ok s') : s'.newAltoResults = 1 := by
  obtain ⟨b, -, h⟩ := bind_eq_ok.1 h
  obtain ⟨r, -, h⟩ := bind_eq_ok.1 h
  obtain rfl := Except.ok.inj h
  rfl

/-- What the selector does after the query. -/
theorem peerSelectorAlto_ok {events : List (Event N)}
    (hs : peerSelectorAlto cfg call s = .ok (s', events)) :
    ∃ s₁, queryAlto cfg call s = .ok (s₁, events) ∧
      (builds call s₁ ∧ buildList cfg call s₁ = .ok s' ∨ ¬ builds call s₁ ∧ s' = s₁) := by
  obtain ⟨⟨s₁, queried⟩, hquery, hs⟩ := bind_eq_ok.1 hs
  dsimp only at hs
  split_ifs at hs with hbuilds
  · obtain ⟨s₂, hbuild, hs⟩ := bind_eq_ok.1 hs
    obtain ⟨rfl, rfl⟩ := Prod.mk.inj (Except.ok.inj hs)
    exact ⟨s₁, hquery, .inl ⟨hbuilds, hbuild⟩⟩
  · obtain ⟨rfl, rfl⟩ := Prod.mk.inj (Except.ok.inj hs)
    exact ⟨s₁, hquery, .inr ⟨hbuilds, rfl⟩⟩

/-- A list that is built ends the wait. -/
theorem Awaits.peerSelectorAlto (h : Awaits cfg s) (hnodup : ids.Nodup)
    (hneigh : s.currentNeighborhood = ids.map some) {events : List (Event N)}
    (hs : peerSelectorAlto cfg call s = .ok (s', events)) : Awaits cfg s' := by
  obtain ⟨s₁, hquery, ⟨-, hbuild⟩ | ⟨-, rfl⟩⟩ := peerSelectorAlto_ok hs
  · intro h0
    rw [newAltoResults_buildList hbuild] at h0
    cases h0
  · exact h.queryAlto hnodup hneigh hquery

section Peers

variable [DecidableEq N] [PeerSet P N S] [LawfulPeerSet P N S]

/-- No node is gossiped twice. -/
def Input.Distinct : Input N S → Prop
  | .updatePeers call => call.nbrs.Nodup
  | .nodeidToPeer .. => True
  | .store .. => True

/-- The neighbourhood is rebuilt, or an answer about it is awaited. -/
theorem rebuild_spec (h : Awaits cfg s) (hnbrs : call.nbrs.Nodup) :
    Awaits cfg (rebuild call s) ∧
      ∃ ids : List N, ids.Nodup ∧ (rebuild call s).currentNeighborhood = ids.map some := by
  unfold rebuild
  split_ifs with hn
  · refine ⟨fun h0 => absurd h0 hn, _, ?_, rfl⟩
    refine List.Nodup.append (LawfulPeerSet.nodup_ids s.pset) (hnbrs.filter _) ?_
    intro n hn hfilter
    exact of_decide_eq_true (List.mem_filter.1 hfilter).2 hn
  · obtain ⟨ids, hids⟩ := h (not_not.1 hn)
    exact ⟨h, ids, hids.nodup, hids.neighborhood⟩

theorem Awaits.selectPeers {events : List (Event N)} (h : Awaits cfg s) (hnbrs : call.nbrs.Nodup)
    (hs : selectPeers cfg call s = .ok (s', events)) : Awaits cfg s' := by
  obtain ⟨h₁, ids, hnodup, hneigh⟩ := rebuild_spec h hnbrs
  simp only [TopologyAlto.selectPeers] at hs
  split_ifs at hs
  · exact h₁.peerSelectorAlto hnodup hneigh hs
  · obtain ⟨rfl, -⟩ := Prod.mk.inj (Except.ok.inj hs)
    exact h₁

omit [LawfulPeerSet P N S] in
theorem Awaits.fillPeerset (h : Awaits cfg s) (call : Call N) :
    Awaits cfg (fillPeerset cfg call s).1 := by
  unfold TopologyAlto.fillPeerset
  split_ifs
  · intro h2
    cases h2
  · exact h.congr id rfl rfl

omit [DecidableEq N] [LawfulPeerSet P N S] in
theorem Awaits.nodeidToPeer (h : Awaits cfg s) (created : N → Timeval) (n : N) (reg : Bool) :
    Awaits cfg (nodeidToPeer cfg created n reg s).1 := by
  unfold TopologyAlto.nodeidToPeer
  split_ifs
  · exact h.congr id rfl rfl
  · exact h

theorem Awaits.step {i : Input N S} {events : List (Event N)} (h : Awaits cfg s) (hi : i.Distinct)
    (hs : step cfg i s = .ok (s', events)) : Awaits cfg s' := by
  cases i with
  | updatePeers call =>
    obtain ⟨⟨s₁, selected⟩, hselect, hs⟩ := bind_eq_ok.1 hs
    obtain ⟨rfl, -⟩ := Prod.mk.inj (Except.ok.inj hs)
    exact (h.selectPeers hi hselect).fillPeerset call
  | nodeidToPeer created id reg =>
    obtain ⟨rfl, -⟩ := Prod.mk.inj (Except.ok.inj hs)
    exact h.nodeidToPeer created id reg
  | store n f hf =>
    obtain ⟨rfl, -⟩ := Prod.mk.inj (Except.ok.inj hs)
    exact h.congr id rfl rfl

theorem Awaits.run {is : List (Input N S)} {pset : P} {events : List (Event N)}
    (hdistinct : ∀ i ∈ is, i.Distinct)
    (hrun : Run.run (TopologyAlto.step cfg) is (State.init pset) = .ok (s, events)) :
    Awaits cfg s := by
  refine Run.invariant (P := fun _ i => i.Distinct) (fun _ s _ => Awaits cfg s) ?_ ?_ ?_ hrun
  · intro h
    cases h
  · intro _ _ _ _ _ _ h hi hs
    exact h.step hi hs
  · exact Run.Along.of_forall fun i hi _ => hdistinct i hi

/-- Whenever a list is built in a run, it is built from the neighbourhood that was asked about; only
the draws can run out.  The addresses that it begins with are the best rated ones if the ratings can
be subtracted. -/
theorem selects (cfg : Config N) {is : List (Input N S)} (hdistinct : ∀ i ∈ is, i.Distinct)
    {pset : P} {events : List (Event N)}
    (hrun : Run.run (TopologyAlto.step cfg) is (State.init pset) = .ok (s, events))
    (call : Call N) (hnbrs : call.nbrs.Nodup)
    (hmax : (rebuild call s).currentNeighborhood.length ≤ ALTO_MAX_PEERS) :
    (∀ f, updatePeers cfg call s = .error f → f = .outOfFuel) ∧
      ∃ s₁ queried, queryAlto cfg call (rebuild call s) = .ok (s₁, queried) ∧
        (builds call s₁ → ∃ ids, Selects cfg call s₁ ids ∧
          (call.Subtractable ids.length →
            (sortedPeers call s₁).Pairwise (·.rating ≤ ·.rating))) := by
  obtain ⟨h, ids, hnodup, hneigh⟩ := rebuild_spec (Awaits.run hdistinct hrun) hnbrs
  obtain ⟨s₁, queried, hquery⟩ := queryAlto_returns cfg hneigh hmax call
  have hselects : builds call s₁ → ∃ ids, Selects cfg call s₁ ids ∧
      (call.Subtractable ids.length → (sortedPeers call s₁).Pairwise (·.rating ≤ ·.rating)) := by
    intro hbuilds
    have hwait : s₁.newAltoResults = 0 := (of_decide_eq_true hbuilds).2
    obtain ⟨ids', hids'⟩ := h.queryAlto hnodup hneigh hquery hwait
    exact ⟨ids', selects_of_pending hids' call, fun hrange =>
      sorted_sortedPeers call s₁ (hids'.length_eq ▸ hrange)⟩
  refine ⟨?_, s₁, queried, hquery, hselects⟩
  intro f hf
  obtain hf | ⟨a, -, hf⟩ := bind_eq_error.1 hf
  · dsimp only [selectPeers] at hf
    split_ifs at hf
    obtain hf | ⟨a, ha, hf⟩ := bind_eq_error.1 hf
    · exact absurd (hquery.symm.trans hf) (by simp)
    · obtain rfl := Except.ok.inj (hquery.symm.trans ha)
      dsimp only at hf
      split_ifs at hf with hbuilds
      · obtain ⟨ids', hids', -⟩ := hselects hbuilds
        obtain hf | ⟨s₂, -, hf⟩ := bind_eq_error.1 hf
        · exact hids'.in_bounds f hf
        · cases hf
      · cases hf
  · cases hf

end Peers

/-! ## An answer -/

/-- The nodes 2 and 3 have the same address. -/
def guided : Config ℕ where
  altoServer := true
  neighborhoodTargetSize := 2
  altoFactor := 1 / 2
  updateInterval := 60
  host n := UInt32.ofNat (n / 2)
  altoFactor_nonneg := by norm_num
  altoFactor_le_one := by norm_num
  round := id
  round_mono := monotone_id
  round_natCast _ _ := rfl

def byRating : RatingOrder where
  sort := List.insertionSort fun g g' => qsortCompareAltoRanking g g' ≤ 0
  outcome := Qsort.outcome_insertionSort fun g => by simp [qsortCompareAltoRanking, toInt]

/-- A call in which the answer is there or not. -/
def calling (ready : Bool) : Call ℕ where
  nbrs := [2, 3, 4]
  rescode := 1
  selectorReady := ready
  listReady := ready
  rating k := if k = 0 then 7 else 5
  qsort := byRating
  draws := [0, 1, 2]
  selectorTime := .ofUsec 100000000
  replyTime := .ofUsec 101000000
  created _ := .ofUsec 101000000
  sweepTime := .ofUsec 101000000

/-- The answer rates the address of the nodes 2 and 3 well, and that of the node 4 badly. -/
def farApart : Call ℕ := { calling true with rating := fun k => if k = 2 then INT_MAX else -2 }

/-- A node that has asked about the nodes 2, 3 and 4. -/
def asked : Except Fault (State ℕ (ListPeers ℕ ListIDSet) × List (Event ℕ)) :=
  Run.run (step guided) [.updatePeers (calling false)] (State.init ListPeers.empty)

/-- The answer of the call is used in this state, for the three nodes. -/
def answers (call : Call ℕ) (s : State ℕ (ListPeers ℕ ListIDSet)) : Bool :=
  (rebuild call s).currentNeighborhood.length = 3 ∧
    (queryAlto guided call (rebuild call s)).toOption.any fun r => builds call r.1

theorem subtractable_calling (ready : Bool) (n : ℕ) : (calling ready).Subtractable n := by
  intro k _ k' _
  simp only [calling]
  split_ifs <;> decide

theorem selects_calling : ∃ (s s₁ : State ℕ (ListPeers ℕ ListIDSet)) (queried : List (Event ℕ)),
    queryAlto guided (calling true) (rebuild (calling true) s) = .ok (s₁, queried) ∧
      builds (calling true) s₁ ∧ ∃ ids, Selects guided (calling true) s₁ ids ∧
        (sortedPeers (calling true) s₁).Pairwise (·.rating ≤ ·.rating) := by
  have hanswers : asked.toOption.any (fun r => answers (calling true) r.1) = true := by
    decide +kernel
  obtain ⟨⟨s, events⟩, hrun, hs⟩ := eq_ok_of_any hanswers
  obtain ⟨hlen, hready⟩ := of_decide_eq_true hs
  obtain ⟨⟨s₁, queried⟩, hquery, hbuilds⟩ := eq_ok_of_any hready
  have hmax : (rebuild (calling true) s).currentNeighborhood.length ≤ ALTO_MAX_PEERS := by
    rw [hlen]
    decide
  obtain ⟨-, s₂, queried₂, hquery₂, hselects⟩ :=
    selects guided (by simp [Input.Distinct, calling]) hrun (calling true) (by decide) hmax
  obtain ⟨rfl, rfl⟩ := Prod.mk.inj (Except.ok.inj (hquery.symm.trans hquery₂))
  obtain ⟨ids, hids, hbest⟩ := hselects hbuilds
  exact ⟨s, s₁, queried, hquery, hbuilds, ids, hids, hbest (subtractable_calling true _)⟩

/-- The list that is built has one rated node, whose address is rated worst. -/
def startsWorst (call : Call ℕ) (s : State ℕ (ListPeers ℕ ListIDSet)) : Bool :=
  ((sortedPeers call s).head? = some ⟨guided.host 4, INT_MAX⟩ ∧
    ¬ (sortedPeers call s).Pairwise (·.rating ≤ ·.rating)) ∧
    (buildList guided call s).toOption.any fun s' =>
      altoBucketSize guided s'.altoList.length = 1 ∧ s'.altoList.head? = some 4

theorem not_selects_farApart : ∃ (s s₁ s' : State ℕ (ListPeers ℕ ListIDSet))
    (events queried : List (Event ℕ)), asked = .ok (s, events) ∧
      queryAlto guided farApart (rebuild farApart s) = .ok (s₁, queried) ∧
      builds farApart s₁ ∧ buildList guided farApart s₁ = .ok s' ∧
      altoBucketSize guided s'.altoList.length = 1 ∧ s'.altoList.head? = some 4 ∧
      (sortedPeers farApart s₁).head? = some ⟨guided.host 4, INT_MAX⟩ ∧
      ¬ (sortedPeers farApart s₁).Pairwise (·.rating ≤ ·.rating) := by
  have hanswers : asked.toOption.any (fun r =>
      (queryAlto guided farApart (rebuild farApart r.1)).toOption.any fun q =>
        builds farApart q.1 && startsWorst farApart q.1) = true := by decide +kernel
  obtain ⟨⟨s, events⟩, hrun, hs⟩ := eq_ok_of_any hanswers
  obtain ⟨⟨s₁, queried⟩, hquery, hworst⟩ := eq_ok_of_any hs
  rw [Bool.and_eq_true] at hworst
  obtain ⟨⟨hfirst, hnot⟩, hhead⟩ := of_decide_eq_true hworst.2
  obtain ⟨s', hbuild, hs'⟩ := eq_ok_of_any hhead
  obtain ⟨hbucket, hfour⟩ := of_decide_eq_true hs'
  exact ⟨s, s₁, s', events, queried, hrun, hquery, hworst.1, hbuild, hbucket, hfour, hfirst, hnot⟩

end PeerStreamer.TopologyAlto
