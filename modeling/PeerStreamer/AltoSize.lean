import Mathlib.Data.Finset.Card
import PeerStreamer.AltoSelection

/-!
# The size of the neighbourhood with ALTO guidance

Three places of `topology-ALTO.c` add peers.  The ALTO list replaces members when the peer set is
full and `nodeid_to_peer` looks at the size before it adds one; but the filling with gossiped nodes
looks at it only once, so that it adds all of them when there is place for one.  The size stays
within the target if the list fills the peer set (`full_forEach_applyEntry`) or if few enough of the
nodes are left when the silent ones are dropped.
-/

namespace PeerStreamer.TopologyAlto

open Timeval PeerStreamer.Topology

variable {N P S : Type} [DecidableEq N] [PeerSet P N S] [LawfulPeerSet P N S] {cfg : Config N}
  {call : Call N} {created : N → Timeval} {pset pset' pset'' : P} {ids more : List N} {n : N}

/-! ## The members -/

def members (pset : P) : Finset N := (PeerSet.ids pset).toFinset

omit [LawfulPeerSet P N S] in
theorem mem_members : n ∈ members pset ↔ n ∈ PeerSet.ids pset := List.mem_toFinset

theorem card_members (pset : P) : (members pset).card = (PeerSet.peers pset).length := by
  rw [members, List.toFinset_card_of_nodup (LawfulPeerSet.nodup_ids pset), PeerSet.ids,
    List.length_map]

theorem getPeer_isSome_iff : (PeerSet.getPeer pset n).isSome ↔ n ∈ members pset := by
  rw [mem_members, PeerSet.mem_ids_iff, Option.isSome_iff_exists]

theorem members_addPeer (pset : P) (n : N) (t : Timeval) :
    members (PeerSet.addPeer pset n t) = insert n (members pset) := by
  ext m
  rw [Finset.mem_insert, mem_members, mem_members, PeerSet.mem_ids_addPeer, or_comm]

theorem members_removePeer (pset : P) (n : N) :
    members (PeerSet.removePeer pset n) = (members pset).erase n := by
  ext m
  rw [Finset.mem_erase, mem_members, mem_members, PeerSet.mem_ids_removePeer, and_comm]

/-! ## Peers that join -/

/-- The peers that were added, and that are as new. -/
structure Joined (created : N → Timeval) (pset pset' : P) (ids : List N) : Prop where
  peers : ∃ new, PeerSet.peers pset' = PeerSet.peers pset ++ new ∧
    ∀ p ∈ new, p.creationTimestamp = created p.id ∧ p.bmapTimestamp = .ofUsec 0
  members : members pset' = members pset ∪ ids.toFinset

omit [LawfulPeerSet P N S] in
theorem Joined.refl (created : N → Timeval) (pset : P) : Joined created pset pset [] :=
  ⟨⟨[], (List.append_nil _).symm, by simp⟩, by simp⟩

omit [LawfulPeerSet P N S] in
theorem Joined.trans (h : Joined created pset pset' ids) (h' : Joined created pset' pset'' more) :
    Joined created pset pset'' (ids ++ more) := by
  obtain ⟨new, hpeers, hnew⟩ := h.peers
  obtain ⟨new', hpeers', hnew'⟩ := h'.peers
  refine ⟨⟨new ++ new', ?_, ?_⟩, ?_⟩
  · rw [hpeers', hpeers, List.append_assoc]
  · intro p hp
    rcases List.mem_append.1 hp with hp | hp
    · exact hnew p hp
    · exact hnew' p hp
  · rw [h'.members, h.members, List.toFinset_append, Finset.union_assoc]

theorem joined_addNew (created : N → Timeval) (n : N) (pset : P) :
    Joined created pset (addNew created n pset).1 [n] := by
  unfold addNew
  split_ifs with hn
  · rw [getPeer_isSome_iff] at hn
    refine ⟨⟨[], (List.append_nil _).symm, by simp⟩, ?_⟩
    rw [List.toFinset_cons, List.toFinset_nil, insert_empty_eq, Finset.union_singleton,
      Finset.insert_eq_of_mem hn]
  · rw [getPeer_isSome_iff, mem_members] at hn
    obtain ⟨p, rfl, hcreation, hbmap, -, hpeers⟩ :=
      LawfulPeerSet.addPeer_new pset n (created n) hn
    refine ⟨⟨[p], hpeers, by simp [hcreation, hbmap]⟩, ?_⟩
    show members (PeerSet.addPeer pset p.id _) = _
    rw [members_addPeer, List.toFinset_cons, List.toFinset_nil, insert_empty_eq,
      Finset.union_singleton]

theorem joined_forEach_addNew (created : N → Timeval) (ids : List N) (pset : P) :
    Joined created pset (forEach (addNew created) ids pset).1 ids := by
  induction ids generalizing pset with
  | nil => exact .refl created pset
  | cons n ids ih => exact (joined_addNew created n pset).trans (ih _)

/-! ## The ALTO list -/

variable {altoList : List N} {entry : N × ℕ} {entries : List (N × ℕ)}

theorem applyEntry_of_lt (altoList : List N) (h : (members pset).card < cfg.target) :
    applyEntry cfg created altoList entry pset = addNew created entry.1 pset := by
  rw [card_members] at h
  unfold applyEntry addNew
  rw [if_neg (show ¬ (cfg.target ≠ 0 ∧ _) from fun hfull => absurd hfull.2 (not_le.2 h))]

/-- A member makes place for the entry, or the entry is not added. -/
theorem card_applyEntry_of_eq (hT : 0 < cfg.target) (h : (members pset).card = cfg.target) :
    (members (applyEntry cfg created altoList entry pset).1).card = cfg.target := by
  have hfull : cfg.target ≠ 0 ∧ (PeerSet.peers pset).length ≥ cfg.target := by
    rw [card_members] at h
    omega
  unfold applyEntry
  split_ifs with hn
  · exact h
  · rw [getPeer_isSome_iff] at hn
    cases hfind : (PeerSet.ids pset).find? fun id => id ∉ altoList.eraseIdx entry.2 with
    | none => exact h
    | some id =>
      have hid : id ∈ members pset := mem_members.2 (List.mem_of_find?_eq_some hfind)
      show ((members (PeerSet.addPeer (PeerSet.removePeer pset id) entry.1 _)).card : Int) = _
      rw [members_addPeer, members_removePeer,
        Finset.card_insert_of_notMem (fun hmem => hn (Finset.mem_of_mem_erase hmem)),
        Finset.card_erase_add_one hid, h]

/-- As long as the peer set is not full, every entry joins it. -/
theorem joined_forEach_applyEntry (created : N → Timeval) (altoList : List N)
    (h : (members pset ∪ (entries.map Prod.fst).toFinset).card < cfg.target) :
    Joined created pset (forEach (applyEntry cfg created altoList) entries pset).1
      (entries.map Prod.fst) := by
  induction entries generalizing pset with
  | nil => exact .refl created pset
  | cons entry entries ih =>
    have hcard : ((members pset).card : Int) < cfg.target :=
      (Int.ofNat_le.2 (Finset.card_le_card Finset.subset_union_left)).trans_lt h
    have hjoined := joined_addNew created entry.1 pset
    rw [← applyEntry_of_lt altoList hcard] at hjoined
    refine hjoined.trans (ih ?_)
    rwa [hjoined.members, Finset.union_assoc, ← List.toFinset_append]

theorem card_forEach_applyEntry_of_eq (hT : 0 < cfg.target)
    (h : (members pset).card = cfg.target) :
    (members (forEach (applyEntry cfg created altoList) entries pset).1).card = cfg.target := by
  induction entries generalizing pset with
  | nil => exact h
  | cons entry entries ih => exact ih (card_applyEntry_of_eq hT h)

/-- A list that reaches the target fills the peer set. -/
theorem card_forEach_applyEntry (hT : 0 < cfg.target) (hle : (members pset).card ≤ cfg.target)
    (h : cfg.target ≤ (members pset ∪ (entries.map Prod.fst).toFinset).card) :
    (members (forEach (applyEntry cfg created altoList) entries pset).1).card = cfg.target := by
  induction entries generalizing pset with
  | nil =>
    rw [List.map_nil, List.toFinset_nil, Finset.union_empty] at h
    exact le_antisymm hle h
  | cons entry entries ih =>
    rcases hle.lt_or_eq with hlt | heq
    · have hjoined := joined_addNew created entry.1 pset
      rw [← applyEntry_of_lt altoList hlt] at hjoined
      have hle' : (members (applyEntry cfg created altoList entry pset).1).card ≤ cfg.target := by
        have hone : (members pset ∪ [entry.1].toFinset).card ≤ (members pset).card + 1 :=
          Finset.card_union_le ..
        rw [hjoined.members]
        omega
      have h' : cfg.target ≤ (members (applyEntry cfg created altoList entry pset).1 ∪
          (entries.map Prod.fst).toFinset).card := by
        rwa [hjoined.members, Finset.union_assoc, ← List.toFinset_append]
      exact ih hle' h'
    · exact card_forEach_applyEntry_of_eq hT heq

/-! ## The silent peers -/

/-- Whether a node is silent when it has joined. -/
def silent (call : Call N) (pset : P) (n : N) : Prop :=
  match PeerSet.getPeer pset n with
  | some p => inactive (told call) p
  | none => timercmp (call.created n) (told call) (· < ·)

instance (call : Call N) (pset : P) (n : N) : Decidable (silent call pset n) := by
  unfold silent
  split <;> infer_instance

/-- What is left of the nodes when the silent ones are dropped. -/
def staying (call : Call N) (pset : P) (ns : Finset N) : Finset N :=
  ns.filter fun n => ¬ silent call pset n

theorem silent_iff {p : Peer N S} (hp : p ∈ PeerSet.peers pset) :
    silent call pset p.id ↔ inactive (told call) p := by
  have hget : PeerSet.getPeer pset p.id = some p := PeerSet.getPeer_eq_some_iff.2 ⟨hp, rfl⟩
  rw [silent, hget]

/-- A peer that joined is as old as it would be. -/
theorem silent_joined (h : Joined call.created pset pset' ids) (hn : n ∈ members pset') :
    silent call pset' n ↔ silent call pset n := by
  obtain ⟨new, hpeers, hnew⟩ := h.peers
  obtain ⟨p, hp, rfl⟩ := List.mem_map.1 (mem_members.1 hn)
  rw [silent_iff hp]
  by_cases hold : p.id ∈ PeerSet.ids pset
  · obtain ⟨q, hq, hid⟩ := List.mem_map.1 hold
    have hq' : q ∈ PeerSet.peers pset' := hpeers ▸ List.mem_append_left new hq
    obtain rfl := List.inj_on_of_nodup_map (LawfulPeerSet.nodup_ids pset') hq' hp hid
    exact (silent_iff hq).symm
  · have hmem : p ∈ new := by
      rw [hpeers, List.mem_append] at hp
      exact hp.resolve_left fun hp => hold (List.mem_map_of_mem hp)
    obtain ⟨hcreation, hbmap⟩ := hnew p hmem
    have hnone : ¬ timerisset p.bmapTimestamp := by
      rw [hbmap]
      decide
    rw [silent, PeerSet.getPeer_eq_none_iff.2 hold]
    show inactive (told call) p ↔ timercmp (call.created p.id) (told call) (· < ·)
    rw [inactive, hcreation]
    simp [hnone]

theorem members_forEach_dropPeer (ids : List N) (pset : P) :
    members (forEach dropPeer ids pset).1 = members pset \ ids.toFinset := by
  induction ids generalizing pset with
  | nil => simp [forEach]
  | cons n ids ih =>
    show members (forEach dropPeer ids (PeerSet.removePeer pset n)).1 = _
    rw [ih, members_removePeer, List.toFinset_cons, Finset.sdiff_insert, Finset.erase_sdiff_comm]

theorem members_sweep (call : Call N) (pset : P) :
    members (sweep call pset).1 = staying call pset (members pset) := by
  ext n
  rw [sweep, members_forEach_dropPeer, Finset.mem_sdiff, staying, Finset.mem_filter]
  refine and_congr_right fun hn => not_congr ?_
  obtain ⟨p, hp, rfl⟩ := List.mem_map.1 (mem_members.1 hn)
  rw [silent_iff hp, List.mem_toFinset, List.mem_map]
  constructor
  · intro ⟨q, hq, hid⟩
    obtain ⟨hq, hinactive⟩ := List.mem_filter.1 hq
    obtain rfl := List.inj_on_of_nodup_map (LawfulPeerSet.nodup_ids pset) hq hp hid
    exact of_decide_eq_true hinactive
  · intro hinactive
    exact ⟨p, List.mem_filter.2 ⟨hp, decide_eq_true hinactive⟩, rfl⟩

/-! ## A call of `update_peers` -/

variable {s s' : State N P}

/-- The ALTO list that is put in the peer set. -/
def applied (cfg : Config N) (call : Call N) (s : State N P) : List N :=
  if applies cfg call s then s.altoList else []

def size (s : State N P) : ℕ := (PeerSet.peers s.pset).length

/-- The members and the ALTO list fill the peer set, or few enough nodes stay. -/
def Fills (cfg : Config N) (call : Call N) (s : State N P) : Prop :=
  let ns := members s.pset ∪ (applied cfg call s).toFinset
  cfg.target ≤ ns.card ∨ (staying call s.pset (ns ∪ call.nbrs.toFinset)).card ≤ cfg.target

/-- The peer set when the list is applied. -/
def afterList (cfg : Config N) (call : Call N) (s : State N P) : P :=
  (forEach (applyEntry cfg call.created s.altoList) (applied cfg call s).zipIdx s.pset).1

omit [LawfulPeerSet P N S] in
theorem pset_fillPeerset (cfg : Config N) (call : Call N) (s : State N P) :
    (fillPeerset cfg call s).1.pset =
      (sweep call (fillGossip cfg call (afterList cfg call s)).1).1 := by
  unfold fillPeerset afterList applied
  split_ifs <;> rfl

theorem fillGossip_of_eq (hT : 0 < cfg.target) (h : (members pset).card = cfg.target) :
    fillGossip cfg call pset = (pset, []) := by
  rw [card_members] at h
  exact if_neg (by omega)

theorem fillGossip_of_lt (h : (members pset).card < cfg.target) :
    fillGossip cfg call pset = forEach (addNew call.created) call.nbrs pset := by
  rw [card_members] at h
  exact if_pos (.inr h)

theorem staying_joined (h : Joined call.created pset pset' ids) :
    staying call pset' (members pset') = staying call pset (members pset ∪ ids.toFinset) := by
  rw [← h.members]
  exact Finset.filter_congr fun n hn => not_congr (silent_joined h hn)

/-- A call leaves no more than the target if and only if its list fills the peer set or few enough
nodes stay. -/
theorem size_fillPeerset_le_iff (hT : 0 < cfg.target) (hle : size s ≤ cfg.target) (call : Call N) :
    size (fillPeerset cfg call s).1 ≤ cfg.target ↔ Fills cfg call s := by
  rw [size, ← card_members] at hle ⊢
  rw [pset_fillPeerset, members_sweep]
  have hfst : (applied cfg call s).zipIdx.map Prod.fst = applied cfg call s :=
    List.zipIdx_map_fst ..
  by_cases hfull : cfg.target ≤ (members s.pset ∪ (applied cfg call s).toFinset).card
  · have hcard : (members (afterList cfg call s)).card = cfg.target := by
      refine card_forEach_applyEntry hT hle ?_
      rwa [hfst]
    rw [fillGossip_of_eq hT hcard]
    refine iff_of_true ?_ (.inl hfull)
    rw [← hcard]
    exact Int.ofNat_le.2 (Finset.card_filter_le ..)
  · have hlt := not_le.1 hfull
    have hlist : Joined call.created s.pset (afterList cfg call s) (applied cfg call s) := by
      rw [← hfst] at hlt ⊢
      exact joined_forEach_applyEntry call.created s.altoList hlt
    rw [← hlist.members] at hlt
    have hall := hlist.trans (joined_forEach_addNew call.created call.nbrs _)
    rw [fillGossip_of_lt hlt, staying_joined hall, List.toFinset_append, ← Finset.union_assoc]
    exact (or_iff_right hfull).symm

/-! ## Runs -/

/-- The step leaves no more peers than the target, unless it fails: with more than `ALTO_MAX_PEERS`
neighbours a query writes behind the end of `ALTOInfo.peers`. -/
def Bounded (cfg : Config N) (s : State N P) (i : Input N S) : Prop :=
  ∀ s' events, step cfg i s = .ok (s', events) → size s' ≤ cfg.target

/-- When the selection is done, the call does not add too many. -/
def Fits (cfg : Config N) (s : State N P) : Input N S → Prop
  | .updatePeers call =>
    ∀ s₁ events, selectPeers cfg call s = .ok (s₁, events) → Fills cfg call s₁
  | _ => True

omit [DecidableEq N] [PeerSet P N S] [LawfulPeerSet P N S] in
theorem pset_queryAlto {events : List (Event N)} (hs : queryAlto cfg call s = .ok (s', events)) :
    s'.pset = s.pset := by
  unfold queryAlto at hs
  split_ifs at hs
  · obtain ⟨filled, -, hs⟩ := bind_eq_ok.1 hs
    obtain ⟨rfl, -⟩ := Prod.mk.inj (Except.ok.inj hs)
    rfl
  · obtain ⟨filled, -, hs⟩ := bind_eq_ok.1 hs
    obtain ⟨rfl, -⟩ := Prod.mk.inj (Except.ok.inj hs)
    rfl
  · obtain ⟨rfl, -⟩ := Prod.mk.inj (Except.ok.inj hs)
    rfl

omit [LawfulPeerSet P N S] in
theorem pset_selectPeers {events : List (Event N)}
    (hs : selectPeers cfg call s = .ok (s', events)) : s'.pset = s.pset := by
  have hrebuild : (rebuild call s).pset = s.pset := by
    unfold rebuild
    split_ifs <;> rfl
  unfold selectPeers at hs
  dsimp only at hs
  split_ifs at hs
  · obtain ⟨s₁, hquery, hs⟩ := peerSelectorAlto_ok hs
    have hpset : s₁.pset = s.pset := (pset_queryAlto hquery).trans hrebuild
    rcases hs with ⟨-, hbuild⟩ | ⟨-, rfl⟩
    · obtain ⟨b, -, hbuild⟩ := bind_eq_ok.1 hbuild
      obtain ⟨r, -, hbuild⟩ := bind_eq_ok.1 hbuild
      obtain rfl := Except.ok.inj hbuild
      exact hpset
    · exact hpset
  · obtain ⟨rfl, -⟩ := Prod.mk.inj (Except.ok.inj hs)
    exact hrebuild

theorem size_nodeidToPeer_le (hle : size s ≤ cfg.target) (created : N → Timeval) (n : N)
    (reg : Bool) : size (nodeidToPeer cfg created n reg s).1 ≤ cfg.target := by
  unfold nodeidToPeer
  split_ifs with hadd
  · have hlt := hadd.2.2
    show ((PeerSet.peers (PeerSet.addPeer s.pset n (created n))).length : Int) ≤ _
    rw [← card_members] at hlt ⊢
    rw [members_addPeer]
    have hone := Finset.card_insert_le n (members s.pset)
    omega
  · exact hle

theorem bounded_iff (hT : 0 < cfg.target) (hle : size s ≤ cfg.target) (i : Input N S) :
    Bounded cfg s i ↔ Fits cfg s i := by
  cases i with
  | updatePeers call =>
    have hfill : ∀ s₁ events, selectPeers cfg call s = .ok (s₁, events) →
        (size (fillPeerset cfg call s₁).1 ≤ cfg.target ↔ Fills cfg call s₁) := by
      intro s₁ events hs
      refine size_fillPeerset_le_iff hT ?_ call
      rwa [size, pset_selectPeers hs]
    constructor
    · intro h s₁ events hs
      exact (hfill s₁ events hs).1 (h (fillPeerset cfg call s₁).1
        (events ++ (fillPeerset cfg call s₁).2) (bind_eq_ok.2 ⟨_, hs, rfl⟩))
    · intro h s' events hs
      obtain ⟨⟨s₁, selected⟩, hselect, hs⟩ := bind_eq_ok.1 hs
      obtain ⟨rfl, -⟩ := Prod.mk.inj (Except.ok.inj hs)
      exact (hfill s₁ selected hselect).2 (h s₁ selected hselect)
  | nodeidToPeer created n reg =>
    refine iff_of_true ?_ trivial
    intro s' events hs
    obtain ⟨rfl, -⟩ := Prod.mk.inj (Except.ok.inj hs)
    exact size_nodeidToPeer_le hle created n reg
  | store n f hf =>
    refine iff_of_true ?_ trivial
    intro s' events hs
    obtain ⟨rfl, -⟩ := Prod.mk.inj (Except.ok.inj hs)
    have hids := congrArg List.length (PeerSet.ids_update s.pset n hf)
    rw [PeerSet.ids, PeerSet.ids, List.length_map, List.length_map] at hids
    show ((PeerSet.peers (PeerSet.update s.pset n f)).length : Int) ≤ _
    rwa [hids]

/-- In a run from a peer set within the target, every step keeps it within the target if and only if
every call of `update_peers` fits. -/
theorem along_bounded_iff (hT : 0 < cfg.target) {s₀ : State N P} (h : size s₀ ≤ cfg.target)
    (is : List (Input N S)) :
    Run.Along (step cfg) (Bounded cfg) is s₀ ↔ Run.Along (step cfg) (Fits cfg) is s₀ := by
  refine Run.along_congr_of_keep (fun s i hle => bounded_iff hT hle i) ?_ h
  intro s i s' events _ hbounded hs
  exact hbounded s' events hs

/-- With a target of 2, three gossiped nodes are added to the empty peer set. -/
theorem not_along_bounded_gossip :
    ¬ Run.Along (step guided) (Bounded guided) [.updatePeers (calling false)]
      (.init .empty : State ℕ (ListPeers ℕ ListIDSet)) := by
  intro h
  have hsize : (step guided (.updatePeers (calling false))
      (.init .empty : State ℕ (ListPeers ℕ ListIDSet))).toOption.any
        (fun r => size r.1 = 3) = true := by decide +kernel
  obtain ⟨⟨s', events⟩, hs, hthree⟩ := eq_ok_of_any hsize
  have hle := (Run.along_cons.1 h).1 s' events hs
  rw [of_decide_eq_true hthree] at hle
  exact absurd hle (by decide)

/-- A full peer set. -/
def crowded : State ℕ (ListPeers ℕ ListIDSet) :=
  .init ((ListPeers.empty.add 8 (.ofUsec 0)).add 9 (.ofUsec 0))

theorem along_bounded_iff_crowded :
    Run.Along (step guided) (Bounded guided) [.updatePeers (calling false)] crowded := by
  refine (along_bounded_iff (by decide) (by decide) _).2 (Run.along_cons.2 ⟨?_, ?_⟩)
  · intro s₁ events hs
    refine .inl ?_
    have hmembers : (members s₁.pset).card = 2 := by
      rw [pset_selectPeers hs]
      decide
    have hle : (members s₁.pset).card ≤
        (members s₁.pset ∪ (applied guided (calling false) s₁).toFinset).card :=
      Finset.card_le_card Finset.subset_union_left
    show (2 : Int) ≤ _
    omega
  · intro _ _ _
    exact Run.along_nil

end PeerStreamer.TopologyAlto
