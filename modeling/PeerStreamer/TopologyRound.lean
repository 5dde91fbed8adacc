import PeerStreamer.TopologySelection
import PeerStreamer.TopologyProof

/-!
# A round of a node that selects out-neighbours

The peer set becomes the selected ids (`mem_ids_reselect`): the ones that are new are added with the
metadata of their own entry, and the old ones that are not selected are removed.  The two loops run
over the differences of the arrays, so what they do to a peer is settled by the one turn that is
about it: the other turns leave it as it is (`getPeer_forIds`).
-/

namespace PeerStreamer.Topology

open NodeidSet PeerSet

variable {N P S : Type} [DecidableEq N] [PeerSet P N S] {cfg : Config} {clock : ℕ → Timeval}
  {c : Choices N} {x : N} {ids : List N} {s : State N P}
  {f : N → State N P → State N P × List (Event N)}

/-! ## The arrays of the round -/

section Arrays

variable (cfg : Config) (c : Choices N) (s : State N P)

/-- `max_ids` -/
def maxIds : ℕ := (PeerSet.ids s.pset).length + s.savedids.length + c.newids.length

def oldids : List N := arrange cfg.topoKeepBest c 0 (PeerSet.ids s.pset)

/-- The ids that are selected when the peers are the old ones. -/
def selectedIds : List N := selecteds cfg c s.pset (maxIds c s) (oldids cfg c s)

def toadds : List N := (nidsetComplement (maxIds c s) (selectedIds cfg c s) (oldids cfg c s)).2

def toremoves : List N := (nidsetComplement (maxIds c s) (oldids cfg c s) (selectedIds cfg c s)).2

end Arrays

/-- The round is the loop that adds and then the loop that removes. -/
theorem reselect_out (clock : ℕ → Timeval) (hout : cfg.topoOut = true) (c : Choices N)
    (s : State N P) :
    reselect cfg clock c s =
      let added := forIds (addNew cfg clock c.newids) (toadds cfg c s) s
      let removed := forIds (fun id => removePeer id true cfg.topoIn) (toremoves cfg c s) added.1
      (removed.1, added.2 ++ removed.2) := by
  unfold reselect
  simp only [hout, if_true]
  rfl

omit [DecidableEq N] in
theorem oldids_perm : (oldids cfg c s).Perm (PeerSet.ids s.pset) := arrange_perm ..

omit [DecidableEq N] in
theorem length_oldids_le : (oldids cfg c s).length ≤ maxIds c s := by
  rw [oldids_perm.length_eq, maxIds]
  omega

theorem length_selectedIds_le : (selectedIds cfg c s).length ≤ maxIds c s :=
  length_selecteds_le length_oldids_le

theorem toadds_eq :
    toadds cfg c s = (selectedIds cfg c s).filter (· ∉ PeerSet.ids s.pset) := by
  rw [toadds, nidsetComplement_eq length_selectedIds_le]
  apply List.filter_congr
  intro x _
  exact decide_eq_decide.2 (not_congr oldids_perm.mem_iff)

theorem toremoves_perm :
    (toremoves cfg c s).Perm ((PeerSet.ids s.pset).filter (· ∉ selectedIds cfg c s)) := by
  rw [toremoves, nidsetComplement_eq length_oldids_le]
  exact oldids_perm.filter _

theorem mem_toadds : x ∈ toadds cfg c s ↔ x ∈ selectedIds cfg c s ∧ x ∉ PeerSet.ids s.pset := by
  rw [toadds_eq, List.mem_filter, decide_eq_true_iff]

theorem mem_toremoves :
    x ∈ toremoves cfg c s ↔ x ∈ PeerSet.ids s.pset ∧ x ∉ selectedIds cfg c s := by
  rw [toremoves_perm.mem_iff, List.mem_filter, decide_eq_true_iff]

/-- What is added was gossiped, since all ids that are not old come from the gossip. -/
theorem gossiped_of_mem_toadds (h : x ∈ toadds cfg c s) : x ∈ c.newids.map Prod.fst := by
  obtain ⟨hsel, hold⟩ := mem_toadds.1 h
  exact (mem_selecteds hsel).resolve_left fun h => hold (oldids_perm.mem_iff.1 h)

/-- No array holds an id twice, whatever the settings are. -/
theorem nodup_selecteds {pset : P} {room : ℕ} {olds : List N}
    (hnew : (c.newids.map Prod.fst).Nodup) (hold : olds.Nodup) :
    (selecteds cfg c pset room olds).Nodup := by
  have hcandidates : ∀ kept : List N, (nidsetComplement room
      (nidsetAdd room olds (c.newids.map Prod.fst)).2 kept).2.Nodup :=
    fun kept => nodup_nidsetComplement (nodup_nidsetAdd hold hnew)
  apply nodup_nidsetAddI
  · apply nodup_nidsetAddI
    · exact hold.sublist (List.take_sublist ..)
    · refine List.Nodup.sublist (List.take_sublist ..) ?_
      rw [(arrange_perm ..).nodup_iff]
      exact (hcandidates _).sublist (copyIf_sublist ..)
  · refine List.Nodup.sublist (List.take_sublist ..) ?_
    rw [(nidsetShuffle_perm ..).nodup_iff]
    exact nodup_nidsetComplement (hcandidates _)

theorem nodup_selectedIds [LawfulPeerSet P N S] (hnew : (c.newids.map Prod.fst).Nodup)
    (s : State N P) : (selectedIds cfg c s).Nodup := by
  apply nodup_selecteds hnew
  rw [oldids_perm.nodup_iff]
  exact LawfulPeerSet.nodup_ids s.pset

/-! ## The messages -/

/-- The explicit messages, with their receivers. -/
def sent (events : List (Event N)) : List (N × List UInt8) :=
  events.filterMap fun e => match e with
    | .sendToPeer dst msg => some (dst, msg)
    | _ => none

omit [DecidableEq N] in
theorem sent_append (events more : List (Event N)) :
    sent (events ++ more) = sent events ++ sent more := List.filterMap_append ..

/-- The explicit message to a node, when in-neighbours are selected as well. -/
def notice (cfg : Config) (type : UInt8) (id : N) : List (N × List UInt8) :=
  if cfg.topoIn then [(id, [MSG_TYPE_STREAMER_TOPOLOGY, type])] else []

omit [DecidableEq N] in
theorem sent_addPeer (id : N) (m : Option Metadata) (s : State N P) :
    sent (addPeer clock id m true cfg.topoIn s).2 = notice cfg STREAMER_TOPOLOGY_MSG_ADD id := by
  unfold addPeer notice
  split_ifs <;> rfl

omit [DecidableEq N] in
theorem sent_removePeer (id : N) (s : State N P) :
    sent (removePeer id true cfg.topoIn s).2 = notice cfg STREAMER_TOPOLOGY_MSG_REMOVE id := by
  unfold removePeer notice
  split_ifs <;> rfl

omit [DecidableEq N] [PeerSet P N S] in
theorem sent_forIds {g : N → List (N × List UInt8)}
    (hf : ∀ id ∈ ids, ∀ s, sent (f id s).2 = g id) (s : State N P) :
    sent (forIds f ids s).2 = ids.flatMap g := by
  induction ids generalizing s with
  | nil => rfl
  | cons id ids ih =>
    rw [forIds, sent_append, hf id (List.mem_cons_self ..), List.flatMap_cons]
    exact congrArg _ (ih (fun j hj => hf j (List.mem_cons_of_mem _ hj)) _)

/-! ## The loops -/

omit [DecidableEq N] in
/-- A loop leaves the peers it has no turn for as they are. -/
theorem getPeer_forIds (hf : ∀ id ∈ ids, ∀ s, getPeer (f id s).1.pset x = getPeer s.pset x)
    (s : State N P) : getPeer (forIds f ids s).1.pset x = getPeer s.pset x := by
  induction ids generalizing s with
  | nil => rfl
  | cons id ids ih =>
    refine (ih (fun j hj => hf j (List.mem_cons_of_mem _ hj)) _).trans ?_
    exact hf id (List.mem_cons_self ..) s

/-- The turn for a peer settles what the loop makes of it. -/
theorem getPeer_forIds_of_mem {Q : Option (Peer N S) → Prop}
    (hset : ∀ s, Q (getPeer (f x s).1.pset x))
    (hf : ∀ id ∈ ids, id ≠ x → ∀ s, getPeer (f id s).1.pset x = getPeer s.pset x) (hx : x ∈ ids)
    (s : State N P) : Q (getPeer (forIds f ids s).1.pset x) := by
  induction ids generalizing s with
  | nil => exact absurd hx List.not_mem_nil
  | cons id ids ih =>
    have hf' : ∀ j ∈ ids, j ≠ x → ∀ s, getPeer (f j s).1.pset x = getPeer s.pset x :=
      fun j hj => hf j (List.mem_cons_of_mem _ hj)
    by_cases hmem : x ∈ ids
    · exact ih hf' hmem _
    · obtain rfl : x = id := (List.mem_cons.1 hx).resolve_right hmem
      have hrest : getPeer (forIds f ids (f x s).1).1.pset x = getPeer (f x s).1.pset x := by
        apply getPeer_forIds
        intro j hj
        exact hf' j hj fun h => hmem (h ▸ hj)
      show Q (getPeer (forIds f ids (f x s).1).1.pset x)
      rw [hrest]
      exact hset s

variable [LawfulPeerSet P N S]

theorem getPeer_setMetadata (pset : P) (n : N) (m : Metadata) (h : x ≠ n) :
    getPeer (PeerSet.update pset n (setMetadata m)) x = getPeer pset x := by
  rw [PeerSet.getPeer_update pset n x (by intro p; rfl)]
  simp only [if_neg h, Option.map_id']

theorem getPeer_addPeer_of_ne {id : N} (h : id ≠ x) (m : Metadata) (isRemote : Bool)
    (s : State N P) :
    getPeer (addPeer clock id (some m) true isRemote s).1.pset x = getPeer s.pset x := by
  show getPeer (PeerSet.update (PeerSet.addPeer s.pset id (clock s.reads)) id (setMetadata m)) x = _
  rw [getPeer_setMetadata _ _ _ h.symm, PeerSet.getPeer_addPeer_of_ne _ _ h.symm]

/-- A peer has the metadata with which it was added. -/
theorem getPeer_addPeer_self (id : N) (m : Metadata) (isRemote : Bool) (s : State N P) :
    ∃ p, getPeer (addPeer clock id (some m) true isRemote s).1.pset id = some p ∧
      p.cbSize = m.cbSize.toNat ∧ p.capacity = m.capacity := by
  have hmem : id ∈ PeerSet.ids (PeerSet.addPeer s.pset id (clock s.reads)) :=
    (PeerSet.mem_ids_addPeer ..).2 (.inr rfl)
  obtain ⟨p, hp⟩ := PeerSet.mem_ids_iff.1 hmem
  refine ⟨setMetadata m p, ?_, rfl, rfl⟩
  show getPeer (PeerSet.update (PeerSet.addPeer s.pset id (clock s.reads)) id (setMetadata m)) id = _
  rw [PeerSet.getPeer_update _ id id (by intro p; rfl), hp, Option.map_some, if_pos rfl]

/-- The loop that removes. -/
theorem getPeer_forIds_removePeer (ids : List N) (isRemote : Bool) (x : N) (s : State N P) :
    getPeer (forIds (fun id => removePeer id true isRemote) ids s).1.pset x =
      if x ∈ ids then none else getPeer s.pset x := by
  have hkeep : ∀ id ∈ ids, id ≠ x → ∀ s : State N P,
      getPeer (removePeer id true isRemote s).1.pset x = getPeer s.pset x :=
    fun id _ h s => PeerSet.getPeer_removePeer_of_ne s.pset h.symm
  split_ifs with hx
  · refine getPeer_forIds_of_mem (Q := fun p => p = none) (fun s => ?_) hkeep hx s
    exact PeerSet.getPeer_removePeer_self s.pset x
  · refine getPeer_forIds (fun id hid => hkeep id hid ?_) s
    rintro rfl
    exact hx hid

/-! ## The round -/

section Round

theorem getPeer_addNew_of_ne {id : N} (hid : id ∈ toadds cfg c s) (h : id ≠ x) (s' : State N P) :
    getPeer (addNew cfg clock c.newids id s').1.pset x = getPeer s'.pset x := by
  obtain ⟨m, -, hadd⟩ := addNew_eq (P := P) cfg clock (gossiped_of_mem_toadds hid)
  rw [hadd]
  cases hout : cfg.topoOut with
  | true => exact getPeer_addPeer_of_ne h m cfg.topoIn s'
  | false => rfl

variable (clock : ℕ → Timeval) (hout : cfg.topoOut = true)

include hout

/-- The peers that are selected again are as before, and those that are not selected are gone. -/
theorem getPeer_reselect (hx : x ∉ toadds cfg c s) :
    getPeer (reselect cfg clock c s).1.pset x =
      if x ∈ toremoves cfg c s then none else getPeer s.pset x := by
  have hadded : getPeer (forIds (addNew cfg clock c.newids) (toadds cfg c s) s).1.pset x =
      getPeer s.pset x := by
    apply getPeer_forIds
    intro id hid s'
    apply getPeer_addNew_of_ne hid
    rintro rfl
    exact hx hid
  rw [reselect_out clock hout]
  exact (getPeer_forIds_removePeer ..).trans (by rw [hadded])

/-- A peer that is added has the metadata of its own entry. -/
theorem getPeer_reselect_of_mem_toadds (hx : x ∈ toadds cfg c s) :
    ∃ m p, (x, m) ∈ c.newids ∧ getPeer (reselect cfg clock c s).1.pset x = some p ∧
      p.cbSize = m.cbSize.toNat ∧ p.capacity = m.capacity := by
  have hstay : x ∉ toremoves cfg c s := fun h => (mem_toadds.1 hx).2 (mem_toremoves.1 h).1
  obtain ⟨m, hm, hadd⟩ := addNew_eq (P := P) cfg clock (gossiped_of_mem_toadds hx)
  have hset : ∀ s' : State N P, ∃ p, getPeer (addNew cfg clock c.newids x s').1.pset x = some p ∧
      p.cbSize = m.cbSize.toNat ∧ p.capacity = m.capacity := by
    intro s'
    rw [hadd, hout]
    exact getPeer_addPeer_self x m cfg.topoIn s'
  obtain ⟨p, hp, hmeta⟩ := getPeer_forIds_of_mem (f := addNew cfg clock c.newids)
    (Q := fun q => ∃ p, q = some p ∧ p.cbSize = m.cbSize.toNat ∧ p.capacity = m.capacity)
    hset (fun id hid h => getPeer_addNew_of_ne hid h) hx s
  refine ⟨m, p, hm, ?_, hmeta⟩
  rw [reselect_out clock hout]
  refine (getPeer_forIds_removePeer ..).trans ?_
  rw [if_neg hstay, hp]

/-- The members are those that are selected. -/
theorem mem_ids_reselect :
    x ∈ PeerSet.ids (reselect cfg clock c s).1.pset ↔ x ∈ selectedIds cfg c s := by
  by_cases hadd : x ∈ toadds cfg c s
  · obtain ⟨m, p, -, hp, -⟩ := getPeer_reselect_of_mem_toadds clock hout hadd
    exact iff_of_true (PeerSet.mem_ids_iff.2 ⟨p, hp⟩) (mem_toadds.1 hadd).1
  · rw [PeerSet.mem_ids_iff, getPeer_reselect clock hout hadd]
    rw [mem_toadds, not_and, not_not] at hadd
    split_ifs with hremove
    · refine iff_of_false ?_ (mem_toremoves.1 hremove).2
      rintro ⟨p, hp⟩
      cases hp
    · rw [mem_toremoves, not_and, not_not] at hremove
      rw [← PeerSet.mem_ids_iff]
      exact ⟨hremove, hadd⟩

omit [LawfulPeerSet P N S] in
/-- The explicit messages of the round. -/
theorem sent_reselect (c : Choices N) (s : State N P) :
    sent (reselect cfg clock c s).2 =
      (toadds cfg c s).flatMap (notice cfg STREAMER_TOPOLOGY_MSG_ADD) ++
      (toremoves cfg c s).flatMap (notice cfg STREAMER_TOPOLOGY_MSG_REMOVE) := by
  rw [reselect_out clock hout]
  refine (sent_append ..).trans ?_
  congr 1
  · apply sent_forIds
    intro id hid s'
    obtain ⟨m, -, hadd⟩ := addNew_eq (P := P) cfg clock (gossiped_of_mem_toadds hid)
    rw [hadd, hout]
    exact sent_addPeer id (some m) s'
  · exact sent_forIds (fun id _ => sent_removePeer id) _

end Round

omit [DecidableEq N] in
theorem flatMap_notice (type : UInt8) (ids : List N) :
    ids.flatMap (notice cfg type) =
      if cfg.topoIn then ids.map fun id => (id, [MSG_TYPE_STREAMER_TOPOLOGY, type]) else [] := by
  unfold notice
  split_ifs
  · exact (List.map_eq_flatMap ..).symm
  · exact List.flatMap_eq_nil_iff.2 fun _ _ => rfl

/-- A round makes the peer set what was selected, leaves the peers that stay as they are, takes the
metadata of the new ones from their own entries, which are there, and tells the nodes that come
and go so, and no others. -/
theorem reselect_spec (clock : ℕ → Timeval) (hout : cfg.topoOut = true) (c : Choices N)
    (hnew : (c.newids.map Prod.fst).Nodup) (s : State N P) :
    (PeerSet.ids (reselect cfg clock c s).1.pset).Perm (selectedIds cfg c s) ∧
    (∀ x ∈ PeerSet.ids s.pset, x ∈ selectedIds cfg c s →
      getPeer (reselect cfg clock c s).1.pset x = getPeer s.pset x) ∧
    (∀ x ∈ selectedIds cfg c s, x ∉ PeerSet.ids s.pset → ∃ m p, (x, m) ∈ c.newids ∧
      getPeer (reselect cfg clock c s).1.pset x = some p ∧
      p.cbSize = m.cbSize.toNat ∧ p.capacity = m.capacity) ∧
    (sent (reselect cfg clock c s).2).Perm (if cfg.topoIn then
      ((selectedIds cfg c s).filter (· ∉ PeerSet.ids s.pset)).map
        (fun x => (x, [MSG_TYPE_STREAMER_TOPOLOGY, STREAMER_TOPOLOGY_MSG_ADD])) ++
      ((PeerSet.ids s.pset).filter (· ∉ selectedIds cfg c s)).map
        (fun x => (x, [MSG_TYPE_STREAMER_TOPOLOGY, STREAMER_TOPOLOGY_MSG_REMOVE]))
      else []) ∧
    ∀ x ∈ toadds cfg c s, (nidsetFind (c.newids.map Prod.fst) x).isSome := by
  refine ⟨?_, ?_, ?_, ?_, ?_⟩
  · rw [List.perm_ext_iff_of_nodup (LawfulPeerSet.nodup_ids _) (nodup_selectedIds hnew s)]
    exact fun x => mem_ids_reselect clock hout
  · intro x hold hsel
    rw [getPeer_reselect clock hout fun h => (mem_toadds.1 h).2 hold,
      if_neg fun h => (mem_toremoves.1 h).2 hsel]
  · intro x hsel hold
    exact getPeer_reselect_of_mem_toadds clock hout (mem_toadds.2 ⟨hsel, hold⟩)
  · rw [sent_reselect clock hout, flatMap_notice, flatMap_notice, toadds_eq]
    split_ifs
    · exact (toremoves_perm.map _).append_left _
    · exact .refl _
  · intro x hx
    obtain ⟨j, hj, -⟩ := nidsetFind_spec (gossiped_of_mem_toadds hx)
    exact Option.isSome_of_mem hj

/-- Two peers, and a target of two. -/
def pair : State ℕ (ListPeers ℕ ListIDSet) :=
  .init ((ListPeers.empty.add 1 (.ofUsec 0)).add 2 (.ofUsec 0))

def narrow : Config := { defaultConfig with neighborhoodTargetSize := 2 }

theorem reselect_spec_narrow :
    (PeerSet.ids (reselect narrow stillReadings (gossiped [1, 3]) pair).1.pset).Perm [2, 3] ∧
    (sent (reselect narrow stillReadings (gossiped [1, 3]) pair).2).Perm
      [(3, [0x22, 0]), (1, [0x22, 1])] := by
  have hsel : selectedIds narrow (gossiped [1, 3]) pair = [2, 3] := by decide +kernel
  obtain ⟨hids, -, -, hsent, -⟩ :=
    reselect_spec stillReadings (rfl : narrow.topoOut = true) (gossiped [1, 3]) (by decide) pair
  rw [hsel] at hids hsent
  exact ⟨hids, hsent⟩

end PeerStreamer.Topology
