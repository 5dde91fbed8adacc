import Mathlib.Data.List.Nodup
import Mathlib.Data.Rat.Defs
import Mathlib.Tactic.Common
import PeerStreamer.Grapes.ChunkIDSet
import PeerStreamer.Lib.Timeval

/-!
# The peer set

The peer set of GRAPES, which is not part of this repository.  `PeerSet` names the operations the
streamer calls and `LawfulPeerSet` what it relies on: an array of peers with distinct node IDs, to
which peers are added and from which they are removed by their ID.
-/

namespace PeerStreamer

/-- `struct peer`; the buffer map may be the NULL pointer. -/
structure Peer (N S : Type*) where
  id : N
  creationTimestamp : Timeval
  bmap : Option S
  bmapTimestamp : Timeval
  cbSize : Int
  capacity : ℚ
  deriving DecidableEq, Repr

/-- The operations of `peerset.h`, for node IDs `N` and chunk ID sets `S`. -/
class PeerSet (P : Type*) (N S : outParam (Type*)) where
  /-- `peerset_get_peers` and `peerset_size` -/
  peers : P → List (Peer N S)
  getPeer : P → N → Option (Peer N S)
  /-- `peerset_add_peer`, at the time it reads. -/
  addPeer : P → N → Timeval → P
  removePeer : P → N → P
  /-- A store through the pointer that `peerset_get_peer` returns. -/
  update : P → N → (Peer N S → Peer N S) → P

namespace PeerSet

variable {P N S : Type*} [PeerSet P N S]

/-- The node IDs of the peers. -/
def ids (ps : P) : List N := (peers ps).map Peer.id

end PeerSet

open PeerSet

/-- What the streamer relies on. -/
class LawfulPeerSet (P : Type*) (N S : outParam (Type*)) [DecidableEq N] [PeerSet P N S] : Prop
    where
  nodup_ids (ps : P) : (ids ps).Nodup
  getPeer_eq (ps : P) (n : N) : getPeer ps n = (peers ps).find? fun p => p.id = n
  addPeer_mem (ps : P) (n : N) (t : Timeval) : n ∈ ids ps → addPeer ps n t = ps
  addPeer_new (ps : P) (n : N) (t : Timeval) : n ∉ ids ps →
    ∃ p, p.id = n ∧ p.creationTimestamp = t ∧ p.bmapTimestamp = .ofUsec 0 ∧ p.bmap.isSome ∧
      peers (addPeer ps n t) = peers ps ++ [p]
  peers_removePeer (ps : P) (n : N) :
    peers (removePeer ps n) = (peers ps).filter fun p => p.id ≠ n
  peers_update (ps : P) (n : N) (f : Peer N S → Peer N S) : (∀ p, (f p).id = p.id) →
    peers (update ps n f) = (peers ps).map fun p => if p.id = n then f p else p

/-- A peer that is added has an empty buffer map. -/
class FreshPeerSet (P : Type*) (N S : outParam (Type*)) [PeerSet P N S] [ChunkIDSet S] : Prop where
  bmap_addPeer (ps : P) (n : N) (t : Timeval) : n ∉ ids ps → ∀ p ∈ peers (addPeer ps n t),
    p.id = n → ∀ bmap, p.bmap = some bmap → ChunkIDSet.ids bmap = []

namespace PeerSet

variable {P N S : Type*} [DecidableEq N] [PeerSet P N S] [LawfulPeerSet P N S]
  {ps : P} {n m : N} {p : Peer N S}

theorem getPeer_eq_some_iff : getPeer ps n = some p ↔ p ∈ peers ps ∧ p.id = n := by
  rw [LawfulPeerSet.getPeer_eq]
  constructor
  · intro h
    exact ⟨List.mem_of_find?_eq_some h, by simpa using List.find?_some h⟩
  · intro ⟨hp, hid⟩
    cases h : (peers ps).find? fun p => p.id = n with
    | none =>
      rw [List.find?_eq_none] at h
      exact absurd hid (by simpa using h p hp)
    | some q =>
      have hq := List.mem_of_find?_eq_some h
      have hqid : q.id = n := by simpa using List.find?_some h
      rw [← List.inj_on_of_nodup_map (LawfulPeerSet.nodup_ids ps) hq hp (hqid.trans hid.symm)]

theorem mem_ids_iff : n ∈ ids ps ↔ ∃ p, getPeer ps n = some p := by
  simp only [getPeer_eq_some_iff, ids, List.mem_map]

theorem getPeer_eq_none_iff : getPeer ps n = none ↔ n ∉ ids ps := by
  rw [mem_ids_iff]
  cases getPeer ps n <;> simp

/-- A change of one peer keeps the ids. -/
theorem map_id_update (n : N) {f : Peer N S → Peer N S} (hf : ∀ p, (f p).id = p.id)
    (ps : List (Peer N S)) :
    (ps.map fun p => if p.id = n then f p else p).map Peer.id = ps.map Peer.id := by
  rw [List.map_map]
  apply List.map_congr_left
  intro p _
  show (if p.id = n then f p else p).id = p.id
  split_ifs
  · exact hf p
  · rfl

theorem ids_update (ps : P) (n : N) {f : Peer N S → Peer N S} (hf : ∀ p, (f p).id = p.id) :
    ids (update ps n f) = ids ps := by
  rw [ids, LawfulPeerSet.peers_update ps n f hf]
  exact map_id_update n hf (peers ps)

/-- A store through one peer's pointer changes this peer and no other. -/
theorem getPeer_update (ps : P) (n m : N) {f : Peer N S → Peer N S} (hf : ∀ p, (f p).id = p.id) :
    getPeer (update ps n f) m = (getPeer ps m).map fun p => if m = n then f p else p := by
  cases h : getPeer ps m with
  | none =>
    rw [getPeer_eq_none_iff] at h
    exact getPeer_eq_none_iff.2 (ids_update ps n hf ▸ h)
  | some p =>
    obtain ⟨hp, rfl⟩ := getPeer_eq_some_iff.1 h
    rw [Option.map_some, getPeer_eq_some_iff, LawfulPeerSet.peers_update ps n f hf]
    refine ⟨List.mem_map.2 ⟨p, hp, rfl⟩, ?_⟩
    split_ifs
    · exact hf p
    · rfl

theorem mem_ids_addPeer (ps : P) (n m : N) (t : Timeval) :
    m ∈ ids (addPeer ps n t) ↔ m ∈ ids ps ∨ m = n := by
  by_cases h : n ∈ ids ps
  · rw [LawfulPeerSet.addPeer_mem ps n t h]
    exact ⟨Or.inl, fun hm => hm.elim id fun e => e ▸ h⟩
  · obtain ⟨p, hid, -, -, -, hps⟩ := LawfulPeerSet.addPeer_new ps n t h
    rw [ids, hps, List.map_append, List.mem_append, List.map_singleton, List.mem_singleton, hid,
      ids]

theorem mem_ids_removePeer (ps : P) (n m : N) :
    m ∈ ids (removePeer ps n) ↔ m ∈ ids ps ∧ m ≠ n := by
  rw [ids, LawfulPeerSet.peers_removePeer, ids, List.mem_map, List.mem_map]
  constructor
  · intro ⟨p, hp, hid⟩
    obtain ⟨hp, hne⟩ := List.mem_filter.1 hp
    exact ⟨⟨p, hp, hid⟩, hid ▸ by simpa using hne⟩
  · intro ⟨⟨p, hp, hid⟩, hne⟩
    exact ⟨p, List.mem_filter.2 ⟨hp, by simpa [hid] using hne⟩, hid⟩

/-- The other peers are as before. -/
theorem getPeer_addPeer_of_ne (ps : P) (t : Timeval) (h : m ≠ n) :
    getPeer (addPeer ps n t) m = getPeer ps m := by
  by_cases hn : n ∈ ids ps
  · rw [LawfulPeerSet.addPeer_mem ps n t hn]
  · obtain ⟨p, hid, -, -, -, hps⟩ := LawfulPeerSet.addPeer_new ps n t hn
    have hp : (decide (p.id = m)) = false := by
      rw [hid]
      exact decide_eq_false h.symm
    rw [LawfulPeerSet.getPeer_eq, LawfulPeerSet.getPeer_eq, hps, List.find?_append,
      List.find?_singleton, hp]
    exact Option.or_none

theorem getPeer_removePeer_of_ne (ps : P) (h : m ≠ n) :
    getPeer (removePeer ps n) m = getPeer ps m := by
  rw [LawfulPeerSet.getPeer_eq, LawfulPeerSet.getPeer_eq, LawfulPeerSet.peers_removePeer,
    List.find?_filter]
  congr 1
  funext p
  by_cases hp : p.id = m <;> simp [hp, h]

theorem getPeer_removePeer_self (ps : P) (n : N) : getPeer (removePeer ps n) n = none :=
  getPeer_eq_none_iff.2 fun h => ((mem_ids_removePeer ps n n).1 h).2 rfl

end PeerSet

/-! ## A list of peers -/

/-- A peer set as a list. -/
structure ListPeers (N S : Type) where
  peers : List (Peer N S)
  nodup : (peers.map Peer.id).Nodup

namespace ListPeers

variable {N S : Type} [DecidableEq N] [ChunkIDSet S]

/-- A peer that was just added. -/
def newPeer (n : N) (t : Timeval) : Peer N S :=
  ⟨n, t, some ChunkIDSet.initBitmap, .ofUsec 0, 2147483647, 0⟩

def empty : ListPeers N S := ⟨[], List.nodup_nil⟩

def add (ps : ListPeers N S) (n : N) (t : Timeval) : ListPeers N S :=
  if h : n ∈ ps.peers.map Peer.id then ps
  else ⟨ps.peers ++ [newPeer n t], by
    rw [List.map_append, List.nodup_append]
    refine ⟨ps.nodup, List.nodup_singleton _, ?_⟩
    intro a ha b hb hab
    obtain rfl : b = n := List.mem_singleton.1 hb
    exact h (hab ▸ ha)⟩

def remove (ps : ListPeers N S) (n : N) : ListPeers N S :=
  ⟨ps.peers.filter fun p => p.id ≠ n, ps.nodup.sublist (List.filter_sublist.map _)⟩

def update (ps : ListPeers N S) (n : N) (f : Peer N S → Peer N S) : ListPeers N S :=
  if h : ((ps.peers.map fun p => if p.id = n then f p else p).map Peer.id).Nodup then
    ⟨ps.peers.map fun p => if p.id = n then f p else p, h⟩
  else ps

instance : PeerSet (ListPeers N S) N S where
  peers := peers
  getPeer ps n := ps.peers.find? fun p => p.id = n
  addPeer := add
  removePeer := remove
  update := update

instance : LawfulPeerSet (ListPeers N S) N S where
  nodup_ids := nodup
  getPeer_eq _ _ := rfl
  addPeer_mem ps n t h := dif_pos h
  addPeer_new ps n t h := by
    refine ⟨newPeer n t, rfl, rfl, rfl, rfl, ?_⟩
    show (add ps n t).peers = _
    rw [add, dif_neg (show n ∉ ps.peers.map Peer.id from h)]
    rfl
  peers_removePeer _ _ := rfl
  peers_update ps n f hf := by
    show (update ps n f).peers = _
    rw [update, dif_pos (by rw [map_id_update n hf]; exact ps.nodup)]
    rfl

instance [LawfulChunkIDSet S] : FreshPeerSet (ListPeers N S) N S where
  bmap_addPeer ps n t h p hp hid bmap hbmap := by
    have hnew : p ∈ (add ps n t).peers := hp
    rw [add, dif_neg (show n ∉ ps.peers.map Peer.id from h)] at hnew
    rcases List.mem_append.1 hnew with hold | hnew
    · exact absurd (List.mem_map.2 ⟨p, hold, hid⟩) h
    · obtain rfl := List.mem_singleton.1 hnew
      obtain rfl : ChunkIDSet.initBitmap = bmap := Option.some.inj hbmap
      exact LawfulChunkIDSet.ids_initBitmap

end ListPeers

end PeerStreamer
