import PeerStreamer.Lib.ScanDelete
import PeerStreamer.AltoSelection
import PeerStreamer.TopologyProof

/-!
# The drop of inactive peers, index by index

Both versions of `update_peers` scan the array of the peer set and remove peers from it on the way;
the index goes back by one in the argument of the removal.  As the peer set closes the gap, the loops
drop exactly the peers from which nothing was heard for the timeout, and each of them once.  So the
loops do what `dropInactive` and `sweep` say.
-/

namespace PeerStreamer

open ScanDelete Timeval PeerSet

variable {N P S : Type} [PeerSet P N S]

/-! ## The code -/

namespace Topology

/-- The loop, from the index `i` on. -/
def inactivityLoop (told : Timeval) (fuel : ℕ) (i : Int) (s : State N P) :
    Option (State N P × List (Event N)) :=
  scan (fun s : State N P => peers s.pset) (fun p => inactive told p) (fun p => dropPeer p.id)
    fuel i s

/-- The beginning of `update_peers`. -/
def dropInactiveLoop (clock : ℕ → Timeval) (s : State N P) :
    Option (State N P × List (Event N)) :=
  if timerisset toutBmap then
    let told := timersub (clock s.reads) toutBmap
    inactivityLoop told ((peers s.pset).length + 1) 0 { s with reads := s.reads + 1 }
  else some (s, [])

end Topology

namespace TopologyAlto

def inactivityLoop (told : Timeval) (fuel : ℕ) (i : Int) (pset : P) :
    Option (P × List (Event N)) :=
  scan peers (fun p => Topology.inactive told p) (fun p => dropPeer p.id) fuel i pset

/-- The end of `update_peers`. -/
def sweepLoop (call : Call N) (pset : P) : Option (P × List (Event N)) :=
  inactivityLoop (told call) ((peers pset).length + 1) 0 pset

end TopologyAlto

/-! ## The peers that stay -/

/-- When the peer was last heard of. -/
def Peer.reference (p : Peer N S) : Timeval :=
  if timerisset p.bmapTimestamp then p.bmapTimestamp else p.creationTimestamp

/-- The peers that were last heard of before the time `limit`, in microseconds. -/
def olds (limit : Int) (pset : P) : List N :=
  ((peers pset).filter fun p => p.reference.toUsec < limit).map Peer.id

/-- The peers that were last heard of before the limit are gone, each of them once, and the others
are as they were. -/
structure Swept (limit : Int) (before after : P) (dropped : List N) : Prop where
  stays : peers after = (peers before).filter fun p => limit ≤ p.reference.toUsec
  dropped_eq : dropped = olds limit before
  nodup : dropped.Nodup

theorem inactive_iff (told : Timeval) (p : Peer N S) :
    Topology.inactive told p ↔ p.reference.toUsec < told.toUsec := by
  unfold Topology.inactive Peer.reference
  by_cases hset : timerisset p.bmapTimestamp
  · simp [hset]
  · simp [hset]

theorem filter_inactive (told : Timeval) (pset : P) :
    ((peers pset).filter fun p => Topology.inactive told p).map Peer.id =
      olds told.toUsec pset := by
  unfold olds
  simp only [inactive_iff]

theorem filter_not_inactive (told : Timeval) (pset : P) :
    ((peers pset).filter fun p => !decide (Topology.inactive told p)) =
      (peers pset).filter fun p => told.toUsec ≤ p.reference.toUsec := by
  refine List.filter_congr fun p _ => ?_
  rw [← decide_not]
  exact decide_eq_decide.2 ((not_congr (inactive_iff told p)).trans Int.not_lt)

variable [DecidableEq N] [LawfulPeerSet P N S]

/-- The peer set closes the gap of a peer that is removed. -/
theorem peers_removePeer_gap {pset : P} {xs ys : List (Peer N S)} {p : Peer N S}
    (h : peers pset = xs ++ p :: ys) : peers (removePeer pset p.id) = xs ++ ys := by
  have hids := LawfulPeerSet.nodup_ids pset
  rw [ids, h, List.map_append, List.map_cons] at hids
  obtain ⟨-, hys, hdisj⟩ := List.nodup_append.1 hids
  have hxs : xs.filter (fun q => decide (q.id ≠ p.id)) = xs := by
    refine List.filter_eq_self.2 fun q hq => decide_eq_true ?_
    exact hdisj q.id (List.mem_map_of_mem hq) p.id (List.mem_cons_self ..)
  have hys : ys.filter (fun q => decide (q.id ≠ p.id)) = ys := by
    refine List.filter_eq_self.2 fun q hq => decide_eq_true fun hid => ?_
    exact (List.nodup_cons.1 hys).1 (hid ▸ List.mem_map_of_mem hq)
  rw [LawfulPeerSet.peers_removePeer, h, List.filter_append, List.filter_cons_of_neg (by simp), hxs,
    hys]

theorem nodup_olds (limit : Int) (pset : P) : (olds limit pset).Nodup :=
  (LawfulPeerSet.nodup_ids pset).sublist (List.filter_sublist.map _)

/-! ## The loops -/

namespace Topology

omit [DecidableEq N] [LawfulPeerSet P N S] in
theorem removeAll_eq_forIds (ps : List (Peer N S)) (s : State N P) :
    removeAll (fun p : Peer N S => dropPeer p.id) ps s = forIds dropPeer (ps.map Peer.id) s := by
  induction ps generalizing s with
  | nil => rfl
  | cons p ps ih =>
    unfold removeAll
    rw [ih]
    rfl

/-- The loop calls `remove_peer` as `dropInactive` says. -/
theorem dropInactiveLoop_eq (clock : ℕ → Timeval) (s : State N P) :
    dropInactiveLoop clock s = some (dropInactive clock s) := by
  have hscan := scan_eq (fun s : State N P => peers s.pset)
    (fun p : Peer N S => inactive (timersub (clock s.reads) toutBmap) p)
    (fun p : Peer N S => dropPeer p.id) (s := { s with reads := s.reads + 1 })
    (fun _ _ _ _ h => peers_removePeer_gap h) (List.nil_append _).symm (Nat.lt_succ_self _)
  unfold dropInactiveLoop dropInactive
  rw [if_pos (by decide), if_pos (by decide)]
  refine hscan.trans (congrArg some ?_)
  rw [removeAll_eq_forIds]
  rfl

/-- What becomes of the peer set. -/
theorem peers_dropInactive (clock : ℕ → Timeval) (s : State N P) :
    peers (dropInactive clock s).1.pset = (peers s.pset).filter fun p =>
      (clock s.reads).toUsec - toutBmap.toUsec ≤ p.reference.toUsec := by
  have hstays := elems_removeAll_filter (fun s : State N P => peers s.pset)
    (fun p : Peer N S => inactive (timersub (clock s.reads) toutBmap) p)
    (fun p : Peer N S => dropPeer p.id) (s := { s with reads := s.reads + 1 })
    (fun _ _ _ _ h => peers_removePeer_gap h) (List.nil_append _).symm
  rw [removeAll_eq_forIds] at hstays
  unfold dropInactive
  rw [if_pos (by decide), ← toUsec_timersub, ← filter_not_inactive]
  exact hstays

omit [DecidableEq N] [LawfulPeerSet P N S] in
/-- Each peer that is dropped is put on the blacklist and told so. -/
theorem dropInactive_snd (clock : ℕ → Timeval) (s : State N P) :
    (dropInactive clock s).2 =
      (olds ((clock s.reads).toUsec - toutBmap.toUsec) s.pset).flatMap fun id =>
        [.topoAddToBL id, sendTopoMsg id STREAMER_TOPOLOGY_MSG_REMOVE] := by
  have hevents := removeAll_snd (fun p : Peer N S => dropPeer p.id)
    (f := fun p => [.topoAddToBL p.id, sendTopoMsg p.id STREAMER_TOPOLOGY_MSG_REMOVE])
    (fun p (s : State N P) => rfl)
    ((peers s.pset).filter fun p => inactive (timersub (clock s.reads) toutBmap) p)
    { s with reads := s.reads + 1 }
  rw [removeAll_eq_forIds] at hevents
  unfold dropInactive
  rw [if_pos (by decide), ← toUsec_timersub, ← filter_inactive, List.flatMap_map]
  exact hevents

end Topology

namespace TopologyAlto

omit [DecidableEq N] [LawfulPeerSet P N S] in
theorem removeAll_eq_forEach (ps : List (Peer N S)) (pset : P) :
    removeAll (fun p : Peer N S => dropPeer p.id) ps pset =
      forEach dropPeer (ps.map Peer.id) pset := by
  induction ps generalizing pset with
  | nil => rfl
  | cons p ps ih =>
    unfold removeAll
    rw [ih]
    rfl

theorem sweepLoop_eq (call : Call N) (pset : P) : sweepLoop call pset = some (sweep call pset) := by
  have hscan := scan_eq peers (fun p : Peer N S => Topology.inactive (told call) p)
    (fun p : Peer N S => dropPeer p.id) (s := pset)
    (fun _ _ _ _ h => peers_removePeer_gap h) (List.nil_append _).symm (Nat.lt_succ_self _)
  refine hscan.trans (congrArg some ?_)
  rw [removeAll_eq_forEach]
  rfl

theorem peers_sweep (call : Call N) (pset : P) :
    peers (sweep call pset).1 = (peers pset).filter fun p =>
      call.sweepTime.toUsec - toutBmap.toUsec ≤ p.reference.toUsec := by
  have hstays := elems_removeAll_filter peers
    (fun p : Peer N S => Topology.inactive (told call) p)
    (fun p : Peer N S => dropPeer p.id) (s := pset)
    (fun _ _ _ _ h => peers_removePeer_gap h) (List.nil_append _).symm
  rw [removeAll_eq_forEach] at hstays
  rw [← toUsec_timersub, ← told, ← filter_not_inactive]
  exact hstays

omit [DecidableEq N] [LawfulPeerSet P N S] in
theorem sweep_snd (call : Call N) (pset : P) :
    (sweep call pset).2 =
      (olds (call.sweepTime.toUsec - toutBmap.toUsec) pset).map .topoAddToBL := by
  have hevents := removeAll_snd (fun p : Peer N S => dropPeer p.id)
    (f := fun p => [.topoAddToBL p.id]) (fun p (pset : P) => rfl)
    ((peers pset).filter fun p => Topology.inactive (told call) p) pset
  rw [removeAll_eq_forEach, ← List.map_eq_flatMap] at hevents
  rw [← toUsec_timersub, ← told, ← filter_inactive, List.map_map]
  exact hevents

end TopologyAlto

/-- After the loop of either version the peers that were last heard of before the timeout are gone,
in one call of `remove_peer` each, and the others are left in their order.  Each peer that is dropped
is put on the blacklist once, and in `topology.c` it is told once. -/
theorem inactive_swept (clock : ℕ → Timeval) (s : Topology.State N P) (call : TopologyAlto.Call N)
    (pset : P) :
    (∃ s' dropped,
      Topology.dropInactiveLoop clock s = some (s', dropped.flatMap fun id =>
        [.topoAddToBL id, Topology.sendTopoMsg id Topology.STREAMER_TOPOLOGY_MSG_REMOVE]) ∧
      s' = (Topology.forIds Topology.dropPeer dropped { s with reads := s.reads + 1 }).1 ∧
      s'.savedids = s.savedids ∧
      Swept ((clock s.reads).toUsec - Topology.toutBmap.toUsec) s.pset s'.pset dropped) ∧
    ∃ pset' dropped,
      TopologyAlto.sweepLoop call pset = some (pset', dropped.map .topoAddToBL) ∧
      pset' = (TopologyAlto.forEach TopologyAlto.dropPeer dropped pset).1 ∧
      Swept (call.sweepTime.toUsec - TopologyAlto.toutBmap.toUsec) pset pset' dropped := by
  constructor
  · refine ⟨(Topology.dropInactive clock s).1, _, ?_, ?_, Topology.savedids_dropInactive clock s,
      Topology.peers_dropInactive clock s, rfl, nodup_olds _ _⟩
    · rw [Topology.dropInactiveLoop_eq, ← Topology.dropInactive_snd]
    · rw [← toUsec_timersub, ← filter_inactive, Topology.dropInactive, if_pos (by decide)]
      rfl
  · refine ⟨(TopologyAlto.sweep call pset).1, _, ?_, ?_, TopologyAlto.peers_sweep call pset, rfl,
      nodup_olds _ _⟩
    · rw [TopologyAlto.sweepLoop_eq, ← TopologyAlto.sweep_snd]
    · rw [← toUsec_timersub, ← TopologyAlto.told, ← filter_inactive]
      rfl

/-- Four peers, of which the third is the only one that was added lately. -/
def aged : ListPeers ℕ ListIDSet :=
  (((ListPeers.empty.add 1 (.ofUsec 0)).add 2 (.ofUsec 0)).add 3 (.ofUsec 95000000)).add 4
    (.ofUsec 0)

/-- The first two and the last one are dropped. -/
theorem inactive_swept_aged :
    (∃ s', Topology.dropInactiveLoop (fun _ => .ofUsec 101000000) (.init aged) =
      some (s', [1, 2, 4].flatMap fun id =>
        [.topoAddToBL id, Topology.sendTopoMsg id Topology.STREAMER_TOPOLOGY_MSG_REMOVE]) ∧
      ids s'.pset = [3]) ∧
    ∃ pset', TopologyAlto.sweepLoop (TopologyAlto.calling true) aged =
      some (pset', [1, 2, 4].map .topoAddToBL) ∧ ids pset' = [3] := by
  obtain ⟨⟨s', dropped, hloop, -, -, hswept⟩, pset', dropped', hloop', -, hswept'⟩ :=
    inactive_swept (fun _ => .ofUsec 101000000) (.init aged) (TopologyAlto.calling true) aged
  have hold : dropped = [1, 2, 4] := hswept.dropped_eq.trans (by decide +kernel)
  have hold' : dropped' = [1, 2, 4] := hswept'.dropped_eq.trans (by decide +kernel)
  rw [hold] at hloop
  rw [hold'] at hloop'
  refine ⟨⟨s', hloop, ?_⟩, pset', hloop', ?_⟩
  · rw [ids, hswept.stays]
    decide +kernel
  · rw [ids, hswept'.stays]
    decide +kernel

end PeerStreamer
