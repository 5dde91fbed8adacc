import PeerStreamer.Lib.Mirror
import PeerStreamer.Topology

/-!
# What the neighbourhood functions do

The explicit messages that a node sends to `x` (`told`) against what it has of `x`: a node that
selects in both directions has `x` in its peer set as it last told it (`Follows`), and the
selection of in-neighbours tells `x` what it does with it (`told_reselect`).
-/

namespace PeerStreamer.Topology

open NodeidSet Mirror

variable {N P S : Type} [DecidableEq N] {cfg : Config} {clock : ℕ → Timeval} {x : N}
  {s s' s'' : State N P} {events more : List (Event N)} {ids : List N}
  {f : N → State N P → State N P × List (Event N)}

/-- What an explicit message asks for: true to be added, false to be removed. -/
def kind (buff : List UInt8) : Option Bool :=
  if buff = [MSG_TYPE_STREAMER_TOPOLOGY, STREAMER_TOPOLOGY_MSG_ADD] then some true
  else if buff = [MSG_TYPE_STREAMER_TOPOLOGY, STREAMER_TOPOLOGY_MSG_REMOVE] then some false
  else none

theorem kind_eq_none {buff : List UInt8}
    (hbuff : buff.head? ≠ some MSG_TYPE_STREAMER_TOPOLOGY) : kind buff = none := by
  unfold kind
  rw [if_neg, if_neg]
  all_goals
    rintro rfl
    exact hbuff rfl

/-- What `x` was told, in order. -/
def told (x : N) (events : List (Event N)) : List Bool :=
  events.filterMap fun e => match e with
    | .sendToPeer dst msg => if dst = x then kind msg else none
    | _ => none

@[simp] theorem told_nil (x : N) : told x ([] : List (Event N)) = [] := rfl

@[simp] theorem told_append (x : N) (events more : List (Event N)) :
    told x (events ++ more) = told x events ++ told x more := List.filterMap_append ..

@[simp] theorem told_topoAddToBL (x id : N) (events : List (Event N)) :
    told x (.topoAddToBL id :: events) = told x events := rfl

@[simp] theorem told_sendBmap (x id : N) (events : List (Event N)) :
    told x (.sendBmap id :: events) = told x events := rfl

@[simp] theorem told_add (x id : N) :
    told x [sendTopoMsg id STREAMER_TOPOLOGY_MSG_ADD] = if id = x then [true] else [] := by
  have hkind : kind [MSG_TYPE_STREAMER_TOPOLOGY, STREAMER_TOPOLOGY_MSG_ADD] = some true := by decide
  by_cases h : id = x <;> simp [told, sendTopoMsg, h, hkind]

@[simp] theorem told_remove (x id : N) :
    told x [sendTopoMsg id STREAMER_TOPOLOGY_MSG_REMOVE] = if id = x then [false] else [] := by
  have hkind : kind [MSG_TYPE_STREAMER_TOPOLOGY, STREAMER_TOPOLOGY_MSG_REMOVE] = some false := by
    decide
  by_cases h : id = x <;> simp [told, sendTopoMsg, h, hkind]

/-- A loop that tells each id the same. -/
theorem settled_told_forIds {k : Bool}
    (hf : ∀ id ∈ ids, ∀ s, told x (f id s).2 = if id = x then [k] else []) (m : Bool)
    (s : State N P) : settled m (told x (forIds f ids s).2) = if x ∈ ids then k else m := by
  induction ids generalizing m s with
  | nil => rfl
  | cons id ids ih =>
    have htail := ih (fun j hj => hf j (List.mem_cons_of_mem _ hj)) (settled m (told x (f id s).2))
      (f id s).1
    rw [forIds, told_append, settled_append, htail, hf id (List.mem_cons_self ..) s]
    by_cases hid : id = x
    · subst hid
      simp
    · simp [hid, Ne.symm hid]

variable [PeerSet P N S]

/-- Whether `x` is a peer. -/
def isPeer (pset : P) (x : N) : Bool := x ∈ PeerSet.ids pset

/-! ## The selected ids -/

section Selection

variable {c : Choices N} {pset : P} {maxIds : ℕ} {oldids : List N}

omit [DecidableEq N] in
theorem arrange_perm (best : Bool) (c : Choices N) (k : ℕ) (ids : List N) :
    (arrange best c k ids).Perm ids := by
  unfold arrange
  split_ifs
  · exact c.qsort.perm ids
  · exact nidsetShuffle_perm ..

theorem mem_selecteds (h : x ∈ selecteds cfg c pset maxIds oldids) :
    x ∈ oldids ∨ x ∈ c.newids.map Prod.fst := by
  have hcand : ∀ {kept : List N}, x ∈ (nidsetComplement maxIds
      (nidsetAdd maxIds oldids (c.newids.map Prod.fst)).2 kept).2 →
      x ∈ oldids ∨ x ∈ c.newids.map Prod.fst :=
    fun h => of_mem_nidsetAdd (of_mem_nidsetComplement h)
  rcases of_mem_nidsetAddI h with h | h
  · rcases of_mem_nidsetAddI h with h | h
    · exact .inl (List.mem_of_mem_take h)
    · have h := (arrange_perm ..).mem_iff.1 (List.mem_of_mem_take h)
      exact hcand (mem_copyIf h).1
  · have h := (nidsetShuffle_perm ..).mem_iff.1 (List.mem_of_mem_take h)
    exact hcand (of_mem_nidsetComplement h)

theorem length_selecteds_le (h : oldids.length ≤ maxIds) :
    (selecteds cfg c pset maxIds oldids).length ≤ maxIds := by
  apply length_nidsetAddI_le
  apply length_nidsetAddI_le
  exact Nat.le_trans (List.length_take_le' ..) h

/-- An id that was gossiped is added with the metadata of its entry. -/
theorem addNew_eq (cfg : Config) (clock : ℕ → Timeval) (h : x ∈ c.newids.map Prod.fst) :
    ∃ m, (x, m) ∈ c.newids ∧ ∀ s : State N P,
      addNew cfg clock c.newids x s = addPeer clock x (some m) cfg.topoOut cfg.topoIn s := by
  obtain ⟨j, hj, hx⟩ := nidsetFind_spec h
  rw [List.getElem?_map] at hx
  obtain ⟨⟨id, m⟩, hm, rfl⟩ := Option.map_eq_some_iff.1 hx
  refine ⟨m, List.mem_of_getElem? hm, fun s => ?_⟩
  simp only [addNew, hj, Option.bind_some, hm]

end Selection

/-! ## A node that selects in both directions -/

section Both

/-- A peer is a peer as it was last told, or as before. -/
def Follows (x : N) (s s' : State N P) (events : List (Event N)) : Prop :=
  isPeer s'.pset x = settled (isPeer s.pset x) (told x events)

theorem Follows.refl (x : N) (s : State N P) : Follows x s s [] := rfl

theorem Follows.append (h : Follows x s s' events) (h' : Follows x s' s'' more) :
    Follows x s s'' (events ++ more) := by
  rw [Follows, told_append, settled_append, ← h]
  exact h'

theorem follows_forIds (hf : ∀ id s, Follows x s (f id s).1 (f id s).2) (ids : List N)
    (s : State N P) : Follows x s (forIds f ids s).1 (forIds f ids s).2 := by
  induction ids generalizing s with
  | nil => exact .refl x s
  | cons id ids ih => exact (hf id s).append (ih _)

variable [LawfulPeerSet P N S]

theorem isPeer_addPeer (pset : P) (n x : N) (t : Timeval) :
    isPeer (PeerSet.addPeer pset n t) x = (isPeer pset x || decide (n = x)) := by
  unfold isPeer
  rw [← Bool.decide_or, decide_eq_decide, PeerSet.mem_ids_addPeer, eq_comm (a := x)]

theorem isPeer_removePeer (pset : P) (n x : N) :
    isPeer (PeerSet.removePeer pset n) x = (isPeer pset x && !decide (n = x)) := by
  unfold isPeer
  rw [← decide_not, ← Bool.decide_and, decide_eq_decide, PeerSet.mem_ids_removePeer,
    eq_comm (a := n)]

theorem isPeer_setMetadata (pset : P) (n x : N) (m : Option Metadata) :
    isPeer (m.elim pset fun m => PeerSet.update pset n (setMetadata m)) x = isPeer pset x := by
  cases m with
  | none => rfl
  | some m =>
    unfold isPeer
    rw [Option.elim_some, PeerSet.ids_update pset n (by intro p; rfl)]

/-- A local addition. -/
theorem isPeer_addPeer_local (id : N) (m : Option Metadata) (isRemote : Bool) (s : State N P) :
    isPeer (addPeer clock id m true isRemote s).1.pset x = (isPeer s.pset x || decide (id = x)) :=
  (isPeer_setMetadata ..).trans (isPeer_addPeer ..)

theorem follows_addPeer (x id : N) (m : Option Metadata) (s : State N P) :
    Follows x s (addPeer clock id m true true s).1 (addPeer clock id m true true s).2 := by
  rw [Follows, isPeer_addPeer_local]
  simp only [addPeer, if_true, told_sendBmap, told_add]
  by_cases h : id = x <;> simp [h]

theorem follows_removePeer (x id : N) (s : State N P) :
    Follows x s (removePeer id true true s).1 (removePeer id true true s).2 := by
  simp only [Follows, removePeer, if_true, told_remove, isPeer_removePeer]
  by_cases h : id = x <;> simp [h]

theorem follows_dropInactive (clock : ℕ → Timeval) (x : N) (s : State N P) :
    Follows x s (dropInactive clock s).1 (dropInactive clock s).2 := by
  unfold dropInactive
  split_ifs
  · refine follows_forIds (s := { s with reads := s.reads + 1 }) (fun id s => ?_) _
    simpa only [dropPeer, Follows, told_topoAddToBL] using follows_removePeer x id s
  · exact .refl x s

theorem follows_reselect (clock : ℕ → Timeval) (hout : cfg.topoOut = true)
    (hin : cfg.topoIn = true) (x : N) (c : Choices N) (s : State N P) :
    Follows x s (reselect cfg clock c s).1 (reselect cfg clock c s).2 := by
  refine (follows_forIds (fun id s => ?_) _ s).append (follows_forIds (fun id s => ?_) _ _)
  · unfold addNew
    split
    · rw [hout, hin]
      exact follows_addPeer ..
    · exact .refl x s
  · rw [hout, hin]
    exact follows_removePeer ..

end Both

/-! ## Explicit messages -/

section Explicit

theorem told_explicit (x fromid : N) (buff : List UInt8) (s : State N P) :
    told x (explicit clock fromid buff s).2 = [] := by
  unfold explicit
  split_ifs <;> rfl

omit [DecidableEq N] in
theorem savedids_explicit (fromid : N) (buff : List UInt8) (s : State N P) :
    (explicit clock fromid buff s).1.savedids = s.savedids := by
  unfold explicit
  split_ifs <;> rfl

variable [LawfulPeerSet P N S]

/-- The sender of an explicit message becomes what it asks for. -/
theorem isPeer_explicit (x fromid : N) {buff : List UInt8}
    (hbuff : buff.head? = some MSG_TYPE_STREAMER_TOPOLOGY) (s : State N P) :
    isPeer (explicit clock fromid buff s).1.pset x =
      (if fromid = x then kind buff else none).getD (isPeer s.pset x) := by
  have hne : STREAMER_TOPOLOGY_MSG_REMOVE ≠ STREAMER_TOPOLOGY_MSG_ADD := by decide
  rcases buff with _ | ⟨type, _ | ⟨msg, _ | ⟨more, rest⟩⟩⟩
  · simp at hbuff
  · simp [explicit, kind]
  · obtain rfl : type = MSG_TYPE_STREAMER_TOPOLOGY := by simpa using hbuff
    by_cases hadd : msg = STREAMER_TOPOLOGY_MSG_ADD
    · subst hadd
      cases hget : PeerSet.getPeer s.pset fromid with
      | none =>
        simp only [explicit, hget, kind]
        by_cases hx : fromid = x <;> simp [isPeer_addPeer_local, hx]
      | some p =>
        have hmem : isPeer s.pset fromid = true :=
          decide_eq_true (PeerSet.mem_ids_iff.2 ⟨p, hget⟩)
        by_cases hx : fromid = x
        · subst hx
          simp [explicit, hget, kind, hmem]
        · simp [explicit, hget, hx]
    · by_cases hremove : msg = STREAMER_TOPOLOGY_MSG_REMOVE
      · subst hremove
        by_cases hx : fromid = x <;> simp [explicit, kind, removePeer, isPeer_removePeer, hx, hne]
      · simp [explicit, kind, hadd, hremove]
  · simp [explicit, kind]

/-- A node that selects in both directions has a peer as the peer asks in this message, else as the
peer was last told. -/
theorem isPeer_updatePeers (hout : cfg.topoOut = true) (hin : cfg.topoIn = true) (x : N)
    (msg : Option (N × List UInt8)) (c : Choices N) (s : State N P) :
    isPeer (updatePeers cfg clock msg c s).1.pset x =
      (msg.bind fun m => if m.1 = x then kind m.2 else none).getD
        (settled (isPeer s.pset x) (told x (updatePeers cfg clock msg c s).2)) := by
  have hdrop := follows_dropInactive clock x s
  rcases msg with _ | ⟨fromid, buff⟩
  · exact hdrop
  by_cases hbuff : buff.head? = some MSG_TYPE_STREAMER_TOPOLOGY
  · simp only [updatePeers, hin, hbuff, and_self, if_true, told_append, told_explicit,
      List.append_nil, Option.bind_some]
    rw [isPeer_explicit x fromid hbuff, hdrop]
  · have hkind := kind_eq_none hbuff
    have hall := hdrop.append (follows_reselect clock hout hin x c
      (dropInactive clock s).1)
    simp only [updatePeers, hbuff, and_false, if_false, Option.bind_some, hkind, ite_self,
      Option.getD_none]
    exact hall

end Explicit

/-! ## A node that selects in-neighbours -/

section In

variable {c : Choices N}

omit [DecidableEq N] [PeerSet P N S] in
theorem savedids_forIds (hf : ∀ id s, (f id s).1.savedids = s.savedids) (ids : List N)
    (s : State N P) : (forIds f ids s).1.savedids = s.savedids := by
  induction ids generalizing s with
  | nil => rfl
  | cons id ids ih => exact (ih _).trans (hf id s)

omit [DecidableEq N] in
theorem savedids_dropInactive (clock : ℕ → Timeval) (s : State N P) :
    (dropInactive clock s).1.savedids = s.savedids := by
  unfold dropInactive
  split_ifs
  · exact savedids_forIds (s := { s with reads := s.reads + 1 }) (fun _ _ => rfl) _
  · rfl

/-- A peer that is found inactive is told that it is removed. -/
theorem settled_told_dropInactive (clock : ℕ → Timeval) (x : N) (m : Bool) (s : State N P) :
    settled m (told x (dropInactive clock s).2) =
      if x ∈ inactiveIds (clock s.reads) s.pset then false else m := by
  rw [dropInactive, if_pos (by decide)]
  refine settled_told_forIds (fun id _ s => ?_) m _
  simp [dropPeer, removePeer]

/-- The selection of in-neighbours tells an id what becomes of it. -/
theorem settled_told_reselect (clock : ℕ → Timeval) (hout : cfg.topoOut = false)
    (hin : cfg.topoIn = true) (x : N) (c : Choices N) (m : Bool) (s : State N P) :
    settled m (told x (reselect cfg clock c s).2) =
      if x ∈ (reselect cfg clock c s).1.savedids ∧ x ∉ s.savedids then true
      else if x ∈ s.savedids ∧ x ∉ (reselect cfg clock c s).1.savedids then false else m := by
  set maxIds := ((PeerSet.peers s.pset).map Peer.id).length + s.savedids.length + c.newids.length
  set oldids := arrange cfg.topoKeepBest c 0 s.savedids with hold
  set sel := selecteds cfg c s.pset maxIds oldids with hsel
  have hperm : oldids.Perm s.savedids := arrange_perm ..
  have hlen : oldids.length ≤ maxIds := by
    rw [hperm.length_eq]
    omega
  have hadds : ∀ y, y ∈ (nidsetComplement maxIds sel oldids).2 ↔ y ∈ sel ∧ y ∉ s.savedids := by
    intro y
    rw [mem_nidsetComplement (length_selecteds_le hlen), hperm.mem_iff]
  have hremoves : ∀ y, y ∈ (nidsetComplement maxIds oldids sel).2 ↔ y ∈ s.savedids ∧ y ∉ sel := by
    intro y
    rw [mem_nidsetComplement hlen, hperm.mem_iff]
  have hadd : ∀ id ∈ (nidsetComplement maxIds sel oldids).2, ∀ s : State N P,
      told x (addNew cfg clock c.newids id s).2 = if id = x then [true] else [] := by
    intro id hid s
    obtain ⟨hmem, hnew⟩ := (hadds id).1 hid
    have hgossip := (mem_selecteds hmem).resolve_left fun h => hnew (hperm.mem_iff.1 h)
    obtain ⟨md, -, heq⟩ := addNew_eq (P := P) cfg clock hgossip
    rw [heq, hout, hin]
    exact told_add x id
  have hremove : ∀ id ∈ (nidsetComplement maxIds oldids sel).2, ∀ s : State N P,
      told x (removePeer id cfg.topoOut cfg.topoIn s).2 = if id = x then [false] else [] := by
    intro id _ s
    rw [hout, hin]
    exact told_remove x id
  have hsaved : (reselect cfg clock c s).1.savedids = sel := by
    simp [reselect, hout, hsel, hold, maxIds]
  have hevents : told x (reselect cfg clock c s).2 =
      told x (forIds (addNew cfg clock c.newids) (nidsetComplement maxIds sel oldids).2 s).2 ++
      told x (forIds (fun id => removePeer id cfg.topoOut cfg.topoIn)
        (nidsetComplement maxIds oldids sel).2
        (forIds (addNew cfg clock c.newids) (nidsetComplement maxIds sel oldids).2 s).1).2 := by
    simp [reselect, hout, hsel, hold, maxIds]
  rw [hevents, settled_append, settled_told_forIds hremove, settled_told_forIds hadd, hsaved]
  simp only [hadds, hremoves]
  by_cases hnew : x ∈ sel <;> by_cases hsaved : x ∈ s.savedids <;> simp [hnew, hsaved]

end In

/-! ## Plain settings -/

/-- The default settings, which select in both directions. -/
def defaultConfig : Config where
  topoOut := true
  topoIn := true
  topoKeepBest := false
  topoAddBest := false
  topoMem := Double.round (7 / 10)
  alphaTarget := Double.round (2 / 5)
  neighborhoodTargetSize := 30
  desiredRtt := 1 / 5
  desiredBw := 0
  topoMem_nonneg := by decide +kernel
  topoMem_le_one := by decide +kernel

/-- These nodes are gossiped, and nothing is known of them. -/
def gossiped (newids : List ℕ) : Choices ℕ where
  newids := newids.map fun id => (id, ⟨10, 0⟩)
  rtt _ := none
  qsort := ⟨id, .refl⟩
  rand _ _ := 0

/-- No time passes. -/
def stillReadings (_ : ℕ) : Timeval := .ofUsec 0

/-- Half a minute passes between two readings. -/
def slowReadings (n : ℕ) : Timeval := .ofUsec (30000000 * n)

end PeerStreamer.Topology
