import Mathlib.Algebra.Order.Floor.Ring
import Mathlib.Data.Rat.Floor
import PeerStreamer.Grapes.PeerSet
import PeerStreamer.NodeidSet

/-!
# The neighbourhood of a node (`topology.c`)

`update_peers` drops the peers that have been silent, serves the requests of other nodes to be
added or removed, and, when a gossip message arrives, selects the neighbourhood anew.  A node that
selects out-neighbours selects the members of its peer set; a node that selects only in-neighbours
keeps the ones it has asked in `savedids`.

Times are readings of any clock, numbered by `reads`; a `double` is the rational number it stands
for, and NaN is `none`.
-/

namespace PeerStreamer.Topology

open NodeidSet Timeval

/-- The settings of a node. -/
structure Config where
  topoOut : Bool
  topoIn : Bool
  topoKeepBest : Bool
  topoAddBest : Bool
  topoMem : ℚ
  alphaTarget : ℚ
  neighborhoodTargetSize : Int
  desiredRtt : ℚ
  desiredBw : ℚ
  /-- The portion that is kept, "(0..1)". -/
  topoMem_nonneg : 0 ≤ topoMem
  topoMem_le_one : topoMem ≤ 1

/-- The metadata of a node, as far as it is used. -/
structure Metadata where
  cbSize : UInt16
  capacity : ℚ
  deriving DecidableEq, Repr

/-- The static variables, and the number of clock readings so far. -/
structure State (N P : Type) where
  pset : P
  savedids : List N
  reads : ℕ

/-- What a node does to its surroundings. -/
inductive Event (N : Type) where
  | topoAddToBL (id : N)
  | sendBmap (id : N)
  | sendToPeer (dst : N) (msg : List UInt8)
  deriving DecidableEq, Repr

/-- A rearrangement of an array. -/
structure Order (N : Type) where
  sort : List N → List N
  perm : ∀ xs, (sort xs).Perm xs

/-- The gossiped neighbourhood, the round trip times and the outcomes of the rearrangements.  What
`qsort` does is open, since `vcmp_rtt` takes the array elements it is pointed to for node IDs. -/
structure Choices (N : Type) where
  newids : List (N × Metadata)
  rtt : N → Option ℚ
  qsort : Order N
  rand : ℕ → ℕ → Fin (RAND_MAX + 1)

variable {N P S : Type} [PeerSet P N S]

def State.init (pset : P) : State N P := ⟨pset, [], 0⟩

/-! ## Explicit messages -/

def MSG_TYPE_STREAMER_TOPOLOGY : UInt8 := 0x22

def STREAMER_TOPOLOGY_MSG_ADD : UInt8 := 0

def STREAMER_TOPOLOGY_MSG_REMOVE : UInt8 := 1

def sendTopoMsg (dst : N) (type : UInt8) : Event N :=
  .sendToPeer dst [MSG_TYPE_STREAMER_TOPOLOGY, type]

/-- The metadata of a peer is recorded. -/
def setMetadata (m : Metadata) (p : Peer N S) : Peer N S :=
  { p with cbSize := m.cbSize.toNat, capacity := m.capacity }

def addPeer (clock : ℕ → Timeval) (id : N) (m : Option Metadata) (isLocal isRemote : Bool)
    (s : State N P) : State N P × List (Event N) :=
  let remote := if isRemote then [sendTopoMsg id STREAMER_TOPOLOGY_MSG_ADD] else []
  if isLocal then
    let pset := PeerSet.addPeer s.pset id (clock s.reads)
    let pset := m.elim pset fun m => PeerSet.update pset id (setMetadata m)
    ({ s with pset := pset, reads := s.reads + 1 }, .sendBmap id :: remote)
  else (s, remote)

def removePeer (id : N) (isLocal isRemote : Bool) (s : State N P) :
    State N P × List (Event N) :=
  (if isLocal then { s with pset := PeerSet.removePeer s.pset id } else s,
    if isRemote then [sendTopoMsg id STREAMER_TOPOLOGY_MSG_REMOVE] else [])

/-- A loop over an array of ids. -/
def forIds (f : N → State N P → State N P × List (Event N)) :
    List N → State N P → State N P × List (Event N)
  | [], s => (s, [])
  | id :: ids, s =>
    let (s, events) := f id s
    let (s, more) := forIds f ids s
    (s, events ++ more)

/-! ## Silent peers -/

def toutBmap : Timeval := ⟨20, 0, by decide, by decide⟩

/-- Nothing was heard from the peer since `told`. -/
def inactive (told : Timeval) (p : Peer N S) : Prop :=
  ¬ timerisset p.bmapTimestamp ∧ timercmp p.creationTimestamp told (· < ·) ∨
    timerisset p.bmapTimestamp ∧ timercmp p.bmapTimestamp told (· < ·)

instance (told : Timeval) (p : Peer N S) : Decidable (inactive told p) :=
  inferInstanceAs (Decidable (_ ∨ _))

def inactiveIds (now : Timeval) (pset : P) : List N :=
  ((PeerSet.peers pset).filter fun p => inactive (timersub now toutBmap) p).map Peer.id

def dropPeer (id : N) (s : State N P) : State N P × List (Event N) :=
  let (s, events) := removePeer id true true s
  (s, .topoAddToBL id :: events)

/-- The first loop of `update_peers`; a removal leaves the other peers in their order. -/
def dropInactive (clock : ℕ → Timeval) (s : State N P) : State N P × List (Event N) :=
  if timerisset toutBmap then
    forIds dropPeer (inactiveIds (clock s.reads) s.pset) { s with reads := s.reads + 1 }
  else (s, [])

/-! ## The selection -/

def getCapacityOf (pset : P) (n : N) : Option ℚ := (PeerSet.getPeer pset n).map Peer.capacity

/-- 1 for yes, 0 for no, -1 for unknown; the desired round trip time is finite. -/
def desiredness (cfg : Config) (rtt bw : Option ℚ) : Int :=
  if rtt.isNone ∨ bw.isNone ∧ cfg.desiredBw > 0 then -1
  else if rtt.all (· ≤ cfg.desiredRtt) ∧ bw.all (· ≥ cfg.desiredBw) then 1
  else 0

def isDesired (cfg : Config) (c : Choices N) (pset : P) (n : N) : Bool :=
  desiredness cfg (c.rtt n) (getCapacityOf pset n) = 1

/-- The conversion of a `double` to `int`. -/
def trunc (x : ℚ) : Int := if 0 ≤ x then ⌊x⌋ else ⌈x⌉

/-- Put the best first, or shuffle. -/
def arrange (best : Bool) (c : Choices N) (k : ℕ) (ids : List N) : List N :=
  if best then c.qsort.sort ids else nidsetShuffle (c.rand k) ids

def keepSize (cfg : Config) (oldidsSize : ℕ) : ℕ :=
  (trunc (Double.mul cfg.topoMem oldidsSize)).toNat

/-- How many more ids fit, when there is a target. -/
def missing (cfg : Config) (selectedsSize : ℕ) : Int :=
  max (cfg.neighborhoodTargetSize - selectedsSize) 0

def desiredPart (cfg : Config) (selectedsSize : ℕ) : Int :=
  trunc (Double.mul (Double.sub 1 cfg.alphaTarget)
    (if cfg.neighborhoodTargetSize ≠ 0 then missing cfg selectedsSize else 0 : Int))

def randomSize (cfg : Config) (othersSize selectedsSize : ℕ) : Int :=
  if cfg.neighborhoodTargetSize ≠ 0 then min othersSize (missing cfg selectedsSize) else othersSize

variable [DecidableEq N]

/-- The ids that are selected: some old ones are kept, then desired ones are added, then others. -/
def selecteds (cfg : Config) (c : Choices N) (pset : P) (maxIds : ℕ) (oldids : List N) : List N :=
  let kept := oldids.take (keepSize cfg oldids.length)
  let nodeids := (nidsetAdd maxIds oldids (c.newids.map Prod.fst)).2
  let candidates := (nidsetComplement maxIds nodeids kept).2
  let desireds := arrange cfg.topoAddBest c 1
    (nidsetFilter maxIds candidates (isDesired cfg c pset)).2
  let wanted := (min ↑desireds.length (desiredPart cfg kept.length)).toNat
  let selecteds := (nidsetAddI maxIds kept (desireds.take wanted)).2
  let others := nidsetShuffle (c.rand 2) (nidsetComplement maxIds candidates selecteds).2
  let randoms := (randomSize cfg others.length selecteds.length).toNat
  (nidsetAddI maxIds selecteds (others.take randoms)).2

/-- Add an id with the metadata it was gossiped with; without any the code only complains. -/
def addNew (cfg : Config) (clock : ℕ → Timeval) (newids : List (N × Metadata)) (id : N)
    (s : State N P) : State N P × List (Event N) :=
  match (nidsetFind (newids.map Prod.fst) id).bind fun j => newids[j]? with
  | some (id, m) => addPeer clock id (some m) cfg.topoOut cfg.topoIn s
  | none => (s, [])

/-- The last part of `update_peers`: select, add the new ones, remove those not needed. -/
def reselect (cfg : Config) (clock : ℕ → Timeval) (c : Choices N) (s : State N P) :
    State N P × List (Event N) :=
  let peers := (PeerSet.peers s.pset).map Peer.id
  let maxIds := peers.length + s.savedids.length + c.newids.length
  let oldids := arrange cfg.topoKeepBest c 0 (if cfg.topoOut then peers else s.savedids)
  let sel := selecteds cfg c s.pset maxIds oldids
  let (s, added) := forIds (addNew cfg clock c.newids) (nidsetComplement maxIds sel oldids).2 s
  let (s, removed) := forIds (fun id => removePeer id cfg.topoOut cfg.topoIn)
    (nidsetComplement maxIds oldids sel).2 s
  ({ s with savedids := if cfg.topoOut then s.savedids else sel }, added ++ removed)

/-! ## The function -/

/-- Serve an explicit message. -/
def explicit (clock : ℕ → Timeval) (fromid : N) (buff : List UInt8) (s : State N P) :
    State N P × List (Event N) :=
  if buff.length ≠ 2 then (s, [])
  else if buff[1]? = some STREAMER_TOPOLOGY_MSG_ADD then
    if (PeerSet.getPeer s.pset fromid).isNone then addPeer clock fromid none true false s
    else (s, [])
  else if buff[1]? = some STREAMER_TOPOLOGY_MSG_REMOVE then removePeer fromid true false s
  else (s, [])

/-- `update_peers`, with the message and its sender, or none when the main loop calls it. -/
def updatePeers (cfg : Config) (clock : ℕ → Timeval) (msg : Option (N × List UInt8))
    (c : Choices N) (s : State N P) : State N P × List (Event N) :=
  let (s, dropped) := dropInactive clock s
  match msg with
  | none => (s, dropped)
  | some (fromid, buff) =>
    let (s, events) :=
      if cfg.topoIn ∧ buff.head? = some MSG_TYPE_STREAMER_TOPOLOGY then
        explicit clock fromid buff s
      else reselect cfg clock c s
    (s, dropped ++ events)

end PeerStreamer.Topology
