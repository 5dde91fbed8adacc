import Mathlib.Data.List.ReduceOption
import PeerStreamer.CInt
import PeerStreamer.Lib.Qsort
import PeerStreamer.Lib.Run
import PeerStreamer.Topology

/-!
# The neighbourhood with ALTO guidance (`topology-ALTO.c`)

`update_peers` asks an ALTO server to rate the known nodes.  The answer comes later, and until it is
there `currentNeighborhood` is not rebuilt.  `PeerSelectorALTO` then builds `altoList` from the best
rated nodes and some random ones, and `update_peers` puts these in the peer set, fills it up with
gossiped ones and drops the silent ones.

The ALTO client is not part of the repository: whether a query succeeds, when it is answered and the
ratings it leaves in `ALTOInfo.peers` are arguments, and so are the readings of the clock and the
random numbers.
-/

namespace PeerStreamer.TopologyAlto

open Timeval PeerStreamer.Topology

def ALTO_MAX_PEERS : ℕ := 1024

/-- The settings, and the rounding of a product of `float` type.  `host` is the address of a node
without its port. -/
structure Config (N : Type) where
  altoServer : Bool
  neighborhoodTargetSize : Int
  altoFactor : ℚ
  updateInterval : UInt32
  host : N → UInt32
  /-- "in 0-1 range" -/
  altoFactor_nonneg : 0 ≤ altoFactor
  altoFactor_le_one : altoFactor ≤ 1
  round : ℚ → ℚ
  round_mono : Monotone round
  round_natCast : ∀ k : ℕ, k ≤ ALTO_MAX_PEERS → round k = k

/-- `NEIGHBORHOOD_TARGET_SIZE`, which is set when there is an ALTO server. -/
def Config.target {N : Type} (cfg : Config N) : Int :=
  if cfg.altoServer then cfg.neighborhoodTargetSize else 0

/-- `ALTO_GUIDANCE_T`, as far as it is read; a low rating is a good one. -/
structure Guidance where
  altoHost : UInt32
  rating : Int
  deriving DecidableEq, Repr

/-- The static variables; `none` is a NULL pointer in `currentNeighborhood`. -/
structure State (N P : Type) where
  pset : P
  currtime : UInt64
  altoList : List N
  currentNeighborhood : List (Option N)
  /-- 0 while an answer is awaited, 1 when there is a list to apply, 2 when it was applied. -/
  newAltoResults : ℕ
  /-- `ALTOInfo.peers` -/
  peers : List Guidance

/-- `qsort_compare_ALTO_ranking`; the difference of two ratings wraps round when it is no `int`. -/
def qsortCompareAltoRanking (r1 r2 : Guidance) : Int := toInt (r1.rating - r2.rating)

/-- What `qsort` does with this comparison. -/
structure RatingOrder where
  sort : List Guidance → List Guidance
  outcome : ∀ gs, Qsort.Outcome (.ofFun qsortCompareAltoRanking) gs (sort gs)

/-- What a call of `update_peers` meets. -/
structure Call (N : Type) where
  /-- `topGetNeighbourhood` -/
  nbrs : List N
  /-- `ALTO_query_exec` -/
  rescode : Int
  /-- `ALTO_query_state() == ALTO_QUERY_READY`, in `PeerSelectorALTO` and in `update_peers`. -/
  selectorReady : Bool
  listReady : Bool
  /-- The ratings when the answer is there. -/
  rating : ℕ → Int
  qsort : RatingOrder
  /-- The values of `rand`. -/
  draws : List ℕ
  /-- The readings of the clock: for the interval, for the answer, for the creation of a peer and
  for the silent peers. -/
  selectorTime : Timeval
  replyTime : Timeval
  created : N → Timeval
  sweepTime : Timeval

inductive Event (N : Type) where
  | sendBmap (id : N)
  | topoAddToBL (id : N)
  | altoQueryExec (peers : List Guidance)
  deriving DecidableEq, Repr

variable {N P S : Type}

def State.init (pset : P) : State N P where
  pset := pset
  currtime := 0
  altoList := []
  currentNeighborhood := []
  newAltoResults := 2
  peers := List.replicate ALTO_MAX_PEERS ⟨0, 0⟩

/-- `tv_usec + tv_sec * 1000000ull` -/
def timenow (t : Timeval) : UInt64 := UInt64.ofNat (t.toUsec % 2 ^ 64).toNat

/-! ## The query -/

/-- The copy of the addresses into `ALTOInfo`; `node_ip` reads the node ID. -/
def fillPeers (cfg : Config N) : List (Option N) → Except Fault (List Guidance)
  | [] => .ok []
  | none :: _ => .error .outOfBounds
  | some n :: ns => do
    let gs ← fillPeers cfg ns
    return ⟨cfg.host n, -1⟩ :: gs

/-- The first part of `PeerSelectorALTO`. -/
def queryAlto (cfg : Config N) (call : Call N) (s : State N P) :
    Except Fault (State N P × List (Event N)) :=
  if timenow call.selectorTime - s.currtime > (cfg.updateInterval * 1000000).toUInt64 ∧
      s.newAltoResults ≠ 0 then
    if s.currentNeighborhood.length > ALTO_MAX_PEERS then .error .outOfBounds
    else do
      let filled ← fillPeers cfg s.currentNeighborhood
      return ({ s with
        peers := filled ++ s.peers.drop filled.length
        newAltoResults := if call.rescode ≠ 1 then 1 else 0 }, [.altoQueryExec filled])
  else .ok (s, [])

/-! ## The disjoint buckets -/

/-- `findALTOPeerInNeighbourList`, which takes the entry out of the array. -/
def findAltoPeer (cfg : Config N) (altoHost : UInt32) :
    List (Option N) → Option N × List (Option N)
  | [] => (none, [])
  | none :: ns =>
    let (found, ns) := findAltoPeer cfg altoHost ns
    (found, none :: ns)
  | some n :: ns =>
    if cfg.host n = altoHost then (some n, none :: ns)
    else
      let (found, ns) := findAltoPeer cfg altoHost ns
      (found, some n :: ns)

/-- The arrays while the list is built: what is left of the neighbourhood, and the `j` entries of
`altoList` that are filled. -/
structure Building (N : Type) where
  neighborhood : List (Option N)
  altoList : List N
  deriving DecidableEq, Repr

/-- The entry `j` of an array with `size` elements is set. -/
def Building.push (size : ℕ) (b : Building N) (n : N) (ns : List (Option N)) :
    Except Fault (Building N) :=
  if b.altoList.length < size then .ok ⟨ns, b.altoList ++ [n]⟩ else .error .outOfBounds

/-- The loop that adds ALTO peers, over their entries; NULL is stored when none is found. -/
def altoLoop (cfg : Config N) (size : ℕ) : List Guidance → Building N → Except Fault (Building N)
  | [], b => .ok b
  | g :: gs, b =>
    match findAltoPeer cfg g.altoHost b.neighborhood with
    | (some n, ns) => do
      let b ← b.push size n ns
      altoLoop cfg size gs b
    | (none, ns) =>
      if b.altoList.length < size then altoLoop cfg size gs ⟨ns, b.altoList⟩
      else .error .outOfBounds

/-- The `do`/`while` loop that picks an entry: its index, the node and the draws that are left. -/
def pick (ns : List (Option N)) : List ℕ → Except Fault (ℕ × N × List ℕ)
  | [] => .error .outOfFuel
  | r :: draws =>
    match ns[r % ns.length]? with
    | some (some n) => .ok (r % ns.length, n, draws)
    | _ => pick ns draws

/-- The loop that adds random peers, with `k` to go. -/
def randLoop (size : ℕ) : ℕ → List ℕ → Building N → Except Fault (Building N × List ℕ)
  | 0, draws, b => .ok (b, draws)
  | k + 1, draws, b => do
    let (p, n, draws) ← pick b.neighborhood draws
    let b ← b.push size n (b.neighborhood.set p none)
    randLoop size k draws b

def listSize (cfg : Config N) (neighSize : ℕ) : ℕ :=
  if 0 < cfg.target ∧ cfg.target < neighSize then cfg.target.toNat else neighSize

/-- `ALTO_bucket_size` -/
def altoBucketSize (cfg : Config N) (size : ℕ) : ℕ :=
  (trunc (cfg.round (size * cfg.altoFactor))).toNat

/-- The ratings of an answer. -/
def rated (rating : ℕ → Int) (gs : List Guidance) : List Guidance :=
  gs.mapIdx fun k g => { g with rating := rating k }

/-- The entries of `ALTOInfo.peers` when they are sorted. -/
def sortedPeers (call : Call N) (s : State N P) : List Guidance :=
  call.qsort.sort (rated call.rating (s.peers.take s.currentNeighborhood.length))

def buildList (cfg : Config N) (call : Call N) (s : State N P) : Except Fault (State N P) := do
  let size := listSize cfg s.currentNeighborhood.length
  let bucket := altoBucketSize cfg size
  let sorted := sortedPeers call s
  let b ← altoLoop cfg size (sorted.take bucket) ⟨s.currentNeighborhood, []⟩
  let (b, _) ← randLoop size (size - bucket) call.draws b
  return { s with
    currtime := timenow call.replyTime
    altoList := b.altoList
    currentNeighborhood := b.neighborhood
    newAltoResults := 1
    peers := sorted ++ s.peers.drop s.currentNeighborhood.length }

/-- There is an answer to build a list from. -/
def builds (call : Call N) (s : State N P) : Bool := call.selectorReady ∧ s.newAltoResults = 0

def peerSelectorAlto (cfg : Config N) (call : Call N) (s : State N P) :
    Except Fault (State N P × List (Event N)) := do
  let (s, events) ← queryAlto cfg call s
  if builds call s then do
    let s ← buildList cfg call s
    return (s, events)
  else return (s, events)

/-! ## The peer set -/

section Peers

variable [PeerSet P N S] [DecidableEq N]

def addPeer (created : N → Timeval) (id : N) (pset : P) : P × List (Event N) :=
  (PeerSet.addPeer pset id (created id), [.sendBmap id])

/-- The rebuilding of `currentNeighborhood`. -/
def rebuild (call : Call N) (s : State N P) : State N P :=
  if s.newAltoResults ≠ 0 then
    let ids := PeerSet.ids s.pset
    { s with currentNeighborhood := (ids ++ call.nbrs.filter (· ∉ ids)).map some }
  else s

/-- A loop that changes the peer set. -/
def forEach {α : Type} (f : α → P → P × List (Event N)) : List α → P → P × List (Event N)
  | [], pset => (pset, [])
  | x :: xs, pset =>
    let (pset, events) := f x pset
    let (pset, more) := forEach f xs pset
    (pset, events ++ more)

/-- One entry of the list: when the peer set is full, a peer that is not in the list makes place. -/
def applyEntry (cfg : Config N) (created : N → Timeval) (altoList : List N) (entry : N × ℕ)
    (pset : P) : P × List (Event N) :=
  if (PeerSet.getPeer pset entry.1).isSome then (pset, [])
  else if cfg.target ≠ 0 ∧ (PeerSet.peers pset).length ≥ cfg.target then
    match (PeerSet.ids pset).find? fun id => id ∉ altoList.eraseIdx entry.2 with
    | some id => addPeer created entry.1 (PeerSet.removePeer pset id)
    | none => (pset, [])
  else addPeer created entry.1 pset

def addNew (created : N → Timeval) (id : N) (pset : P) : P × List (Event N) :=
  if (PeerSet.getPeer pset id).isSome then (pset, []) else addPeer created id pset

/-- The filling with gossiped nodes; the size is only checked before. -/
def fillGossip (cfg : Config N) (call : Call N) (pset : P) : P × List (Event N) :=
  if cfg.target = 0 ∨ (PeerSet.peers pset).length < cfg.target then
    forEach (addNew call.created) call.nbrs pset
  else (pset, [])

def toutBmap : Timeval := .ofUsec 10000000

/-- Peers that were not heard from since this time are silent. -/
def told (call : Call N) : Timeval := timersub call.sweepTime toutBmap

def dropPeer (id : N) (pset : P) : P × List (Event N) :=
  (PeerSet.removePeer pset id, [.topoAddToBL id])

/-- The loop that drops the silent peers; a removal leaves the other peers in their order. -/
def sweep (call : Call N) (pset : P) : P × List (Event N) :=
  forEach dropPeer (((PeerSet.peers pset).filter fun p => inactive (told call) p).map Peer.id) pset

/-- There is a list to put in the peer set. -/
def applies (cfg : Config N) (call : Call N) (s : State N P) : Bool :=
  cfg.altoServer ∧ call.listReady ∧ s.newAltoResults = 1

/-- The second part of `update_peers`. -/
def fillPeerset (cfg : Config N) (call : Call N) (s : State N P) : State N P × List (Event N) :=
  let (s, applied) :=
    if applies cfg call s then
      let (pset, events) := forEach (applyEntry cfg call.created s.altoList) s.altoList.zipIdx s.pset
      ({ s with pset := pset, newAltoResults := 2 }, events)
    else (s, [])
  let (pset, filled) := fillGossip cfg call s.pset
  let (pset, swept) := sweep call pset
  ({ s with pset := pset }, applied ++ filled ++ swept)

/-- The first part of `update_peers`. -/
def selectPeers (cfg : Config N) (call : Call N) (s : State N P) :
    Except Fault (State N P × List (Event N)) :=
  let s := rebuild call s
  if cfg.altoServer ∧ s.currentNeighborhood.length > 1 then peerSelectorAlto cfg call s
  else .ok (s, [])

def updatePeers (cfg : Config N) (call : Call N) (s : State N P) :
    Except Fault (State N P × List (Event N)) := do
  let (s, selected) ← selectPeers cfg call s
  let (s, filled) := fillPeerset cfg call s
  return (s, selected ++ filled)

/-- `nodeid_to_peer`, when a message of this node is received. -/
def nodeidToPeer (cfg : Config N) (created : N → Timeval) (id : N) (reg : Bool) (s : State N P) :
    State N P × List (Event N) :=
  if (PeerSet.getPeer s.pset id).isNone ∧ reg ∧ (PeerSet.peers s.pset).length < cfg.target then
    let (pset, events) := addPeer created id s.pset
    ({ s with pset := pset }, events)
  else (s, [])

/-- What a node does with its neighbourhood. -/
inductive Input (N S : Type) where
  | updatePeers (call : Call N)
  | nodeidToPeer (created : N → Timeval) (id : N) (reg : Bool)
  /-- The streaming code stores to the record of a peer. -/
  | store (id : N) (f : Peer N S → Peer N S) (hf : ∀ p, (f p).id = p.id)

def step (cfg : Config N) (i : Input N S) (s : State N P) :
    Except Fault (State N P × List (Event N)) :=
  match i with
  | .updatePeers call => updatePeers cfg call s
  | .nodeidToPeer created id reg => .ok (nodeidToPeer cfg created id reg s)
  | .store id f _ => .ok ({ s with pset := PeerSet.update s.pset id f }, [])

end Peers

end PeerStreamer.TopologyAlto
