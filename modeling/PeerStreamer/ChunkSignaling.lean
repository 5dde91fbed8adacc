import PeerStreamer.Lib.Run
import PeerStreamer.Streaming

/-!
# Signalling (`chunk_signaling.c`) and the steps of a node

`sigParseData` dispatches a decoded signalling message to its handler.  `step` collects everything
a node does between two waits of its main loop: it handles a message, pushes a chunk, sends offers,
stores a chunk of its own, or lets the topology manager change its peers.
-/

namespace PeerStreamer.Streaming

open ChunkLock Transaction RateControl

/-- A decoded signalling message. -/
inductive Signal (N S : Type) where
  | bufferMap (ownerid : N) (cset : S) (cbSize : Int) (transId : UInt16)
  | offer (cset : S) (maxDeliver : Int) (transId : UInt16)
  | accept (cset : S) (transId : UInt16)
  | ack (cset : S) (transId : UInt16)
  /-- A type that the dispatcher does not know. -/
  | other
  deriving DecidableEq, Repr

/-- What a node reacts to, with the answers of the code outside the repository. -/
inductive Input (N P S : Type) where
  /-- A chunk message, or one that cannot be decoded. -/
  | chunk (fromid : N) (msg : Option (Chunk × UInt16)) (ackSkipped : Bool)
  /-- A signalling message, or one that cannot be decoded; `sent` gives the results of the sends. -/
  | signal (fromid : N) (msg : Option (Signal N S)) (sent : ℕ → Bool)
  | sendChunk (pair : Option (N × Int)) (sent : Bool)
  | sendOffer (skipped : Bool) (selected : List (OfferPeer N))
  | addChunk (c : Chunk)
  /-- `update_peers` leaves this peer set. -/
  | updatePeers (pset : P)

variable {N B P S : Type} [DecidableEq N] [ChunkIDSet S] [ChunkBuffer B] [PeerSet P N S]

/-! ## The handlers -/

/-- The recorded buffer map is replaced by the set of a message. -/
def resetBmap (cset : S) (now : Timeval) (p : Peer N S) : Peer N S :=
  { p with
    bmap := p.bmap.map fun bmap => ChunkIDSet.union (ChunkIDSet.clear bmap) cset
    bmapTimestamp := now }

/-- A store to a peer's record, with a reading of the clock, when the peer is known. -/
def updatePeer (clock : Clock) (n : N) (f : Timeval → Peer N S → Peer N S) (s : State N B P) :
    State N B P :=
  match PeerSet.getPeer s.pset n with
  | none => s
  | some _ => { s with
      pset := PeerSet.update s.pset n (f (clock.read s.reads))
      reads := s.reads + 1 }

def ackReceived (cfg : Config) (clock : Clock) (fromid : N) (cset : S) (transId : UInt16)
    (s : State N B P) : Except Fault (State N B P × List (Event N S)) := do
  let s := updatePeer clock fromid (resetBmap cset) s
  let (transactions, rate, n) ← rcRegAck cfg.rate clock.read transId s.transactions s.rate s.reads
  return ({ s with transactions := transactions, rate := rate, reads := n }, [])

/-- `bmap_received`: a peer behind a NAT does not own the address that it sends from. -/
def bmapReceived (clock : Clock) (fromid ownerid : N) (cset : S) (cbSize : Int)
    (s : State N B P) : State N B P × List (Event N S) :=
  let owner := if fromid = ownerid then ownerid else fromid
  (updatePeer clock owner (fun now p => { resetBmap cset now p with cbSize := cbSize }) s, [])

def offerReceived (cfg : Config) (clock : Clock) (fromid : N) (cset : S) (maxDeliver : Int)
    (transId : UInt16) (s : State N B P) : State N B P × List (Event N S) :=
  let s := updatePeer clock fromid (resetBmap cset) s
  let a := getChunksToAccept cfg clock fromid cset maxDeliver s
  (a.s, a.events ++ [.acceptChunks fromid a.csetAcc transId])

def acceptReceived (cfg : Config) (clock : Clock) (fromid : N) (cset : S) (maxDeliver : Int)
    (transId : UInt16) (sent : ℕ → Bool) (s : State N B P) : State N B P × List (Event N S) :=
  let s := updatePeer clock fromid (fun now p => { p with bmapTimestamp := now }) s
  let s := { s with rate := rcRegAccept cfg.rate transId (ChunkIDSet.size cset) s.rate }
  sendAcceptedChunks cfg clock fromid cset maxDeliver transId sent s

/-- The dispatcher; an accept is bounded by the size of its own set. -/
def sigParseData (cfg : Config) (clock : Clock) (fromid : N) (msg : Option (Signal N S))
    (sent : ℕ → Bool) (s : State N B P) : Except Fault (State N B P × List (Event N S)) :=
  match msg with
  | none => .ok (s, [])
  | some (.bufferMap ownerid cset cbSize _) => .ok (bmapReceived clock fromid ownerid cset cbSize s)
  | some (.offer cset maxDeliver transId) =>
    .ok (offerReceived cfg clock fromid cset maxDeliver transId s)
  | some (.accept cset transId) =>
    .ok (acceptReceived cfg clock fromid cset (ChunkIDSet.size cset) transId sent s)
  | some (.ack cset transId) => ackReceived cfg clock fromid cset transId s
  | some .other => .ok (s, [])

/-- One reaction of a node. -/
def step (cfg : Config) (clock : Clock) (input : Input N P S) (s : State N B P) :
    Except Fault (State N B P × List (Event N S)) :=
  match input with
  | .chunk fromid msg ackSkipped => .ok (receivedChunk clock fromid msg ackSkipped s)
  | .signal fromid msg sent => sigParseData cfg clock fromid msg sent s
  | .sendChunk pair sent => .ok (sendChunk pair sent s)
  | .sendOffer skipped selected => .ok (sendOffer cfg clock skipped selected s)
  | .addChunk c => .ok (addChunk c s, [])
  | .updatePeers pset => .ok ({ s with pset := pset }, [])

/-! ## Which steps can fail -/

/-- An acknowledgement, which runs the rate control. -/
def Input.IsAck : Input N P S → Prop
  | .signal _ (some (.ack _ _)) _ => True
  | _ => False

theorem step_total (cfg : Config) (clock : Clock) {input : Input N P S} (h : ¬ input.IsAck)
    (s : State N B P) : ∃ s' events, step cfg clock input s = .ok (s', events) := by
  cases input with
  | signal fromid msg sent =>
    rcases msg with _ | msg
    · exact ⟨_, _, rfl⟩
    cases msg with
    | ack cset transId => exact absurd trivial h
    | _ => exact ⟨_, _, rfl⟩
  | _ => exact ⟨_, _, rfl⟩

theorem run_total (cfg : Config) (clock : Clock) (inputs : List (Input N P S))
    (h : ∀ i ∈ inputs, ¬ i.IsAck) (s : State N B P) :
    ∃ s' events, Run.run (step cfg clock) inputs s = .ok (s', events) := by
  induction inputs generalizing s with
  | nil => exact ⟨s, [], rfl⟩
  | cons i is ih =>
    obtain ⟨s₁, out, hi⟩ := step_total cfg clock (h i (List.mem_cons_self ..)) s
    obtain ⟨s', more, hr⟩ := ih (fun j hj => h j (List.mem_cons_of_mem _ hj)) s₁
    exact ⟨s', _, Run.run_cons hi hr⟩

end PeerStreamer.Streaming
