import PeerStreamer.ChunkAttributes
import PeerStreamer.ChunkLock
import PeerStreamer.Grapes.ChunkBuffer
import PeerStreamer.Grapes.PeerSet
import PeerStreamer.RateControl

/-!
# Streaming (`streaming.c`)

What a node does with chunks: it decides which of the offered chunks to accept, sends the chunks
that another node has accepted, pushes and offers chunks of its own, and stores the chunks that
arrive.

The functions take the state and return it changed, with the events they cause.  The answers of
code outside the repository are arguments: the choice of the scheduler, the result of a send, the
measured round trip times.  Readings of the clock are numbered, and `reads` counts them.
-/

namespace PeerStreamer.Streaming

open ChunkLock Transaction

/-- The settings of a node. -/
structure Config where
  cbSize : ℕ
  source : Bool
  cbSizeTime : UInt64
  heuristicsDistanceMaxdeliver : Bool
  rate : RateControl.Config ℚ

/-- The static variables: the chunk buffer, the locks, the peers, the open transactions and the
offer rate; and the number of clock readings so far. -/
structure State (N B P : Type) where
  cb : B
  locks : Locks N
  pset : P
  transactions : Transactions N
  rate : RateControl.State ℚ
  reads : ℕ

/-- What a node does to its surroundings; `locked` marks a chunk as accepted. -/
inductive Event (N S : Type) where
  | locked (chunkid : Int) (stamp : Timeval)
  | outputDeliver (c : Chunk)
  /-- A chunk message, and whether `sendChunk` succeeded. -/
  | sendChunk (toid : N) (c : Chunk) (transId : UInt16) (sent : Bool)
  | offerChunks (toid : N) (cset : S) (maxDeliver : Int) (transId : UInt16)
  | acceptChunks (toid : N) (cset : S) (transId : UInt16)
  | sendAck (toid : N) (bmap : S) (transId : UInt16)
  deriving DecidableEq, Repr

variable {N B P S : Type} [DecidableEq N] [ChunkIDSet S] [ChunkBuffer B] [PeerSet P N S]

def State.init (cfg : Config) (pset : P) (period : Timeval) : State N B P where
  cb := ChunkBuffer.init cfg.cbSize
  locks := .empty
  pset := pset
  transactions := .init
  rate := .init period
  reads := 0

/-! ## Which chunks a node needs -/

def CB_SIZE_TIME_UNLIMITED : UInt64 := 1000000000000

/-- `gettimeofday_in_us`, of the time read. -/
def inUs (t : Timeval) : UInt64 := UInt64.ofNat (t.toUsec % 2 ^ 64).toNat

/-- The timestamp of a chunk in the buffer, or 0. -/
def getChunkTimestamp (cb : B) (cid : Int) : UInt64 :=
  match ChunkBuffer.getChunk cb cid with
  | none => 0
  | some c => c.timestamp

/-- The check of `needs` and `_needs` for a playout limit. -/
def tooOld (cfg : Config) (clock : Clock) (cb : B) (cid : Int) (n : ℕ) : Bool × ℕ :=
  if cfg.cbSizeTime < CB_SIZE_TIME_UNLIMITED then
    let ts := getChunkTimestamp cb cid
    if ts ≠ 0 then (ts < inUs (clock.read n) - cfg.cbSizeTime, n + 1) else (false, n)
  else (false, n)

/-- Whether a node with the chunks `cset` and room for `cbSize` needs the chunk. -/
def _needs (cfg : Config) (clock : Clock) (cb : B) (cset : S) (cbSize cid : Int) (n : ℕ) :
    Bool × ℕ :=
  if cbSize = 0 then (false, n)
  else
    let (old, n) := tooOld cfg clock cb cid n
    if old then (false, n)
    else if ChunkIDSet.check cset cid < 0 then
      if ChunkIDSet.size cset = 0 then (true, n)
      else
        let missing := max (cbSize - ChunkIDSet.size cset) 0
        (ChunkIDSet.earliest cset - missing ≤ cid, n)
    else (false, n)

/-- Whether a peer needs the chunk, as far as its buffer map is known. -/
def needs (cfg : Config) (clock : Clock) (cb : B) (p : Peer N S) (cid : Int) (n : ℕ) : Bool × ℕ :=
  let (old, n) := tooOld cfg clock cb cid n
  if old then (false, n)
  else
    match p.bmap with
    | none => (true, n)
    | some bmap => _needs cfg clock cb bmap p.cbSize cid n

/-- The set of the chunks in the buffer, added from the latest to the earliest. -/
def cbToBmap (cb : B) : S :=
  ((ChunkBuffer.getChunks cb).map Chunk.id).reverse.foldl ChunkIDSet.add ChunkIDSet.initBitmap

/-! ## Accepting chunks -/

/-- The variables of the loop in `get_chunks_to_accept`. -/
structure Accepting (N B P S : Type) where
  s : State N B P
  csetAcc : S
  d : Int
  events : List (Event N S)

/-- The body of the loop. -/
def acceptOne (cfg : Config) (clock : Clock) (peer : Option N) (myBmap : S) (chunkid : Int)
    (a : Accepting N B P S) : Accepting N B P S :=
  let (locked, locks, n) := chunkIslocked clock chunkid a.s.locks a.s.reads
  if locked then { a with s := { a.s with locks := locks, reads := n } }
  else
    let (need, n) := _needs cfg clock a.s.cb myBmap cfg.cbSize chunkid n
    if need then
      { s := { a.s with
          locks := chunkLock chunkid peer (clock.read n) locks
          reads := n + 1 }
        csetAcc := ChunkIDSet.add a.csetAcc chunkid
        d := a.d + 1
        events := a.events ++ [.locked chunkid (clock.read n)] }
    else { a with s := { a.s with locks := locks, reads := n } }

/-- The loop, over the indices of the offered set. -/
def acceptLoop (cfg : Config) (clock : Clock) (peer : Option N) (myBmap csetOff : S)
    (maxDeliver : Int) : List ℕ → Accepting N B P S → Accepting N B P S
  | [], a => a
  | i :: is, a =>
    if a.d < maxDeliver then
      acceptLoop cfg clock peer myBmap csetOff maxDeliver is
        (acceptOne cfg clock peer myBmap (ChunkIDSet.getChunk csetOff i) a)
    else a

def getChunksToAccept (cfg : Config) (clock : Clock) (fromid : N) (csetOff : S) (maxDeliver : Int)
    (s : State N B P) : Accepting N B P S :=
  let peer := (PeerSet.getPeer s.pset fromid).map Peer.id
  acceptLoop cfg clock peer (cbToBmap s.cb) csetOff maxDeliver
    (List.range (ChunkIDSet.size csetOff)) ⟨s, ChunkIDSet.initList, 0, []⟩

/-! ## Receiving chunks -/

/-- The chunk is added to the peer's buffer map. -/
def addToBmap (cid : Int) (p : Peer N S) : Peer N S :=
  { p with bmap := p.bmap.map fun bmap => ChunkIDSet.add bmap cid }

/-- The sender of a chunk has it, so it is not sent back. -/
def regSender (clock : Clock) (fromid : N) (cid : Int) (s : State N B P) : State N B P :=
  match PeerSet.getPeer s.pset fromid with
  | none => s
  | some _ => { s with
      pset := PeerSet.update s.pset fromid fun p =>
        { addToBmap cid p with bmapTimestamp := clock.read s.reads }
      reads := s.reads + 1 }

/-- `received_chunk`, of the parsed message (`none` when it cannot be decoded); `ackSkipped` is the
choice of `ack_chunk` on a lossy path. -/
def receivedChunk (clock : Clock) (fromid : N) (msg : Option (Chunk × UInt16))
    (ackSkipped : Bool) (s : State N B P) : State N B P × List (Event N S) :=
  match msg with
  | none => (s, [])
  | some (c, transId) =>
    let c := chunkAttributesUpdateReceived c
    let s := { s with
      locks := chunkUnlock c.id s.locks
      cb := (ChunkBuffer.addChunk s.cb c).2 }
    let s := regSender clock fromid c.id s
    (s, .outputDeliver c ::
      if ackSkipped then [] else [.sendAck fromid (cbToBmap s.cb) transId])

/-- `add_chunk`, for a chunk the source has generated. -/
def addChunk (c : Chunk) (s : State N B P) : State N B P :=
  { s with cb := (ChunkBuffer.addChunk s.cb c).2 }

/-! ## Sending chunks -/

/-- Send a chunk of the buffer; a peer that was sent a chunk has it. -/
def transmit (toid : N) (c : Chunk) (transId : UInt16) (sent : Bool) (s : State N B P) :
    State N B P × List (Event N S) :=
  let s := { s with cb := ChunkBuffer.update s.cb c.id chunkAttributesUpdateSending }
  (if sent then { s with pset := PeerSet.update s.pset toid (addToBmap c.id) } else s,
    [.sendChunk toid (chunkAttributesUpdateSending c) transId sent])

/-- The variables of the loop in `send_accepted_chunks`. -/
structure Sending (N B P S : Type) where
  s : State N B P
  d : Int
  events : List (Event N S)

/-- The test in the loop: a peer that is not known may need any chunk. -/
def mayNeed (cfg : Config) (clock : Clock) (toid : N) (chunkid : Int) (s : State N B P) :
    Bool × ℕ :=
  match PeerSet.getPeer s.pset toid with
  | none => (true, s.reads)
  | some p => needs cfg clock s.cb p chunkid s.reads

/-- The body of the loop; `sent` says whether the send in this round succeeds. -/
def sendAcceptedOne (cfg : Config) (clock : Clock) (toid : N) (transId : UInt16) (chunkid : Int)
    (sent : Bool) (a : Sending N B P S) : Sending N B P S :=
  match ChunkBuffer.getChunk a.s.cb chunkid with
  | none => a
  | some c =>
    let (need, n) := mayNeed cfg clock toid chunkid a.s
    if need then
      let (s, events) := transmit toid c transId sent { a.s with reads := n }
      ⟨s, if sent then a.d + 1 else a.d, a.events ++ events⟩
    else { a with s := { a.s with reads := n } }

/-- The loop, over the indices of the accepted set. -/
def sendAcceptedLoop (cfg : Config) (clock : Clock) (toid : N) (csetAcc : S) (maxDeliver : Int)
    (transId : UInt16) (sent : ℕ → Bool) : List ℕ → Sending N B P S → Sending N B P S
  | [], a => a
  | i :: is, a =>
    if a.d < maxDeliver then
      sendAcceptedLoop cfg clock toid csetAcc maxDeliver transId sent is
        (sendAcceptedOne cfg clock toid transId (ChunkIDSet.getChunk csetAcc i) (sent i) a)
    else a

def sendAcceptedChunks (cfg : Config) (clock : Clock) (toid : N) (csetAcc : S) (maxDeliver : Int)
    (transId : UInt16) (sent : ℕ → Bool) (s : State N B P) : State N B P × List (Event N S) :=
  let (_, transactions) := transactionRegAccept transId toid (clock.read s.reads) s.transactions
  let s := { s with transactions := transactions, reads := s.reads + 1 }
  let a := sendAcceptedLoop cfg clock toid csetAcc maxDeliver transId sent
    (List.range (ChunkIDSet.size csetAcc)) ⟨s, 0, []⟩
  (a.s, a.events)

/-- `send_chunk`, with the peer and the chunk the scheduler selects among the ones it is given, and
the result of the send. -/
def sendChunk (pair : Option (N × Int)) (sent : Bool) (s : State N B P) :
    State N B P × List (Event N S) :=
  if (PeerSet.peers s.pset).isEmpty ∨ (ChunkBuffer.getChunks s.cb).isEmpty then (s, [])
  else
    match pair with
    | none => (s, [])
    | some (toid, cid) =>
      match ChunkBuffer.getChunk s.cb cid with
      | none => (s, [])
      | some c => transmit toid c 0 sent s

/-! ## Offering chunks -/

/-- A peer the scheduler selects for an offer, and what is measured of it: the round trip time, if
known, and the number of hops. -/
structure OfferPeer (N : Type) where
  id : N
  rtt : Option ℚ
  hopcount : ℕ
  deriving DecidableEq, Repr

def offerMaxDeliver (cfg : Config) (hopcount : ℕ) : Int :=
  if ¬ cfg.heuristicsDistanceMaxdeliver then 1
  else
    match hopcount with
    | 0 => 5
    | 1 => 2
    | _ => 1

def DEFAULT_RTT_ESTIMATE : ℚ := 1 / 2

/-- The index of the latest chunk that is offered: a source keeps its latest ones back. -/
def latestOffered (cfg : Config) (numChunks : ℕ) : ℕ :=
  if cfg.source then (numChunks - 1) * 3 / 4 else numChunks - 1

/-- `compose_offer_cset`: the chunks within a round trip of the earliest one are left out. -/
def composeOfferCset (cfg : Config) (rtt : Option ℚ) (cb : B) : S :=
  let chunks := ChunkBuffer.getChunks cb
  let dt := Double.mul (rtt.getD DEFAULT_RTT_ESTIMATE) 1000000
  let smallestTs := (chunks.head?.elim 0 Chunk.timestamp).toNat
  let offered := (chunks.take (latestOffered cfg chunks.length + 1)).reverse.filter fun c =>
    Double.round c.timestamp.toNat > Double.add (Double.round smallestTs) dt
  (offered.map Chunk.id).foldl ChunkIDSet.add ChunkIDSet.initBitmap

/-- The body of the loop in `send_offer`. -/
def offerOne (cfg : Config) (clock : Clock) (p : OfferPeer N) (s : State N B P) :
    State N B P × List (Event N S) :=
  let (transId, transactions) :=
    transactionCreate (clock.read s.reads) (clock.read (s.reads + 1)) p.id s.transactions
  let s := { s with transactions := transactions, reads := s.reads + 2 }
  (s, [.offerChunks p.id (composeOfferCset cfg p.rtt s.cb) (offerMaxDeliver cfg p.hopcount)
    transId])

def offerLoop (cfg : Config) (clock : Clock) :
    List (OfferPeer N) → State N B P → State N B P × List (Event N S)
  | [], s => (s, [])
  | p :: ps, s =>
    let (s, events) := offerOne cfg clock p s
    let (s, more) := offerLoop cfg clock ps s
    (s, events ++ more)

/-- `send_offer`, with the peers the scheduler selects; `skipped` is the choice on lossy paths. -/
def sendOffer (cfg : Config) (clock : Clock) (skipped : Bool) (selected : List (OfferPeer N))
    (s : State N B P) : State N B P × List (Event N S) :=
  if (PeerSet.peers s.pset).isEmpty ∨ (ChunkBuffer.getChunks s.cb).isEmpty ∨ skipped then (s, [])
  else offerLoop cfg clock selected s

end PeerStreamer.Streaming
