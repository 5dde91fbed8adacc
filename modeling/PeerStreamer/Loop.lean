import PeerStreamer.CInt
import PeerStreamer.Lib.Run
import PeerStreamer.Lib.Timeval

/-!
# The main loop of the source (`loop.c`)

`sourceLoop` waits until a message arrives or the time `tnext` has come.  After a timeout it asks
the input for a chunk, sends an offer when the offer time `tnextp` has come, and sets `tnext` to the
earlier of the offer time and the time at which the input wants to be asked again.

What the handlers do is left to their own modules; an iteration is given what it meets (`Turn`): the
readings of the clock, the result of `wait4data`, the message, the input's answer and the offer
period in force, which the rate control may have changed.
-/

namespace PeerStreamer.Loop

open Timeval

/-- The calls a turn of the loop makes. -/
inductive Event where
  | updatePeers
  | sigParseData
  /-- `generated_chunk` asks the input: the time of the call, and the timeout it returns. -/
  | inputGet (time : Timeval) (delay : Int)
  | addChunk
  | sendChunk
  | sendOffer
  deriving DecidableEq, Repr

/-- The local variables of `source_loop`. -/
structure State where
  tnext : Timeval
  /-- The next offer time. -/
  tnextp : Timeval
  cnt : ℕ
  deriving DecidableEq, Repr

/-- The message types of GRAPES that the loop tells apart. -/
inductive MessageType where
  | tman
  | streamerTopology
  | topology
  | chunk
  | signalling
  | other (type : UInt8)
  deriving DecidableEq, Repr

/-- What the loop meets after a timeout: the time and the result of `input_get`, whether there is a
chunk, the time read for the offer, and the offer period. -/
structure Input where
  called : Timeval
  delay : Int
  data : Bool
  tnow : Timeval
  period : Timeval
  deriving DecidableEq, Repr

/-- What an iteration meets: the time read by `tout_init`, the result of `wait4data` and the time at
which it returned, the message (`none` when it cannot be received) and the input. -/
structure Turn where
  asked : Timeval
  res : Int
  woken : Timeval
  message : Option MessageType
  input : Input
  deriving DecidableEq, Repr

/-! ## The code -/

/-- `tout_init`: the timeout from the time read and the wake-up time. -/
def toutInit (tnow tnext : Timeval) : Timeval :=
  if timercmp tnow tnext (· < ·) then timersub tnext tnow else ofUsec 0

/-- The dispatch on the message type. -/
def handleMessage : Option MessageType → List Event
  | none => []
  | some .tman => [.updatePeers]
  | some .streamerTopology => [.updatePeers]
  | some .topology => [.updatePeers]
  | some .chunk => []
  | some .signalling => [.sigParseData]
  | some (.other _) => []

/-- `if (cnt++ % 10 == 0) update_peers(NULL, NULL, 0)`. -/
def countPeers (cnt : ℕ) : ℕ × List Event :=
  (cnt + 1, if cnt % 10 = 0 then [.updatePeers] else [])

/-- A generated chunk is stored and sent. -/
def handleChunk (chunks : ℕ) (i : Input) (s : State) : State × List Event :=
  if i.data then
    let (cnt, upd) := countPeers s.cnt
    ({ s with cnt := cnt }, .addChunk :: List.replicate chunks .sendChunk ++ upd)
  else (s, [])

/-- The check whether to send an offer. -/
def checkOffer (i : Input) (s : State) : State × List Event :=
  if timercmp i.tnow s.tnextp (· ≥ ·) then
    let (cnt, upd) := countPeers s.cnt
    ({ s with cnt := cnt, tnextp := timeradd s.tnextp i.period }, .sendOffer :: upd)
  else (s, [])

/-- The calculation of the next wake-up time. -/
def nextTimeout (i : Input) (s : State) : State :=
  let tnext := timeradd i.tnow (ofUsec i.delay)
  { s with tnext := if timercmp s.tnextp tnext (· < ·) then s.tnextp else tnext }

/-- The branch for a timeout, or for data from the source. -/
def handleInput (chunks : ℕ) (i : Input) (s : State) : Except Fault (State × List Event) :=
  if i.delay < 0 then .error (.exit (-1))
  else
    let (s, sent) := handleChunk chunks i s
    let (s, offered) := checkOffer i s
    .ok (nextTimeout i s, .inputGet i.called i.delay :: sent ++ offered)

/-- The body of the loop. -/
def iteration (chunks : ℕ) (turn : Turn) (s : State) : Except Fault (State × List Event) :=
  if turn.res = 1 then .ok (s, handleMessage turn.message)
  else if turn.res = 0 ∨ turn.res = 2 then handleInput chunks turn.input s
  else .ok (s, [])

/-- The loop, over the turns it makes. -/
def sourceLoop (chunks : ℕ) : List Turn → State → Except Fault (State × List Event) :=
  Run.run (iteration chunks)

/-- The state before the loop, from two readings of the clock. -/
def State.init (tnext tnextp : Timeval) : State := ⟨tnext, tnextp, 0⟩

end PeerStreamer.Loop
