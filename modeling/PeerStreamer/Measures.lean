import Mathlib.Algebra.Field.Defs
import Mathlib.Data.Int.Cast.Defs
import PeerStreamer.CInt
import PeerStreamer.Lib.Timeval

/-!
# Measures (`measures.c`)

Events are counted while a reporting window is open.  No timer closes a window: the next event that
is registered after its end prints the measures and clears the counters.  The code's `double` values
are numbers of a field here; a quotient by zero, which the code prints as `inf` or `nan`, has no
value.
-/

namespace PeerStreamer.Measures

open Timeval

/-- The parameters, and the message types of `grapes_msg_types.h`. -/
structure Config where
  printTdiff : Timeval
  tstartdiff : Timeval
  MSG_TYPE_CHUNK : UInt8
  MSG_TYPE_SIGNALLING : UInt8
  MSG_TYPE_TOPOLOGY : UInt8
  MSG_TYPE_TMAN : UInt8

/-- `struct measures`. -/
structure Counters (K : Type) where
  duplicates : Int := 0
  chunks : Int := 0
  played : Int := 0
  sumReorderDelay : Int64 := 0
  chunksReceivedDup : Int := 0
  chunksReceivedNodup : Int := 0
  chunksReceivedOld : Int := 0
  sumHopcount : Int := 0
  sumReceiveDelay : Int64 := 0
  chunksSent : Int := 0
  sumNeighsize : UInt64 := 0
  samplesNeighsize : Int := 0
  bytesSent : UInt64 := 0
  bytesSentChunk : UInt64 := 0
  bytesSentSign : UInt64 := 0
  bytesSentTopo : UInt64 := 0
  msgsSent : Int := 0
  msgsSentChunk : Int := 0
  msgsSentSign : Int := 0
  msgsSentTopo : Int := 0
  bytesRecvd : UInt64 := 0
  bytesRecvdChunk : UInt64 := 0
  bytesRecvdSign : UInt64 := 0
  bytesRecvdTopo : UInt64 := 0
  msgsRecvd : Int := 0
  msgsRecvdChunk : Int := 0
  msgsRecvdSign : Int := 0
  msgsRecvdTopo : Int := 0
  sumOffersInFlight : UInt64 := 0
  samplesOffersInFlight : Int := 0
  sumQueueDelay : K
  samplesQueueDelay : Int := 0
  sumPeriod : K
  samplesPeriod : Int := 0
  offersOut : Int := 0
  acceptsOut : Int := 0
  offersIn : Int := 0
  acceptsIn : Int := 0

/-- The static variables.  `counted` is not in the code: the times of the events that are counted in
`m`. -/
structure State (K : Type) where
  tstart : Timeval
  printTstart : Timeval
  tnext : Timeval
  startup : Bool
  m : Counters K
  counted : List Timeval

/-- What is printed: a line for each measure, all of them with the time of the window's end. -/
structure Report (K : Type) where
  printTstart : Timeval
  tnext : Timeval
  time : K
  measures : List (String × Option K)
  counted : List Timeval

/-- The times that a call reads: in `print_every`, in `print_measures`, and in the function that
registers the event. -/
structure Readings where
  now : Timeval
  print : Timeval
  reg : Timeval

variable {K : Type} [Field K]

/-! ## The code -/

/-- What `clean_measures` leaves. -/
def Counters.clean : Counters K := { sumQueueDelay := 0, sumPeriod := 0 }

def State.init : State K where
  tstart := .ofUsec 0
  printTstart := .ofUsec 0
  tnext := .ofUsec 0
  startup := true
  m := .clean
  counted := []

def cleanMeasures (s : State K) : State K := { s with m := .clean, counted := [] }

def tdiffSec (a b : Timeval) : K :=
  let tdiff := timersub a b
  tdiff.sec + tdiff.usec / (1000000 : Int)

section

variable [DecidableEq K]

/-- `x / y` -/
def quotient (x y : K) : Option K := if y = 0 then none else some (x / y)

/-- A measure that is printed if there is something to divide by. -/
def ratio (name : String) (x : K) (n : Int) : List (String × Option K) :=
  if n ≠ 0 then [(name, quotient x n)] else []

/-- The measures, printed at the time `tnow`. -/
def measures (s : State K) (tnow : Timeval) : List (String × Option K) :=
  let m := s.m
  let timespan : K := tdiffSec tnow s.printTstart
  let rate (name : String) (n : Int) : List (String × Option K) :=
    if timerisset s.printTstart then [(name, quotient n timespan)] else []
  let bytes (name : String) (n : UInt64) := rate name n.toNat
  let received := m.chunksReceivedOld + m.chunksReceivedNodup + m.chunksReceivedDup
  List.flatten [
    ratio "PlayoutRatio" m.played m.chunks,
    ratio "ReorderDelay(ok&lost)" (m.sumReorderDelay.toInt / (1000000 : Int)) m.chunks,
    ratio "NeighSize" m.sumNeighsize.toNat m.samplesNeighsize,
    ratio "OverlayDistance(intime&nodup)" m.sumHopcount m.chunksReceivedNodup,
    ratio "ReceiveDelay(intime&nodup)" (m.sumReceiveDelay.toInt / (1000000 : Int))
      m.chunksReceivedNodup,
    rate "ChunkRate" m.chunks,
    rate "ChunkReceiveRate(all)" received,
    rate "ChunkReceiveRate(old)" m.chunksReceivedOld,
    rate "ChunkReceiveRate(intime&nodup)" m.chunksReceivedNodup,
    rate "ChunkReceiveRate(intime&dup)" m.chunksReceivedDup,
    rate "ChunkSendRate" m.chunksSent,
    rate "SendRateMsgs(all)" m.msgsSent,
    rate "SendRateMsgs(chunk)" m.msgsSentChunk,
    rate "SendRateMsgs(sign)" m.msgsSentSign,
    rate "SendRateMsgs(topo)" m.msgsSentTopo,
    rate "SendRateMsgs(other)" (m.msgsSent - m.msgsSentChunk - m.msgsSentSign - m.msgsSentTopo),
    bytes "SendRateBytes(all)" m.bytesSent,
    bytes "SendRateBytes(chunk)" m.bytesSentChunk,
    bytes "SendRateBytes(sign)" m.bytesSentSign,
    bytes "SendRateBytes(topo)" m.bytesSentTopo,
    bytes "SendRateBytes(other)"
      (m.bytesSent - m.bytesSentChunk - m.bytesSentSign - m.bytesSentTopo),
    rate "RecvRateMsgs(all)" m.msgsRecvd,
    rate "RecvRateMsgs(chunk)" m.msgsRecvdChunk,
    rate "RecvRateMsgs(sign)" m.msgsRecvdSign,
    rate "RecvRateMsgs(topo)" m.msgsRecvdTopo,
    rate "RecvRateMsgs(other)" (m.msgsRecvd - m.msgsRecvdChunk - m.msgsRecvdSign - m.msgsRecvdTopo),
    bytes "RecvRateBytes(all)" m.bytesRecvd,
    bytes "RecvRateBytes(chunk)" m.bytesRecvdChunk,
    bytes "RecvRateBytes(sign)" m.bytesRecvdSign,
    bytes "RecvRateBytes(topo)" m.bytesRecvdTopo,
    bytes "RecvRateBytes(other)"
      (m.bytesRecvd - m.bytesRecvdChunk - m.bytesRecvdSign - m.bytesRecvdTopo),
    ratio "ReceiveRatio(intime&nodup-vs-all)" m.chunksReceivedNodup received,
    ratio "OffersInFlight" m.sumOffersInFlight.toNat m.samplesOffersInFlight,
    ratio "QueueDelay" m.sumQueueDelay m.samplesQueueDelay,
    ratio "Period" m.sumPeriod m.samplesPeriod,
    rate "OfferOutRate" m.offersOut,
    rate "AcceptOutRate" m.acceptsOut,
    ratio "OfferAcceptOutRatio" m.acceptsOut m.offersOut,
    rate "OfferInRate" m.offersIn,
    rate "AcceptInRate" m.acceptsIn,
    ratio "OfferAcceptInRatio" m.acceptsIn m.offersIn]

def printMeasures (s : State K) (tnow : Timeval) : Report K where
  printTstart := s.printTstart
  tnext := s.tnext
  time := tdiffSec s.tnext s.tstart
  measures := measures s tnow
  counted := s.counted

/-- The first call sets the time at which the start-up ends. -/
def startClock (cfg : Config) (tnow : Timeval) (s : State K) : State K :=
  if s.startup ∧ ¬ timerisset s.tstart then
    let tstart := timeradd tnow cfg.tstartdiff
    { s with tstart := tstart, printTstart := tstart }
  else s

/-- After the start-up: the end of the window is set, if that was not done before. -/
def openWindow (cfg : Config) (s : State K) : State K :=
  { s with
    startup := false
    tnext := if ¬ timerisset s.tnext then timeradd s.tstart cfg.printTdiff else s.tnext }

def nextWindow (cfg : Config) (s : State K) : State K :=
  { cleanMeasures s with printTstart := s.tnext, tnext := timeradd s.tnext cfg.printTdiff }

/-- What is returned, the state and what is printed. -/
def printEvery (cfg : Config) (t : Readings) (s : State K) : Bool × State K × List (Report K) :=
  let s := startClock cfg t.now s
  if s.startup ∧ timercmp t.now s.tstart (· < ·) then (false, s, [])
  else
    let s := openWindow cfg s
    if ¬ timercmp t.now s.tnext (· < ·) then
      (true, nextWindow cfg s, [printMeasures s t.print])
    else (true, s, [])

/-! ### The functions that register an event -/

/-- What they have in common: the event is counted if `print_every` returns true. -/
def reg (cfg : Config) (t : Readings) (count : Counters K → Counters K) (s : State K) :
    State K × List (Report K) :=
  let (counting, s, out) := printEvery cfg t s
  if ¬ counting then (s, out)
  else ({ s with m := count s.m, counted := s.counted ++ [t.now] }, out)

/-- The microseconds since `timestamp`, in the unsigned arithmetic of the code. -/
def since (timestamp : UInt64) (tnow : Timeval) : UInt64 :=
  UInt64.ofInt tnow.usec + UInt64.ofInt tnow.sec * 1000000 - timestamp

def regChunkDuplicate (cfg : Config) (t : Readings) : State K → State K × List (Report K) :=
  reg cfg t fun m => { m with duplicates := m.duplicates + 1 }

def regChunkPlayout (b : Bool) (timestamp : UInt64) (cfg : Config) (t : Readings) :
    State K → State K × List (Report K) :=
  reg cfg t fun m =>
    { m with
      played := m.played + if b then 1 else 0
      chunks := m.chunks + 1
      sumReorderDelay := (m.sumReorderDelay.toUInt64 + since timestamp t.reg).toInt64 }

def regNeighSize (size : Int) (cfg : Config) (t : Readings) :
    State K → State K × List (Report K) :=
  reg cfg t fun m =>
    { m with
      sumNeighsize := m.sumNeighsize + UInt64.ofInt size
      samplesNeighsize := m.samplesNeighsize + 1 }

def regChunkReceive (timestamp : UInt64) (hopcount : Int) (old dup : Bool) (cfg : Config)
    (t : Readings) : State K → State K × List (Report K) :=
  reg cfg t fun m =>
    if old then { m with chunksReceivedOld := m.chunksReceivedOld + 1 }
    else if dup then { m with chunksReceivedDup := m.chunksReceivedDup + 1 }
    else
      { m with
        chunksReceivedNodup := m.chunksReceivedNodup + 1
        sumHopcount := m.sumHopcount + hopcount
        sumReceiveDelay := (m.sumReceiveDelay.toUInt64 + since timestamp t.reg).toInt64 }

def regChunkSend (cfg : Config) (t : Readings) : State K → State K × List (Report K) :=
  reg cfg t fun m => { m with chunksSent := m.chunksSent + 1 }

def regOfferAcceptOut (b : Bool) (cfg : Config) (t : Readings) :
    State K → State K × List (Report K) :=
  reg cfg t fun m =>
    { m with
      offersOut := m.offersOut + 1
      acceptsOut := if b then m.acceptsOut + 1 else m.acceptsOut }

def regOfferAcceptIn (b : Bool) (cfg : Config) (t : Readings) :
    State K → State K × List (Report K) :=
  reg cfg t fun m =>
    { m with
      offersIn := m.offersIn + 1
      acceptsIn := if b then m.acceptsIn + 1 else m.acceptsIn }

def regMessageSend (size : Int) (type : UInt8) (cfg : Config) (t : Readings) :
    State K → State K × List (Report K) :=
  reg cfg t fun m =>
    let n := UInt64.ofInt size
    let m := { m with bytesSent := m.bytesSent + n, msgsSent := m.msgsSent + 1 }
    if type = cfg.MSG_TYPE_CHUNK then
      { m with
        bytesSentChunk := m.bytesSentChunk + n
        msgsSentChunk := m.msgsSentChunk + 1 }
    else if type = cfg.MSG_TYPE_SIGNALLING then
      { m with
        bytesSentSign := m.bytesSentSign + n
        msgsSentSign := m.msgsSentSign + 1 }
    else if type = cfg.MSG_TYPE_TOPOLOGY ∨ type = cfg.MSG_TYPE_TMAN then
      { m with
        bytesSentTopo := m.bytesSentTopo + n
        msgsSentTopo := m.msgsSentTopo + 1 }
    else m

def regMessageRecv (size : Int) (type : UInt8) (cfg : Config) (t : Readings) :
    State K → State K × List (Report K) :=
  reg cfg t fun m =>
    let n := UInt64.ofInt size
    let m := { m with bytesRecvd := m.bytesRecvd + n, msgsRecvd := m.msgsRecvd + 1 }
    if type = cfg.MSG_TYPE_CHUNK then
      { m with
        bytesRecvdChunk := m.bytesRecvdChunk + n
        msgsRecvdChunk := m.msgsRecvdChunk + 1 }
    else if type = cfg.MSG_TYPE_SIGNALLING then
      { m with
        bytesRecvdSign := m.bytesRecvdSign + n
        msgsRecvdSign := m.msgsRecvdSign + 1 }
    else if type = cfg.MSG_TYPE_TOPOLOGY ∨ type = cfg.MSG_TYPE_TMAN then
      { m with
        bytesRecvdTopo := m.bytesRecvdTopo + n
        msgsRecvdTopo := m.msgsRecvdTopo + 1 }
    else m

def regOffersInFlight (runningOffersThreads : Int) (cfg : Config) (t : Readings) :
    State K → State K × List (Report K) :=
  reg cfg t fun m =>
    { m with
      sumOffersInFlight := m.sumOffersInFlight + UInt64.ofInt runningOffersThreads
      samplesOffersInFlight := m.samplesOffersInFlight + 1 }

def regQueueDelay (lastQueueDelay : K) (cfg : Config) (t : Readings) :
    State K → State K × List (Report K) :=
  reg cfg t fun m =>
    { m with
      sumQueueDelay := m.sumQueueDelay + lastQueueDelay
      samplesQueueDelay := m.samplesQueueDelay + 1 }

def regPeriod (period : K) (cfg : Config) (t : Readings) : State K → State K × List (Report K) :=
  reg cfg t fun m =>
    { m with
      sumPeriod := m.sumPeriod + period
      samplesPeriod := m.samplesPeriod + 1 }

end

/-! ### The program -/

/-- The events. -/
inductive Event (K : Type) where
  | chunkDuplicate
  | chunkPlayout (b : Bool) (timestamp : UInt64)
  | neighSize (size : Int)
  | chunkReceive (timestamp : UInt64) (hopcount : Int) (old dup : Bool)
  | chunkSend
  | offerAcceptOut (b : Bool)
  | offerAcceptIn (b : Bool)
  | messageSend (size : Int) (type : UInt8)
  | messageRecv (size : Int) (type : UInt8)
  | offersInFlight (runningOffersThreads : Int)
  | queueDelay (lastQueueDelay : K)
  | period (period : K)

/-- The calls: an event is registered, or the program ends (`end_measures`). -/
inductive Call (K : Type) where
  | event (t : Readings) (e : Event K)
  | endMeasures (tnow : Timeval)

variable [DecidableEq K]

def regEvent (cfg : Config) (t : Readings) : Event K → State K → State K × List (Report K)
  | .chunkDuplicate => regChunkDuplicate cfg t
  | .chunkPlayout b timestamp => regChunkPlayout b timestamp cfg t
  | .neighSize size => regNeighSize size cfg t
  | .chunkReceive timestamp hopcount old dup => regChunkReceive timestamp hopcount old dup cfg t
  | .chunkSend => regChunkSend cfg t
  | .offerAcceptOut b => regOfferAcceptOut b cfg t
  | .offerAcceptIn b => regOfferAcceptIn b cfg t
  | .messageSend size type => regMessageSend size type cfg t
  | .messageRecv size type => regMessageRecv size type cfg t
  | .offersInFlight n => regOffersInFlight n cfg t
  | .queueDelay delay => regQueueDelay delay cfg t
  | .period period => regPeriod period cfg t

/-- One call, which returns the state and what is printed. -/
def step (cfg : Config) : Call K → State K → Except Fault (State K × List (Report K))
  | .event t e, s => .ok (regEvent cfg t e s)
  | .endMeasures tnow, s => .ok (s, [printMeasures s tnow])

end PeerStreamer.Measures
