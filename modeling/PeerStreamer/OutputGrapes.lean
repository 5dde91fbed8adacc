import Mathlib.Tactic
import PeerStreamer.CInt
import PeerStreamer.Chunk
import PeerStreamer.Lib.Ring

/-!
# The reorder buffer (`output-grapes.c`)

`outputDeliver` passes chunks on in id order.  `nextChunk` is the next id to play; a chunk that
arrives ahead of its turn waits in slot `id % buff_size` of `buff`.  A chunk that is `buff_size` or
more ahead pushes `nextChunk` forward, playing the stored chunks on the way and giving up the
missing ones.

The trace of a state lists the calls with an outside effect and the two messages on `stderr`.  It
also records each call of `bufferFree` together with the variable of its caller that should name
the freed chunk (the counter of the eviction loop, or `nextChunk` in `bufferFlush`).
-/

namespace PeerStreamer

/-- The parameters of the output: `buff_size`, `start_id`, `end_id` and `reorder`. -/
structure OutputConfig where
  buffSize : Int
  startId : Int
  endId : Int
  reorder : Bool
  deriving Repr

/-- The caller of `bufferFree`, with the id it expects to free. -/
inductive FreeSite where
  | evict (i : Int)
  | flush (next : Int)
  deriving DecidableEq, Repr

inductive OutputEvent where
  | chunkWrite (c : Chunk)
  | regChunkPlayout (id : Int) (played : Bool) (timestamp : UInt64)
  | regChunkDuplicate
  | bufferFree (site : FreeSite) (c : Chunk)
  | firstRx (id : Int)
  | firstPlayedOut (id : Int)
  | lastPlayedOut (id : Int)
  deriving DecidableEq, Repr

/-- The static variables of `output-grapes.c`; `none` is a slot whose `data` is NULL. -/
structure OutputState where
  lastChunk : Int
  nextChunk : Int
  sflag : Bool
  eflag : Bool
  buff : Int → Option Chunk
  trace : List OutputEvent

namespace OutputState

/-- After `output_init`: every slot is free. -/
def init : OutputState where
  lastChunk := -1
  nextChunk := -1
  sflag := false
  eflag := false
  buff := fun _ => none
  trace := []

def log (s : OutputState) (e : OutputEvent) : OutputState := { s with trace := s.trace ++ [e] }

@[simp] theorem log_nextChunk (s : OutputState) (e : OutputEvent) :
    (s.log e).nextChunk = s.nextChunk := rfl

@[simp] theorem log_buff (s : OutputState) (e : OutputEvent) : (s.log e).buff = s.buff := rfl

@[simp] theorem log_trace (s : OutputState) (e : OutputEvent) :
    (s.log e).trace = s.trace ++ [e] := rfl

end OutputState

open OutputState

/-- `id` lies between `start_id` and `end_id`, where `-1` stands for no limit. -/
def OutputConfig.InRange (cfg : OutputConfig) (id : Int) : Prop :=
  (cfg.startId = -1 ∨ cfg.startId ≤ id) ∧ (cfg.endId = -1 ∨ id ≤ cfg.endId)

instance (cfg : OutputConfig) (id : Int) : Decidable (cfg.InRange id) :=
  inferInstanceAs (Decidable (_ ∧ _))

/-! ## The code -/

/-- The range check and the write that `buffer_free` and `output_deliver` share. -/
def playOut (cfg : OutputConfig) (c : Chunk) (s : OutputState) : OutputState :=
  if cfg.startId = -1 ∨ cfg.startId ≤ c.id then
    if cfg.endId = -1 ∨ c.id ≤ cfg.endId then
      let s := if s.sflag then s else { s.log (.firstPlayedOut c.id) with sflag := true }
      let s := if cfg.reorder then s.log (.chunkWrite c) else s
      { s with lastChunk := c.id }
    else if s.eflag = false ∧ s.lastChunk ≠ -1 then
      { s.log (.lastPlayedOut s.lastChunk) with eflag := true }
    else s
  else s

/-- `buffer_free(i)`; `c` is what slot `i` holds. -/
def bufferFree (cfg : OutputConfig) (site : FreeSite) (i : Int) (c : Chunk) (s : OutputState) :
    Except Fault OutputState := do
  let s := playOut cfg c (s.log (.bufferFree site c))
  let s := { s with buff := Function.update s.buff i none }
  let s := s.log (.regChunkPlayout c.id true c.timestamp)
  let next ← int (c.id + 1)
  return { s with nextChunk := next }

/-- The loop of `buffer_flush`, which stops at an empty slot or back at `start`. -/
def flushLoop (cfg : OutputConfig) (start : Int) :
    ℕ → Int → OutputState → Except Fault OutputState
  | 0, _, _ => .error .outOfFuel
  | fuel + 1, i, s =>
    match s.buff i with
    | none => .ok s
    | some c => do
      let s ← bufferFree cfg (.flush s.nextChunk) i c s
      let i' ← int (i + 1)
      let i := i'.tmod cfg.buffSize
      if i = start then return s
      flushLoop cfg start fuel i s

/-- `buffer_flush(id)`; the loop cannot go round the `buff_size` slots more than once. -/
def bufferFlush (cfg : OutputConfig) (id : Int) (s : OutputState) : Except Fault OutputState :=
  flushLoop cfg (id.tmod cfg.buffSize) cfg.buffSize.toNat (id.tmod cfg.buffSize) s

/-- The body of the `for` loop of `output_deliver` that makes room for `c`. -/
def evictStep (cfg : OutputConfig) (c : Chunk) (i : Int) (s : OutputState) :
    Except Fault OutputState :=
  match s.buff (i.tmod cfg.buffSize) with
  | some d => bufferFree cfg (.evict i) (i.tmod cfg.buffSize) d s
  | none => do
    -- the missing chunk is counted with the id and the time of the incoming one
    let s := s.log (.regChunkPlayout c.id false c.timestamp)
    let next ← int (s.nextChunk + 1)
    return { s with nextChunk := next }

/-- The `for` loop of `output_deliver`, with `n` iterations to go. -/
def evictLoop (cfg : OutputConfig) (c : Chunk) :
    ℕ → Int → OutputState → Except Fault OutputState
  | 0, _, s => .ok s
  | n + 1, i, s => do
    let s ← evictStep cfg c i s
    let i ← int (i + 1)
    evictLoop cfg c n i s

/-- The branch for a chunk that is `buff_size` or more ahead of `next_chunk`. -/
def makeRoom (cfg : OutputConfig) (c : Chunk) (s : OutputState) : Except Fault OutputState := do
  let ahead ← int (s.nextChunk + cfg.buffSize)
  if ahead ≤ c.id then
    let last ← int (c.id - cfg.buffSize)
    let s ← evictLoop cfg c (last + 1 - s.nextChunk).toNat s.nextChunk s
    bufferFlush cfg s.nextChunk s
  else return s

/-- The last branch: play `c`, find that it is a duplicate, or store it. -/
def playOrStore (cfg : OutputConfig) (c : Chunk) (s : OutputState) : Except Fault OutputState :=
  if c.id = s.nextChunk then do
    let s := (playOut cfg c s).log (.regChunkPlayout c.id true c.timestamp)
    let next ← int (s.nextChunk + 1)
    bufferFlush cfg next { s with nextChunk := next }
  else
    match s.buff (c.id.tmod cfg.buffSize) with
    | some d => if d.id = c.id then .ok (s.log .regChunkDuplicate) else .error (.exit (-1))
    | none => .ok { s with buff := Function.update s.buff (c.id.tmod cfg.buffSize) (some c) }

def outputDeliver (cfg : OutputConfig) (c : Chunk) (s : OutputState) :
    Except Fault OutputState := do
  let s := if cfg.reorder then s else s.log (.chunkWrite c)
  if c.id < s.nextChunk then return s
  let s := if s.nextChunk = -1 then { s.log (.firstRx c.id) with nextChunk := c.id } else s
  let s ← makeRoom cfg c s
  playOrStore cfg c s

/-- A run: the deliveries in order, from the state that `output_init` leaves. -/
def deliverAll (cfg : OutputConfig) (ds : List Chunk) : Except Fault OutputState :=
  ds.foldlM (fun s c => outputDeliver cfg c s) init

end PeerStreamer
