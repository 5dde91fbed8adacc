import PeerStreamer.ChunkSignaling
import PeerStreamer.InputGrapes
import PeerStreamer.Loop
import PeerStreamer.StreamingProof

/-!
# The source's loop with its node (`loop.c`)

`iteration` is the body of `source_loop` with the functions that it calls: it handles a message, or
it asks the input for a chunk, stores the chunk and sends it `chunks` times, and makes its offers.

The schedule of `Loop` is what is left of a run when the node and the input are forgotten
(`sourceLoop_refines`).
-/

namespace PeerStreamer.SourceNode

open Streaming Timeval

/-- A message that `recv_from_peer` returns, by the type in its first byte. -/
inductive Message (N P S : Type) where
  /-- `MSG_TYPE_TMAN`, `MSG_TYPE_STREAMER_TOPOLOGY` or `MSG_TYPE_TOPOLOGY`, after which
  `update_peers` leaves this peer set. -/
  | topology (pset : P)
  | chunk
  | signalling (remote : N) (msg : Option (Signal N S)) (sent : ℕ → Bool)
  | other (type : UInt8)

/-- What an iteration meets: the result of `wait4data` and the time at which it returned, the
message (`none` when it cannot be received), what the chunkiser returns, the pair that the scheduler
selects for each call of `send_chunk` with the result of the send, the choices of `send_offer`, and
the peer sets that the two calls of `update_peers` leave. -/
structure Turn (N P S : Type) where
  res : Int
  woken : Timeval
  message : Option (Message N P S)
  chunkised : InputGrapes.Chunkised
  push : ℕ → Option (N × Int) × Bool
  chunkPset : P
  skipped : Bool
  selected : List (OfferPeer N)
  offerPset : P

/-- The local variables of `source_loop`, the input and the node. -/
structure State (N B P : Type) where
  tnext : Timeval
  /-- The next offer time. -/
  tnextp : Timeval
  cnt : ℕ
  input : InputGrapes.InputDesc
  node : Streaming.State N B P

inductive Event (N S : Type) where
  | node (e : Streaming.Event N S)
  | updatePeers
  | sigParseData
  /-- `input_get` reads the clock, and returns the timeout. -/
  | inputGet (time : Timeval) (delay : Int)
  | addChunk (c : Chunk)
  | sendChunk
  | sendOffer

/-! ## The code -/

section Code

variable {N B P S : Type} [DecidableEq N] [ChunkIDSet S] [ChunkBuffer B] [PeerSet P N S]

/-- The dispatch on the message type. -/
def handleMessage (cfg : Config) (clock : Clock) (m : Option (Message N P S)) (s : State N B P) :
    Except Fault (State N B P × List (Event N S)) :=
  match m with
  | none => .ok (s, [])
  | some (.topology pset) => .ok ({ s with node := { s.node with pset := pset } }, [.updatePeers])
  | some .chunk => .ok (s, [])
  | some (.signalling remote msg sent) => do
    let (node, events) ← sigParseData cfg clock remote msg sent s.node
    return ({ s with node := node }, .sigParseData :: events.map .node)
  | some (.other _) => .ok (s, [])

/-- `if (cnt++ % 10 == 0) update_peers(NULL, NULL, 0)`. -/
def countPeers (pset : P) (s : State N B P) : State N B P × List (Event N S) :=
  if s.cnt % 10 = 0 then
    ({ s with cnt := s.cnt + 1, node := { s.node with pset := pset } }, [.updatePeers])
  else ({ s with cnt := s.cnt + 1 }, [])

/-- The loop that calls `send_chunk`. -/
def sendChunks : List (Option (N × Int) × Bool) → Streaming.State N B P →
    Streaming.State N B P × List (Event N S)
  | [], s => (s, [])
  | (pair, sent) :: pushes, s =>
    let (s, events) := Streaming.sendChunk pair sent s
    let (s, more) := sendChunks pushes s
    (s, .sendChunk :: events.map .node ++ more)

/-- A generated chunk is stored and sent. -/
def handleChunk (chunks : ℕ) (turn : Turn N P S) (c : Option Chunk) (s : State N B P) :
    State N B P × List (Event N S) :=
  match c with
  | none => (s, [])
  | some c =>
    let (node, sends) :=
      sendChunks ((List.range chunks).map turn.push) (Streaming.addChunk c s.node)
    let (s, upd) := countPeers turn.chunkPset { s with node := node }
    (s, .addChunk c :: sends ++ upd)

/-- The check whether to send an offer. -/
def checkOffer (cfg : Config) (clock : Clock) (turn : Turn N P S) (tnow : Timeval)
    (s : State N B P) : State N B P × List (Event N S) :=
  if timercmp tnow s.tnextp (· ≥ ·) then
    let (node, offers) := Streaming.sendOffer cfg clock turn.skipped turn.selected s.node
    let (s, upd) := countPeers turn.offerPset { s with node := node }
    ({ s with tnextp := timeradd s.tnextp s.node.rate.period },
      .sendOffer :: offers.map .node ++ upd)
  else (s, [])

/-- The calculation of the next wake-up time. -/
def nextTimeout (tnow : Timeval) (delay : Int) (s : State N B P) : State N B P :=
  let tnext := timeradd tnow (ofUsec delay)
  { s with tnext := if timercmp s.tnextp tnext (· < ·) then s.tnextp else tnext }

/-- The clock is read. -/
def tick (s : State N B P) : State N B P :=
  { s with node := { s.node with reads := s.node.reads + 1 } }

/-- The branch for a timeout, or for data from the source. -/
def handleInput (cfg : Config) (clock : Clock) (verify : List UInt8 → Option Int) (chunks : ℕ)
    (turn : Turn N P S) (s : State N B P) : Except Fault (State N B P × List (Event N S)) := do
  let called := clock.read s.node.reads
  let (c, delay, input) ← InputGrapes.generatedChunk verify ⟨turn.chunkised, called⟩ s.input
  let (s, sent) := handleChunk chunks turn c (tick { s with input := input })
  let tnow := clock.read s.node.reads
  let (s, offered) := checkOffer cfg clock turn tnow (tick s)
  return (nextTimeout tnow delay s, .inputGet called delay :: sent ++ offered)

/-- The body of the loop; `tout_init` reads the clock. -/
def iteration (cfg : Config) (clock : Clock) (verify : List UInt8 → Option Int) (chunks : ℕ)
    (turn : Turn N P S) (s : State N B P) : Except Fault (State N B P × List (Event N S)) :=
  if turn.res = 1 then handleMessage cfg clock turn.message (tick s)
  else if turn.res = 0 ∨ turn.res = 2 then handleInput cfg clock verify chunks turn (tick s)
  else .ok (tick s, [])

/-- The state before the loop, with the peer set that `peers_init` makes and the input that
`source_init` opens. -/
def State.init (cfg : Config) (clock : Clock) (csize : Int) (pset : P)
    (input : InputGrapes.InputDesc) : State N B P where
  tnext := clock.read 0
  tnextp := clock.read 1
  cnt := 0
  input := input
  node := { Streaming.State.init cfg pset (ofUsec csize) with reads := 2 }

/-- The loop, over the turns it makes. -/
def sourceLoop (cfg : Config) (clock : Clock) (verify : List UInt8 → Option Int) (chunks : ℕ)
    (turns : List (Turn N P S)) (s : State N B P) :
    Except Fault (State N B P × List (Event N S)) :=
  Run.run (iteration cfg clock verify chunks) turns s

end Code

/-! ## The schedule -/

section Schedule

variable {N B P S : Type}

/-- The loop without the input and the node. -/
def State.schedule (s : State N B P) : Loop.State := ⟨s.tnext, s.tnextp, s.cnt⟩

def Message.type : Message N P S → Loop.MessageType
  | .topology _ => .topology
  | .chunk => .chunk
  | .signalling .. => .signalling
  | .other type => .other type

/-- The calls that the loop itself makes. -/
def Event.call : Event N S → Option Loop.Event
  | .node _ => none
  | .updatePeers => some .updatePeers
  | .sigParseData => some .sigParseData
  | .inputGet time delay => some (.inputGet time delay)
  | .addChunk _ => some .addChunk
  | .sendChunk => some .sendChunk
  | .sendOffer => some .sendOffer

def calls (events : List (Event N S)) : List Loop.Event := events.filterMap Event.call

theorem calls_append (events more : List (Event N S)) :
    calls (events ++ more) = calls events ++ calls more := List.filterMap_append

theorem calls_node (events : List (Streaming.Event N S)) : calls (events.map Event.node) = [] := by
  rw [calls, List.filterMap_map, List.filterMap_eq_nil_iff]
  exact fun _ _ => rfl

variable [DecidableEq N] [ChunkIDSet S] [ChunkBuffer B] [PeerSet P N S] {cfg : Config}
  {clock : Clock} {verify : List UInt8 → Option Int} {chunks : ℕ} {turn : Turn N P S}
  {s s' : State N B P} {events : List (Event N S)}

omit [DecidableEq N] [ChunkIDSet S] [ChunkBuffer B] [PeerSet P N S] in
theorem schedule_countPeers (pset : P) (s : State N B P) :
    (countPeers (S := S) pset s).1.schedule =
        { s.schedule with cnt := (Loop.countPeers s.cnt).1 } ∧
      calls (countPeers (S := S) pset s).2 = (Loop.countPeers s.cnt).2 := by
  unfold countPeers Loop.countPeers
  split_ifs <;> exact ⟨rfl, rfl⟩

omit [DecidableEq N] in
theorem calls_sendChunks (pushes : List (Option (N × Int) × Bool)) (s : Streaming.State N B P) :
    calls (sendChunks (S := S) pushes s).2 = List.replicate pushes.length .sendChunk := by
  induction pushes generalizing s with
  | nil => rfl
  | cons push pushes ih =>
    have hcons (events : List (Streaming.Event N S)) (more : List (Event N S)) :
        calls (.sendChunk :: events.map .node ++ more) = .sendChunk :: calls more := by
      rw [List.cons_append, ← List.singleton_append, calls_append, calls_append, calls_node]
      rfl
    rw [List.length_cons, List.replicate_succ, ← ih]
    exact hcons _ _

omit [DecidableEq N] in
theorem schedule_handleChunk (chunks : ℕ) (turn : Turn N P S) (c : Option Chunk) {i : Loop.Input}
    (hdata : i.data = c.isSome) (s : State N B P) :
    Loop.handleChunk chunks i s.schedule = ((handleChunk (S := S) chunks turn c s).1.schedule,
      calls (handleChunk (S := S) chunks turn c s).2) := by
  unfold Loop.handleChunk handleChunk
  rw [hdata]
  cases c with
  | none => rfl
  | some c =>
    obtain ⟨⟨node, sends⟩, hnode⟩ : ∃ r, sendChunks (S := S) ((List.range chunks).map turn.push)
      (Streaming.addChunk c s.node) = r := ⟨_, rfl⟩
    obtain ⟨hschedule, hcalls⟩ :=
      schedule_countPeers (S := S) turn.chunkPset { s with node := node }
    have hsends := calls_sendChunks (S := S) ((List.range chunks).map turn.push)
      (Streaming.addChunk c s.node)
    rw [List.length_map, List.length_range, hnode] at hsends
    simp only [Option.isSome_some, if_true, hnode]
    refine Prod.ext hschedule.symm ?_
    show _ = calls ([.addChunk c] ++ sends ++ _)
    rw [calls_append, calls_append, hsends, hcalls]
    rfl

omit [DecidableEq N] in
/-- The period that is in force after the offers. -/
theorem schedule_checkOffer (cfg : Config) (clock : Clock) (turn : Turn N P S) {i : Loop.Input}
    (s : State N B P) (hperiod : i.period =
      (Streaming.sendOffer (S := S) cfg clock turn.skipped turn.selected s.node).1.rate.period) :
    Loop.checkOffer i s.schedule = ((checkOffer cfg clock turn i.tnow s).1.schedule,
      calls (checkOffer (S := S) cfg clock turn i.tnow s).2) := by
  unfold Loop.checkOffer checkOffer
  obtain ⟨⟨node, offers⟩, hnode⟩ : ∃ r, Streaming.sendOffer (S := S) cfg clock turn.skipped
    turn.selected s.node = r := ⟨_, rfl⟩
  obtain ⟨hschedule, hcalls⟩ := schedule_countPeers (S := S) turn.offerPset { s with node := node }
  have hrate : (countPeers (S := S) turn.offerPset { s with node := node }).1.node.rate =
      node.rate := by
    unfold countPeers
    split_ifs <;> rfl
  rw [hnode] at hperiod
  by_cases hdue : timercmp i.tnow s.tnextp (· ≥ ·)
  · have hdue' : timercmp i.tnow s.schedule.tnextp (· ≥ ·) := hdue
    simp only [if_pos hdue, if_pos hdue', hnode, hrate, hperiod]
    refine Prod.ext ?_ ?_
    · exact congrArg (fun l : Loop.State =>
        { l with tnextp := timeradd l.tnextp node.rate.period }) hschedule.symm
    · show _ = calls ([.sendOffer] ++ offers.map .node ++ _)
      rw [calls_append, calls_append, calls_node, hcalls]
      rfl
  · have hdue' : ¬ timercmp i.tnow s.schedule.tnextp (· ≥ ·) := hdue
    rw [if_neg hdue, if_neg hdue']
    rfl

/-- What `generated_chunk` returns and leaves in the record of the input. -/
structure Generated (call : InputGrapes.Call) (s s' : InputGrapes.InputDesc) (c : Option Chunk)
    (delay : Int) : Prop where
  nonneg : 0 ≤ delay
  next : s'.id = if 0 < call.chunkised.res then s.id + 1 else s.id
  none : c = none ↔ call.chunkised.data = none
  id : ∀ c', c = some c' → c'.id = s.id

theorem id_chunkAttributesFill {c c' : Chunk} (h : chunkAttributesFill verify c = .ok c') :
    c'.id = c.id := by
  unfold chunkAttributesFill at h
  split_ifs at h
  obtain ⟨increment, -, hret⟩ := bind_eq_ok.1 h
  rw [← Except.ok.inj hret]

theorem inputGet_ok {call : InputGrapes.Call} {s s' : InputGrapes.InputDesc} {c : Chunk}
    {delay : Int} (h : InputGrapes.inputGet call s = .ok (delay, c, s')) (hnonneg : 0 ≤ delay) :
    c.id = s.id ∧ s'.id = if 0 < call.chunkised.res then s.id + 1 else s.id := by
  by_cases hres : call.chunkised.res < 0
  · simp only [InputGrapes.inputGet, if_pos hres] at h
    obtain ⟨rfl, -⟩ := Prod.mk.inj (Except.ok.inj h)
    exact absurd hnonneg (by decide)
  · have hlatch (ts : UInt64) (r : InputGrapes.InputDesc) : (InputGrapes.latch ts r).id = r.id := by
      unfold InputGrapes.latch
      split_ifs <;> rfl
    by_cases hpos : 0 < call.chunkised.res
    · simp only [InputGrapes.inputGet, if_neg hres, if_pos hpos] at h
      obtain ⟨id, hid, hret⟩ := bind_eq_ok.1 h
      obtain ⟨-, hret⟩ := Prod.mk.inj (Except.ok.inj hret)
      obtain ⟨rfl, rfl⟩ := Prod.mk.inj hret
      refine ⟨rfl, ?_⟩
      rw [if_pos hpos, hlatch]
      exact eq_of_int_ok hid
    · simp only [InputGrapes.inputGet, if_neg hres, if_neg hpos] at h
      obtain ⟨id, hid, hret⟩ := bind_eq_ok.1 h
      obtain ⟨-, hret⟩ := Prod.mk.inj (Except.ok.inj hret)
      obtain ⟨rfl, rfl⟩ := Prod.mk.inj hret
      refine ⟨rfl, ?_⟩
      rw [if_neg hpos, hlatch]
      exact (Except.ok.inj hid).symm

theorem generatedChunk_ok {call : InputGrapes.Call} {s s' : InputGrapes.InputDesc}
    {c : Option Chunk} {delay : Int}
    (h : InputGrapes.generatedChunk verify call s = .ok (c, delay, s')) :
    Generated call s s' c delay := by
  obtain ⟨⟨delay', k, input⟩, hget, hret⟩ := bind_eq_ok.1 h
  obtain ⟨hnonneg, hret⟩ : 0 ≤ delay' ∧
      (if call.chunkised.data = none then .ok (none, delay', input) else do
        let c ← chunkAttributesFill verify k
        return (some c, delay', input)) = Except.ok (c, delay, s') := by
    by_cases hneg : delay' < 0
    · simp only [if_pos hneg] at hret
      cases hret
    · simp only [if_neg hneg] at hret
      exact ⟨Int.not_lt.1 hneg, hret⟩
  obtain ⟨hkid, hnext⟩ := inputGet_ok hget hnonneg
  by_cases hdata : call.chunkised.data = none
  · rw [if_pos hdata] at hret
    obtain ⟨rfl, hrest⟩ := Prod.mk.inj (Except.ok.inj hret)
    obtain ⟨rfl, rfl⟩ := Prod.mk.inj hrest
    exact ⟨hnonneg, hnext, iff_of_true rfl hdata, by simp⟩
  · rw [if_neg hdata] at hret
    obtain ⟨c', hfill, hret⟩ := bind_eq_ok.1 hret
    obtain ⟨rfl, hrest⟩ := Prod.mk.inj (Except.ok.inj hret)
    obtain ⟨rfl, rfl⟩ := Prod.mk.inj hrest
    refine ⟨hnonneg, hnext, iff_of_false (by simp) hdata, ?_⟩
    intro d hd
    obtain rfl := Option.some.inj hd
    exact (id_chunkAttributesFill hfill).trans hkid

theorem handleMessage_schedule {m : Option (Message N P S)}
    (h : handleMessage cfg clock m s = .ok (s', events)) :
    s'.schedule = s.schedule ∧ calls events = Loop.handleMessage (m.map Message.type) := by
  rcases m with _ | m
  · obtain ⟨rfl, rfl⟩ := Prod.mk.inj (Except.ok.inj h)
    exact ⟨rfl, rfl⟩
  cases m with
  | signalling remote msg sent =>
    obtain ⟨⟨node, out⟩, -, hret⟩ := bind_eq_ok.1 h
    obtain ⟨rfl, rfl⟩ := Prod.mk.inj (Except.ok.inj hret)
    refine ⟨rfl, ?_⟩
    show calls ([.sigParseData] ++ out.map .node) = _
    rw [calls_append, calls_node]
    rfl
  | _ =>
    obtain ⟨rfl, rfl⟩ := Prod.mk.inj (Except.ok.inj h)
    exact ⟨rfl, rfl⟩

omit [DecidableEq N] in
/-- What a turn with input does. -/
theorem handleInput_ok (h : handleInput cfg clock verify chunks turn s = .ok (s', events)) :
    ∃ c delay input u sent v offered,
      InputGrapes.generatedChunk verify ⟨turn.chunkised, clock.read s.node.reads⟩ s.input =
        .ok (c, delay, input) ∧
      handleChunk chunks turn c (tick { s with input := input }) = (u, sent) ∧
      checkOffer cfg clock turn (clock.read u.node.reads) (tick u) = (v, offered) ∧
      s' = nextTimeout (clock.read u.node.reads) delay v ∧
      events = .inputGet (clock.read s.node.reads) delay :: sent ++ offered := by
  obtain ⟨⟨c, delay, input⟩, hgenerated, hret⟩ := bind_eq_ok.1 h
  obtain ⟨⟨u, sent⟩, hu⟩ : ∃ r, handleChunk (S := S) chunks turn c
    (tick { s with input := input }) = r := ⟨_, rfl⟩
  obtain ⟨⟨v, offered⟩, hv⟩ : ∃ r, checkOffer (S := S) cfg clock turn (clock.read u.node.reads)
    (tick u) = r := ⟨_, rfl⟩
  simp only [hu, hv] at hret
  obtain ⟨rfl, rfl⟩ := Prod.mk.inj (Except.ok.inj hret)
  exact ⟨c, delay, input, u, sent, v, offered, hgenerated, hu, hv, rfl, rfl⟩

omit [DecidableEq N] in
theorem handleInput_schedule (h : handleInput cfg clock verify chunks turn s = .ok (s', events)) :
    ∃ i, Loop.handleInput chunks i s.schedule = .ok (s'.schedule, calls events) := by
  obtain ⟨c, delay, input, u, sent, v, offered, hgenerated, hu, hv, rfl, rfl⟩ := handleInput_ok h
  have hnonneg := (generatedChunk_ok hgenerated).nonneg
  set i : Loop.Input :=
    { called := clock.read s.node.reads
      delay := delay
      data := c.isSome
      tnow := clock.read u.node.reads
      period := (Streaming.sendOffer (S := S) cfg clock turn.skipped turn.selected
        (tick u).node).1.rate.period }
  have hchunk : Loop.handleChunk chunks i s.schedule = (u.schedule, calls sent) := by
    have hschedule := schedule_handleChunk (S := S) chunks turn c (i := i) rfl
      (tick { s with input := input })
    rwa [hu] at hschedule
  have hoffer : Loop.checkOffer i u.schedule = (v.schedule, calls offered) := by
    have hschedule := schedule_checkOffer (S := S) cfg clock turn (i := i) (tick u) rfl
    rwa [hv] at hschedule
  refine ⟨i, (if_neg (Int.not_lt.2 hnonneg)).trans ?_⟩
  simp only [hchunk, hoffer]
  refine congrArg Except.ok (Prod.ext rfl ?_)
  show _ = calls ([.inputGet (clock.read s.node.reads) delay] ++ sent ++ offered)
  rw [calls_append, calls_append]
  rfl

/-- An iteration is one of the schedule. -/
theorem iteration_schedule (h : iteration cfg clock verify chunks turn s = .ok (s', events)) :
    ∃ t : Loop.Turn, t.asked = clock.read s.node.reads ∧ t.res = turn.res ∧ t.woken = turn.woken ∧
      Loop.iteration chunks t s.schedule = .ok (s'.schedule, calls events) := by
  unfold iteration at h
  split_ifs at h with hmessage hinput
  · obtain ⟨hschedule, hcalls⟩ := handleMessage_schedule h
    refine ⟨⟨clock.read s.node.reads, turn.res, turn.woken, turn.message.map Message.type,
      ⟨ofUsec 0, 0, false, ofUsec 0, ofUsec 0⟩⟩, rfl, rfl, rfl, (if_pos hmessage).trans ?_⟩
    rw [hschedule, hcalls]
    rfl
  · obtain ⟨i, hi⟩ := handleInput_schedule h
    exact ⟨⟨clock.read s.node.reads, turn.res, turn.woken, none, i⟩, rfl, rfl, rfl,
      (if_neg hmessage).trans ((if_pos hinput).trans hi)⟩
  · obtain ⟨rfl, rfl⟩ := Prod.mk.inj (Except.ok.inj h)
    exact ⟨⟨clock.read s.node.reads, turn.res, turn.woken, none,
      ⟨ofUsec 0, 0, false, ofUsec 0, ofUsec 0⟩⟩, rfl, rfl, rfl,
      (if_neg hmessage).trans (if_neg hinput)⟩

/-- Without its input and its node the loop runs as the schedule says. -/
theorem sourceLoop_refines {turns : List (Turn N P S)}
    (h : sourceLoop cfg clock verify chunks turns s = .ok (s', events)) :
    ∃ ts : List Loop.Turn, ts.map Loop.Turn.res = turns.map Turn.res ∧
      ts.map Loop.Turn.woken = turns.map Turn.woken ∧
      Loop.sourceLoop chunks ts s.schedule = .ok (s'.schedule, calls events) := by
  induction turns generalizing s events with
  | nil =>
    obtain ⟨rfl, rfl⟩ := Prod.mk.inj (Except.ok.inj h)
    exact ⟨[], rfl, rfl, rfl⟩
  | cons turn turns ih =>
    obtain ⟨s₁, out, more, hone, hrest, rfl⟩ := Run.run_cons_ok h
    obtain ⟨t, -, hres, hwoken, hstep⟩ := iteration_schedule hone
    obtain ⟨ts, hress, hwokens, hrun⟩ := ih hrest
    refine ⟨t :: ts, ?_, ?_, ?_⟩
    · rw [List.map_cons, List.map_cons, hres, hress]
    · rw [List.map_cons, List.map_cons, hwoken, hwokens]
    · rw [calls_append]
      exact Run.run_cons hstep hrun

end Schedule

end PeerStreamer.SourceNode
