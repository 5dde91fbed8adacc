import PeerStreamer.NodeReadings
import PeerStreamer.PeerLoop
import PeerStreamer.SourceWindow

/-!
# The loops run their nodes (`loop.c`)

Between two reactions of its node a loop reads the clock, to know how long to wait and whether to
make offers.  A reaction does not depend on these readings: what a loop does with its node is a run
of the node, with a clock that answers the node alone (`loop_runs_node`, `sourceLoop_runs_node`).
So what holds of every run of a node holds of the node in a loop.
-/

namespace PeerStreamer.Streaming

open Readings

variable {N B P S : Type} [DecidableEq N] [ChunkIDSet S] [ChunkBuffer B] [PeerSet P N S]

/-- From its first state on, the node has reacted to the inputs, and its loop has read the clock in
between. -/
def Drives (cfg : Config) (clock : Clock) (pset : P) (period : Timeval)
    (inputs : List (Input N P S)) (events : List (Event N S)) (s : State N B P) : Prop :=
  Driven (fun c i s => step cfg c i s) clock (.init cfg pset period) inputs events s

variable {cfg : Config} {clock : Clock} {pset : P} {period : Timeval}
  {inputs is : List (Input N P S)} {events out : List (Event N S)} {s s' : State N B P}

theorem step_updatePeers (pset : P) (s : State N B P) :
    step cfg clock (.updatePeers pset : Input N P S) s = .ok ({ s with pset := pset }, []) :=
  rfl

theorem Drives.tick (h : Drives cfg clock pset period inputs events s) :
    Drives cfg clock pset period inputs events { s with reads := s.reads + 1 } :=
  Driven.tick h

theorem Drives.react (h : Drives cfg clock pset period inputs events s)
    (hr : Run.run (step cfg clock) is s = .ok (s', out)) :
    Drives cfg clock pset period (inputs ++ is) (events ++ out) s' :=
  h.run_append hr

/-- The node alone. -/
theorem Drives.run (h : Drives cfg clock pset period inputs events s) :
    ∃ (clock' : Clock) (f : ℕ → ℕ) (m : ℕ), StrictMono f ∧
      (∀ i, clock'.read i = clock.read (f i)) ∧ (∀ i, f (m + i) = s.reads + i) ∧
      Run.run (step cfg clock') inputs (.init cfg pset period) =
        .ok ({ s with reads := m }, events) := by
  obtain ⟨f, hf, m, -, hrest, hrun⟩ := Driven.run (sequential_step cfg) h
  exact ⟨_, f, m, hf, fun _ => rfl, hrest, hrun⟩

end PeerStreamer.Streaming

namespace PeerStreamer.PeerLoop

open Streaming Timeval

/-! ## A peer -/

section Peer

variable {N B P S : Type}

/-- What the node is given of a message. -/
def Message.inputs : Message N P S → List (Input N P S)
  | .topology pset => [.updatePeers pset]
  | .chunk remote msg ackSkipped => [.chunk remote msg ackSkipped]
  | .signalling remote msg sent => [.signal remote msg sent]
  | .other => []

/-- What the node is given in an iteration, after `cnt` rounds of offers. -/
def Turn.inputs (cnt : ℕ) (turn : Turn N P S) : List (Input N P S) :=
  if turn.res > 0 then turn.message.elim [] Message.inputs
  else
    .sendOffer turn.skipped turn.selected ::
      if cnt % 10 = 0 then [.updatePeers turn.pset] else []

/-- What the node is given in the turns. -/
def inputs : ℕ → List (Turn N P S) → List (Input N P S)
  | _, [] => []
  | cnt, turn :: turns => turn.inputs cnt ++ inputs (if turn.res > 0 then cnt else cnt + 1) turns

/-- What the node does. -/
def nodeEvents (events : List (Event N S)) : List (Streaming.Event N S) :=
  events.filterMap fun e => match e with
    | .node e => some e
    | _ => none

theorem nodeEvents_append (events more : List (Event N S)) :
    nodeEvents (events ++ more) = nodeEvents events ++ nodeEvents more := List.filterMap_append

theorem nodeEvents_node (events : List (Streaming.Event N S)) :
    nodeEvents (events.map Event.node) = events := by
  rw [nodeEvents, List.filterMap_map]
  exact List.filterMap_some

theorem nodeEvents_offers (events : List (Streaming.Event N S)) :
    nodeEvents (.sendOffer :: events.map Event.node) = events :=
  nodeEvents_node events

variable [DecidableEq N] [ChunkIDSet S] [ChunkBuffer B] [PeerSet P N S] {cfg : Config}
  {clock : Clock} {pset : P} {period : Timeval} {given : List (Input N P S)}
  {s s' : State N B P} {events more : List (Event N S)} {turn : Turn N P S}

theorem handleMessage_run (m : Option (Message N P S)) {s s' : Streaming.State N B P}
    {out : List (Streaming.Event N S)} (h : handleMessage cfg clock m s = .ok (s', out)) :
    Run.run (step cfg clock) (m.elim [] Message.inputs) s = .ok (s', out) := by
  rcases m with _ | m
  · exact h
  cases m with
  | other => exact h
  | _ => exact Run.run_singleton h

/-- An iteration is a reading of the clock, and then what the node does with its inputs. -/
theorem drives_iteration (h : Drives cfg clock pset period given (nodeEvents events) s.node)
    (hi : iteration cfg clock turn s = .ok (s', more)) :
    Drives cfg clock pset period (given ++ turn.inputs s.cnt) (nodeEvents (events ++ more))
        s'.node ∧
      s'.cnt = if turn.res > 0 then s.cnt else s.cnt + 1 := by
  rw [nodeEvents_append]
  unfold iteration at hi
  unfold Turn.inputs
  by_cases hres : turn.res > 0
  · rw [if_pos hres] at hi ⊢
    obtain ⟨⟨node, out⟩, hmessage, hret⟩ := bind_eq_ok.1 hi
    obtain ⟨rfl, rfl⟩ := Prod.mk.inj (Except.ok.inj hret)
    rw [nodeEvents_node, if_pos hres]
    exact ⟨h.tick.react (handleMessage_run _ hmessage), rfl⟩
  · rw [if_neg hres] at hi ⊢
    rw [if_neg hres]
    obtain ⟨⟨node, offers⟩, hoffers⟩ : ∃ r, Streaming.sendOffer (S := S) cfg clock turn.skipped
      turn.selected { s.node with reads := s.node.reads + 1 } = r := ⟨_, rfl⟩
    have hstep : step cfg clock (.sendOffer turn.skipped turn.selected)
        { s.node with reads := s.node.reads + 1 } = .ok (node, offers) :=
      congrArg Except.ok hoffers
    have hoffered := h.tick.react (Run.run_singleton hstep)
    simp only [handleTimeout, hoffers] at hi
    by_cases hcnt : s.cnt % 10 = 0
    · simp only [if_pos hcnt] at hi ⊢
      obtain ⟨rfl, rfl⟩ := Prod.mk.inj (Except.ok.inj hi)
      have hgossiped := hoffered.react (Run.run_singleton (step_updatePeers turn.pset node))
      rw [List.append_assoc, List.append_assoc, List.singleton_append] at hgossiped
      refine ⟨?_, rfl⟩
      rw [nodeEvents_append, nodeEvents_offers]
      exact hgossiped
    · simp only [if_neg hcnt] at hi ⊢
      obtain ⟨rfl, rfl⟩ := Prod.mk.inj (Except.ok.inj hi)
      refine ⟨?_, rfl⟩
      rw [List.append_nil, nodeEvents_offers]
      exact hoffered

theorem drives_iterations {turns : List (Turn N P S)}
    (h : Drives cfg clock pset period given (nodeEvents events) s.node)
    (hr : Run.run (iteration cfg clock) turns s = .ok (s', more)) :
    Drives cfg clock pset period (given ++ inputs s.cnt turns) (nodeEvents (events ++ more))
      s'.node := by
  induction turns generalizing given events s more with
  | nil =>
    obtain ⟨rfl, rfl⟩ := Prod.mk.inj (Except.ok.inj hr)
    rw [inputs, List.append_nil, List.append_nil]
    exact h
  | cons turn turns ih =>
    obtain ⟨s₁, out, rest, hone, hrest, rfl⟩ := Run.run_cons_ok hr
    obtain ⟨hdrives, hcnt⟩ := drives_iteration h hone
    have hall := ih hdrives hrest
    rwa [hcnt, List.append_assoc, List.append_assoc] at hall

/-- What the loop of a peer does with its node is a run of the node: it is given the messages of the
turns and, at each timeout, the order to make its offers, and at every tenth of them the peers that
the gossip leaves.  Its clock answers what the clock of the loop does, but for the readings that the
loop makes itself. -/
theorem loop_runs_node {csize : Int} {turns : List (Turn N P S)}
    (h : loop cfg clock csize pset turns = .ok ((s : State N B P), events)) :
    ∃ (clock' : Clock) (f : ℕ → ℕ) (m : ℕ), StrictMono f ∧
      (∀ i, clock'.read i = clock.read (f i)) ∧ (∀ i, f (m + i) = s.node.reads + i) ∧
      Run.run (step cfg clock') (inputs 0 turns) (.init cfg pset (ofUsec csize)) =
        .ok ({ s.node with reads := m }, nodeEvents events) := by
  have hbegin : Drives cfg clock pset (ofUsec csize) ([] : List (Input N P S)) (nodeEvents [])
      (State.init cfg clock csize pset : State N B P).node := (Readings.Driven.nil).tick
  have hall := drives_iterations hbegin h
  exact hall.run

end Peer

theorem loop_runs_node_quietTurns :
    ∃ s events, loop plainConfig tickingClock 500000
        (ListPeers.empty.add 1 (ofUsec 0) : ListPeers ℕ ListIDSet) quietTurns =
          .ok ((s : State ℕ ListBuffer (ListPeers ℕ ListIDSet)), events) ∧
      ∃ (clock' : Clock) (f : ℕ → ℕ) (m : ℕ), StrictMono f ∧
        (∀ i, clock'.read i = tickingClock.read (f i)) ∧
        (∀ i, f (m + i) = s.node.reads + i) ∧
        Run.run (step plainConfig clock') (inputs 0 quietTurns)
            (.init plainConfig (ListPeers.empty.add 1 (ofUsec 0)) (ofUsec 500000)) =
          .ok ({ s.node with reads := m }, nodeEvents events) := by
  obtain ⟨s, events, hrun⟩ : ∃ s events, loop plainConfig tickingClock 500000
      (ListPeers.empty.add 1 (ofUsec 0) : ListPeers ℕ ListIDSet) quietTurns =
        .ok ((s : State ℕ ListBuffer (ListPeers ℕ ListIDSet)), events) := ⟨_, _, rfl⟩
  exact ⟨s, events, hrun, loop_runs_node hrun⟩

end PeerStreamer.PeerLoop

namespace PeerStreamer.SourceNode

open Streaming Timeval

/-! ## The source -/

section Source

variable {N B P S : Type}

/-- What the node does. -/
def nodeEvents (events : List (Event N S)) : List (Streaming.Event N S) :=
  events.filterMap fun e => match e with
    | .node e => some e
    | _ => none

theorem nodeEvents_append (events more : List (Event N S)) :
    nodeEvents (events ++ more) = nodeEvents events ++ nodeEvents more := List.filterMap_append

theorem nodeEvents_node (events : List (Streaming.Event N S)) :
    nodeEvents (events.map Event.node) = events := by
  rw [nodeEvents, List.filterMap_map]
  exact List.filterMap_some

variable [DecidableEq N] [ChunkIDSet S] [ChunkBuffer B] [PeerSet P N S] {cfg : Config}
  {clock : Clock} {verify : List UInt8 → Option Int} {chunks : ℕ} {pset : P} {period : Timeval}
  {s s' u : State N B P} {events more : List (Event N S)} {turn : Turn N P S}

/-- The node has reacted to inputs, and the chunks that were generated were added to it. -/
def Reacts (cfg : Config) (clock : Clock) (s s' : State N B P) (events : List (Event N S)) : Prop :=
  ∃ is : List (Input N P S), Run.run (step cfg clock) is s.node = .ok (s'.node, nodeEvents events) ∧
    addedIds is = (generated events).map Chunk.id

theorem Reacts.of_eq (hnode : s'.node = s.node) (hevents : nodeEvents events = [])
    (hgenerated : generated events = []) : Reacts cfg clock s s' events := by
  refine ⟨[], ?_, ?_⟩
  · rw [hnode, hevents]
    rfl
  · rw [hgenerated]
    rfl

theorem Reacts.append (h : Reacts cfg clock s u events) (h' : Reacts cfg clock u s' more) :
    Reacts cfg clock s s' (events ++ more) := by
  obtain ⟨is, hrun, hadded⟩ := h
  obtain ⟨js, hrun', hadded'⟩ := h'
  refine ⟨is ++ js, ?_, ?_⟩
  · rw [nodeEvents_append]
    exact Run.run_append hrun hrun'
  · rw [addedIds_append, generated_append, List.map_append, hadded, hadded']

/-- A reaction to an input that is no chunk. -/
theorem Reacts.step (input : Input N P S) {out : List (Streaming.Event N S)}
    (h : Streaming.step cfg clock input s.node = .ok (s'.node, out))
    (hadded : addedIds [input] = []) :
    Reacts cfg clock s s' (out.map .node) := by
  refine ⟨[input], ?_, ?_⟩
  · rw [nodeEvents_node]
    exact Run.run_singleton h
  · rw [hadded, generated_node]
    rfl

theorem reacts_updatePeers (pset : P) (hnode : s'.node = { s.node with pset := pset }) :
    Reacts cfg clock s s' [(.updatePeers : Event N S)] := by
  refine ⟨[.updatePeers pset], ?_, rfl⟩
  rw [hnode]
  exact Run.run_singleton (step_updatePeers pset s.node)

theorem reacts_countPeers (cfg : Config) (clock : Clock) (pset : P) (s : State N B P) :
    Reacts cfg clock s (countPeers (S := S) pset s).1 (countPeers (S := S) pset s).2 := by
  unfold countPeers
  split_ifs
  · exact reacts_updatePeers pset rfl
  · exact .of_eq rfl rfl rfl

theorem reacts_sendChunks (cfg : Config) (clock : Clock)
    (pushes : List (Option (N × Int) × Bool)) (s : State N B P) :
    Reacts cfg clock s { s with node := (sendChunks (S := S) pushes s.node).1 }
      (sendChunks (S := S) pushes s.node).2 := by
  induction pushes generalizing s with
  | nil => exact .of_eq rfl rfl rfl
  | cons push pushes ih =>
    have hcall : Reacts cfg clock s s [(.sendChunk : Event N S)] := .of_eq rfl rfl rfl
    have hone : Reacts cfg clock s
        { s with node := (Streaming.sendChunk (S := S) push.1 push.2 s.node).1 }
        ((Streaming.sendChunk (S := S) push.1 push.2 s.node).2.map .node) :=
      .step (.sendChunk push.1 push.2) rfl rfl
    exact (hcall.append hone).append (ih _)

theorem reacts_handleChunk (cfg : Config) (clock : Clock) (chunks : ℕ) (turn : Turn N P S)
    (c : Option Chunk) (s : State N B P) :
    Reacts cfg clock s (handleChunk chunks turn c s).1 (handleChunk chunks turn c s).2 := by
  cases c with
  | none => exact .of_eq rfl rfl rfl
  | some c =>
    have hadd : Reacts cfg clock s { s with node := Streaming.addChunk c s.node }
        [(.addChunk c : Event N S)] :=
      ⟨[.addChunk c], rfl, rfl⟩
    have hsends := reacts_sendChunks cfg clock ((List.range chunks).map turn.push)
      { s with node := Streaming.addChunk c s.node }
    exact (hadd.append hsends).append (reacts_countPeers cfg clock turn.chunkPset _)

theorem reacts_checkOffer (cfg : Config) (clock : Clock) (turn : Turn N P S) (tnow : Timeval)
    (s : State N B P) :
    Reacts cfg clock s (checkOffer cfg clock turn tnow s).1
      (checkOffer cfg clock turn tnow s).2 := by
  unfold checkOffer
  split_ifs
  · have hcall : Reacts cfg clock s s [(.sendOffer : Event N S)] := .of_eq rfl rfl rfl
    have hoffers : Reacts cfg clock s
        { s with node := (Streaming.sendOffer (S := S) cfg clock turn.skipped turn.selected
          s.node).1 }
        ((Streaming.sendOffer (S := S) cfg clock turn.skipped turn.selected s.node).2.map .node) :=
      .step (.sendOffer turn.skipped turn.selected) rfl rfl
    exact (hcall.append hoffers).append (reacts_countPeers cfg clock turn.offerPset _)
  · exact .of_eq rfl rfl rfl

theorem reacts_handleMessage {m : Option (Message N P S)}
    (h : handleMessage cfg clock m s = .ok (s', events)) : Reacts cfg clock s s' events := by
  rcases m with _ | m
  · obtain ⟨rfl, rfl⟩ := Prod.mk.inj (Except.ok.inj h)
    exact .of_eq rfl rfl rfl
  cases m with
  | topology pset =>
    obtain ⟨rfl, rfl⟩ := Prod.mk.inj (Except.ok.inj h)
    exact reacts_updatePeers pset rfl
  | signalling remote msg sent =>
    obtain ⟨⟨node, out⟩, hsig, hret⟩ := bind_eq_ok.1 h
    obtain ⟨rfl, rfl⟩ := Prod.mk.inj (Except.ok.inj hret)
    have hcall : Reacts cfg clock s s [(.sigParseData : Event N S)] := .of_eq rfl rfl rfl
    exact hcall.append (.step (.signal remote msg sent) hsig rfl)
  | _ =>
    obtain ⟨rfl, rfl⟩ := Prod.mk.inj (Except.ok.inj h)
    exact .of_eq rfl rfl rfl

/-- The node has been driven, and the chunks that were generated were added to it. -/
def Driving (cfg : Config) (clock : Clock) (pset : P) (period : Timeval) (s : State N B P)
    (events : List (Event N S)) : Prop :=
  ∃ given : List (Input N P S), Drives cfg clock pset period given (nodeEvents events) s.node ∧
    addedIds given = (generated events).map Chunk.id

theorem Driving.tick (h : Driving cfg clock pset period s events) :
    Driving cfg clock pset period (SourceNode.tick s) events := by
  obtain ⟨given, hdrives, hadded⟩ := h
  exact ⟨given, hdrives.tick, hadded⟩

theorem Driving.react (h : Driving cfg clock pset period s events)
    (hr : Reacts cfg clock s s' more) : Driving cfg clock pset period s' (events ++ more) := by
  obtain ⟨given, hdrives, hadded⟩ := h
  obtain ⟨is, hrun, hmore⟩ := hr
  refine ⟨given ++ is, ?_, ?_⟩
  · rw [nodeEvents_append]
    exact hdrives.react hrun
  · rw [addedIds_append, generated_append, List.map_append, hadded, hmore]

theorem Driving.handleInput (h : Driving cfg clock pset period s events)
    (hi : handleInput cfg clock verify chunks turn s = .ok (s', more)) :
    Driving cfg clock pset period s' (events ++ more) := by
  obtain ⟨c, delay, input, u, sent, v, offered, -, hu, hv, rfl, rfl⟩ := handleInput_ok hi
  have hcall : Reacts cfg clock s { s with input := input }
      [(.inputGet (clock.read s.node.reads) delay : Event N S)] := .of_eq rfl rfl rfl
  have hchunk := reacts_handleChunk cfg clock chunks turn c
    (SourceNode.tick { s with input := input })
  rw [hu] at hchunk
  have hoffer := reacts_checkOffer cfg clock turn (clock.read u.node.reads)
    (SourceNode.tick u)
  rw [hv] at hoffer
  -- the clock is read for the input, and again for the offers
  have hall := ((h.react hcall).tick.react hchunk).tick.react hoffer
  rw [List.append_assoc, List.append_assoc] at hall
  exact hall

theorem Driving.iteration (h : Driving cfg clock pset period s events)
    (hi : iteration cfg clock verify chunks turn s = .ok (s', more)) :
    Driving cfg clock pset period s' (events ++ more) := by
  unfold SourceNode.iteration at hi
  split_ifs at hi
  · exact h.tick.react (reacts_handleMessage hi)
  · exact h.tick.handleInput hi
  · obtain ⟨rfl, rfl⟩ := Prod.mk.inj (Except.ok.inj hi)
    rw [List.append_nil]
    exact h.tick

/-- What the loop of a source does with its node is a run of the node as well, in which the chunks
that are generated are added to it, in this order. -/
theorem sourceLoop_runs_node {csize : Int} {input : InputGrapes.InputDesc}
    {turns : List (Turn N P S)}
    (h : sourceLoop cfg clock verify chunks turns (.init cfg clock csize pset input) =
      .ok ((s : State N B P), events)) :
    ∃ (inputs : List (Input N P S)) (clock' : Clock) (f : ℕ → ℕ) (m : ℕ),
      addedIds inputs = (generated events).map Chunk.id ∧ StrictMono f ∧
      (∀ i, clock'.read i = clock.read (f i)) ∧ (∀ i, f (m + i) = s.node.reads + i) ∧
      Run.run (step cfg clock') inputs (.init cfg pset (ofUsec csize)) =
        .ok ({ s.node with reads := m }, nodeEvents events) := by
  have hbegin : Driving cfg clock pset (ofUsec csize)
      (State.init cfg clock csize pset input : State N B P) ([] : List (Event N S)) :=
    ⟨[], Drives.tick (Drives.tick Readings.Driven.nil), rfl⟩
  have hall : Driving cfg clock pset (ofUsec csize) s events :=
    Run.invariant (P := fun _ _ => True)
      (fun _ s events => Driving cfg clock pset (ofUsec csize) s events) hbegin
      (fun _ _ _ _ _ _ h _ hi => h.iteration hi) (.of_forall fun _ _ _ => trivial) h
  obtain ⟨given, hdrives, hadded⟩ := hall
  obtain ⟨clock', f, m, hrun⟩ := hdrives.run
  exact ⟨given, clock', f, m, hadded, hrun⟩

end Source

theorem sourceLoop_runs_node_three :
    ∃ s events, sourceLoop { plainConfig with cbSize := 2 } PeerLoop.tickingClock (fun _ => none) 1
        (List.replicate 3 chunkTurn) (.init { plainConfig with cbSize := 2 } PeerLoop.tickingClock
          40000 .empty ⟨3, 40000, 0, 0⟩) =
        .ok ((s : State ℕ ListBuffer (ListPeers ℕ ListIDSet)), events) ∧
      (generated events).length = 3 ∧
      ∃ (inputs : List (Input ℕ (ListPeers ℕ ListIDSet) ListIDSet)) (clock' : Clock) (f : ℕ → ℕ)
        (m : ℕ), addedIds inputs = (generated events).map Chunk.id ∧ StrictMono f ∧
        (∀ i, clock'.read i = PeerLoop.tickingClock.read (f i)) ∧
        (∀ i, f (m + i) = s.node.reads + i) ∧
        Run.run (step { plainConfig with cbSize := 2 } clock') inputs
            (.init { plainConfig with cbSize := 2 } .empty (ofUsec 40000)) =
          .ok ({ s.node with reads := m }, nodeEvents events) := by
  have hrun : (sourceLoop (B := ListBuffer) { plainConfig with cbSize := 2 } PeerLoop.tickingClock
      (fun _ => none) 1 (List.replicate 3 chunkTurn) (.init { plainConfig with cbSize := 2 }
        PeerLoop.tickingClock 40000 .empty ⟨3, 40000, 0, 0⟩)).toOption.any
      (fun r => (generated r.2).length = 3) = true := by
    decide +kernel
  obtain ⟨⟨s, events⟩, hr, hlength⟩ := eq_ok_of_any hrun
  exact ⟨s, events, hr, of_decide_eq_true hlength, sourceLoop_runs_node hr⟩

end PeerStreamer.SourceNode
