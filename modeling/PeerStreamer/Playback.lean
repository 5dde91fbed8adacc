import PeerStreamer.ChunkTrail
import PeerStreamer.OutputReference
import PeerStreamer.Overlay

/-!
# What the nodes of an overlay play

`received_chunk` hands every chunk that arrives to `output_deliver`.  Here each node of the overlay
has its reorder buffer, and a node whose output ends the program takes no further part.

Chunks are changed on their way: every sender and every receiver rewrites their attributes.  What
is played is nevertheless what was generated (`Genuine`), in the order of the ids and never twice,
whatever becomes of the messages (`played_genuine`); and no output ever ends its program.
-/

namespace PeerStreamer.Overlay

open Streaming Network

variable {N B P S : Type}

/-- A node with its output. -/
structure Player (N B P : Type) where
  node : State N B P
  output : OutputState

/-! ## The nodes -/

/-- The chunks that `output_deliver` is called with. -/
def deliveries (events : List (Event N S)) : List Chunk :=
  events.filterMap fun
    | .outputDeliver c => some c
    | _ => none

/-- The chunks of a function's events are played, and its messages sent. -/
def play (ocfg : OutputConfig) (output : OutputState) (r : State N B P × List (Event N S)) :
    Except Fault (Player N B P × List (N × Message N S)) := do
  let output ← (deliveries r.2).foldlM (fun s c => outputDeliver ocfg c s) output
  return (⟨r.1, output⟩, messages r.2)

variable [DecidableEq N] [ChunkIDSet S] [ChunkBuffer B] [PeerSet P N S]

/-- What a node does on its own plays nothing. -/
def playAct (cfg : Config) (clock : Clock) (self : N) (a : Action N P) (p : Player N B P) :
    Player N B P × List (N × Message N S) :=
  let (s, outs) := act cfg clock self a p.node
  (⟨s, p.output⟩, outs)

def playHandle (cfg : Config) (ocfg : OutputConfig) (clock : Clock) (b : Choices) (src : N)
    (m : Message N S) (p : Player N B P) :
    Except Fault (Player N B P × List (N × Message N S)) :=
  match m with
  | .chunk c transId =>
    play ocfg p.output (receivedChunk clock src (some (c, transId)) b.ackSkipped p.node)
  | .signal sig => do
    let r ← sigParseData cfg clock src (some sig) b.sent p.node
    play ocfg p.output r

/-- Every node has its own configuration, output and clock. -/
def players (cfg : N → Config) (ocfg : N → OutputConfig) (clock : N → Clock) :
    System N (Player N B P) (Action N P) Choices (Message N S) Fault where
  act n a p := .ok (playAct (cfg n) (clock n) n a p)
  handle n b src m p := playHandle (cfg n) (ocfg n) (clock n) b src m p

/-! ## What is kept on the way -/

/-- The chunk is one that was generated, up to its attributes. -/
def Genuine (generated : Chunk → Prop) (c : Chunk) : Prop :=
  ∃ g, generated g ∧ g.id = c.id ∧ g.timestamp = c.timestamp ∧ g.data = c.data

section Genuine

variable {generated : Chunk → Prop} {c : Chunk}

omit [DecidableEq N] [ChunkIDSet S] [ChunkBuffer B] [PeerSet P N S]

theorem Genuine.updateAttributes (h : Genuine generated c)
    (f : ChunkAttributes → ChunkAttributes) : Genuine generated (updateAttributes f c) := by
  obtain ⟨g, hg, hid, htime, hdata⟩ := h
  unfold PeerStreamer.updateAttributes
  split
  · exact ⟨g, hg, hid, htime, hdata⟩
  · exact ⟨g, hg, hid, htime, hdata⟩

theorem Genuine.nonneg (hgen : ∀ g, generated g → 0 ≤ g.id) (h : Genuine generated c) :
    0 ≤ c.id := by
  obtain ⟨g, hg, hid, -⟩ := h
  exact hid ▸ hgen g hg

end Genuine

/-- A message of a genuine chunk, or one without a chunk. -/
def Bears (generated : Chunk → Prop) : Message N S → Prop
  | .chunk c _ => Genuine generated c
  | .signal _ => True

section Kept

variable {generated : Chunk → Prop} {cb cb' : B} {events : List (Event N S)}

omit [DecidableEq N] [ChunkIDSet S] [PeerSet P N S]

theorem deliveries_of_trail (h : Trail cb events cb') : deliveries events = [] := by
  rw [deliveries, List.filterMap_eq_nil_iff]
  intro e he
  cases e with
  | outputDeliver c => exact absurd he (h.not_outputDeliver c)
  | _ => rfl

/-- A buffer of genuine chunks sends genuine chunks. -/
theorem genuine_of_trail [LawfulChunkBuffer B] (h : Trail cb events cb')
    (hcb : ∀ c ∈ ChunkBuffer.getChunks cb, Genuine generated c) :
    (∀ c ∈ ChunkBuffer.getChunks cb', Genuine generated c) ∧
      ∀ o ∈ messages events, Bears generated o.2 := by
  obtain ⟨hend, hsends⟩ := h.forall (G := Genuine generated) (fun c hc => hc.updateAttributes _) hcb
  refine ⟨hend, ?_⟩
  intro o ho
  obtain ⟨e, he, hmsg⟩ := List.mem_filterMap.1 ho
  cases e with
  | locked | outputDeliver => cases hmsg
  | sendChunk toid c transId sent =>
    cases sent with
    | false => cases hmsg
    | true =>
      obtain rfl := Option.some.inj hmsg
      exact hsends toid c transId true he
  | offerChunks | acceptChunks | sendAck =>
    obtain rfl := Option.some.inj hmsg
    exact trivial

theorem genuine_addChunk [LawfulChunkBuffer B] (hgen : ∀ g, generated g → 0 ≤ g.id)
    (hcb : ∀ c ∈ ChunkBuffer.getChunks cb, Genuine generated c) {c : Chunk}
    (hc : Genuine generated c) :
    ∀ d ∈ ChunkBuffer.getChunks (ChunkBuffer.addChunk cb c).2, Genuine generated d := by
  intro d hd
  rcases ChunkBuffer.mem_addChunk cb (hc.nonneg hgen) hd with ⟨hold, -⟩ | ⟨rfl, -⟩
  · exact hcb d hold
  · exact hc

end Kept

/-! ## The output -/

/-- The output has played and stored only genuine chunks. -/
def Playing (generated : Chunk → Prop) (ocfg : OutputConfig) (output : OutputState) : Prop :=
  output = .init ∨ ∃ accepted, Settled ocfg accepted output ∧ DistinctIds accepted ∧
    ∀ a ∈ accepted, Genuine generated a

section Output

variable {generated : Chunk → Prop} {ocfg : OutputConfig} {output : OutputState} {c : Chunk}

omit [DecidableEq N] [ChunkIDSet S] [ChunkBuffer B] [PeerSet P N S]

/-- An output takes every genuine chunk. -/
theorem Playing.deliver (hB : 0 < ocfg.buffSize)
    (hgen : ∀ g, generated g → 0 ≤ g.id ∧ g.id + ocfg.buffSize < INT_MAX)
    (h : Playing generated ocfg output) (hc : Genuine generated c) :
    ∃ output', outputDeliver ocfg c output = .ok output' ∧ Playing generated ocfg output' := by
  obtain ⟨g, hg, hid, -⟩ := id hc
  obtain ⟨hnonneg, hmax⟩ : 0 ≤ c.id ∧ c.id + ocfg.buffSize < INT_MAX := hid ▸ hgen g hg
  rcases h with rfl | ⟨accepted, hsettled, hdistinct, hall⟩
  · obtain ⟨output', ho, hsettled, -⟩ := outputDeliver_init hB hnonneg hmax.le
    refine ⟨output', ho, .inr ⟨[c], hsettled, ?_, ?_⟩⟩
    · intro a ha b hb _
      exact (List.mem_singleton.1 ha).trans (List.mem_singleton.1 hb).symm
    · intro a ha
      exact List.mem_singleton.1 ha ▸ hc
  · by_cases hlate : c.id < output.nextChunk
    · obtain ⟨output', ho, hsettled', -⟩ := outputDeliver_late hsettled hlate
      exact ⟨output', ho, .inr ⟨accepted, hsettled', hdistinct, hall⟩⟩
    · have hle := not_lt.1 hlate
      obtain ⟨output', ho, hsettled', -⟩ := outputDeliver_settled hB hdistinct hsettled hle
        (by omega) (.of_lt hB hle hmax)
      refine ⟨output', ho, .inr ⟨_, hsettled', hdistinct.acceptNew c, ?_⟩⟩
      intro a ha
      unfold acceptNew at ha
      split_ifs at ha
      · rcases List.mem_append.1 ha with ha | ha
        · exact hall a ha
        · exact List.mem_singleton.1 ha ▸ hc
      · exact hall a ha

/-- What has been played. -/
theorem Playing.written (h : Playing generated ocfg output) (hr : ocfg.reorder = true) :
    ((written output.trace).Pairwise fun a b => a.id < b.id) ∧
      ∀ c ∈ written output.trace, Genuine generated c ∧ ocfg.InRange c.id := by
  rcases h with rfl | ⟨accepted, hsettled, -, hall⟩
  · exact ⟨List.Pairwise.nil, by simp [OutputState.init, PeerStreamer.written]⟩
  · refine ⟨hsettled.stage.sorted hr, ?_⟩
    intro c hc
    obtain ⟨hmem, -, hrange⟩ := (hsettled.stage.written hr c).1 hc
    exact ⟨hall c hmem, hrange⟩

end Output

/-! ## Runs -/

/-- A node with genuine chunks only, stored and played. -/
structure Authentic (generated : Chunk → Prop) (ocfg : OutputConfig) (p : Player N B P) :
    Prop where
  buffer : ∀ c ∈ ChunkBuffer.getChunks p.node.cb, Genuine generated c
  output : Playing generated ocfg p.output

section Runs

variable [LawfulChunkIDSet S] [LawfulChunkBuffer B] {generated : Chunk → Prop}

omit [DecidableEq N] [LawfulChunkIDSet S] [LawfulChunkBuffer B] [ChunkIDSet S] [PeerSet P N S] in
theorem play_of_trail {ocfg : OutputConfig} {s : State N B P} {output : OutputState}
    {events : List (Event N S)} {cb : B} (h : Trail cb events s.cb) :
    play ocfg output (s, events) = .ok (⟨s, output⟩, messages events) := by
  rw [play, deliveries_of_trail h]
  rfl

omit [LawfulChunkBuffer B] in
/-- A signalling message plays nothing. -/
theorem playHandle_signal_ok {cfg : Config} {ocfg : OutputConfig} {clock : Clock} {b : Choices}
    {src : N} {sig : Signal N S} {p p' : Player N B P} {outs : List (N × Message N S)}
    (h : playHandle cfg ocfg clock b src (.signal sig) p = .ok (p', outs)) :
    ∃ s events, sigParseData cfg clock src (some sig) b.sent p.node = .ok (s, events) ∧
      p' = ⟨s, p.output⟩ ∧ outs = messages events := by
  obtain ⟨⟨s, events⟩, hparse, hplay⟩ := bind_eq_ok.1 h
  rw [play_of_trail (trail_sigParseData hparse)] at hplay
  obtain ⟨rfl, rfl⟩ := Prod.mk.inj (Except.ok.inj hplay)
  exact ⟨s, events, hparse, rfl, rfl⟩

omit [LawfulChunkIDSet S] [LawfulChunkBuffer B] in
/-- A chunk that arrives is played, as far as the output takes it. -/
theorem playHandle_chunk (cfg : Config) (ocfg : OutputConfig) (clock : Clock) (b : Choices)
    (src : N) (c : Chunk) (transId : UInt16) (p : Player N B P) :
    playHandle (S := S) cfg ocfg clock b src (.chunk c transId) p = do
      let output ← outputDeliver ocfg (chunkAttributesUpdateReceived c) p.output
      return (⟨(receivedChunk (S := S) clock src (some (c, transId)) b.ackSkipped p.node).1, output⟩,
        messages (receivedChunk clock src (some (c, transId)) b.ackSkipped p.node).2) := by
  have hplayed : deliveries
      (receivedChunk (S := S) clock src (some (c, transId)) b.ackSkipped p.node).2 =
        [chunkAttributesUpdateReceived c] := by
    cases b.ackSkipped <;> rfl
  show play ocfg p.output _ = _
  rw [play, hplayed, List.foldlM_cons]
  simp only [List.foldlM_nil, bind_pure]

omit [DecidableEq N] [LawfulChunkIDSet S] [LawfulChunkBuffer B] in
theorem receivedChunk_cb (clock : Clock) (src : N) (c : Chunk) (transId : UInt16) (skipped : Bool)
    (s : State N B P) :
    (receivedChunk (S := S) clock src (some (c, transId)) skipped s).1.cb =
      (ChunkBuffer.addChunk s.cb (chunkAttributesUpdateReceived c)).2 := by
  show (regSender _ _ _ _).cb = _
  unfold regSender
  split <;> rfl

omit [DecidableEq N] [LawfulChunkIDSet S] in
/-- What a node does on its own keeps its chunks genuine, as long as what it adds is generated. -/
theorem genuine_act (hgen : ∀ g, generated g → 0 ≤ g.id) (cfg : Config) (clock : Clock) (self : N)
    {a : Action N P} {s : State N B P} (ha : ∀ c, a = .addChunk c → generated c)
    (hs : ∀ c ∈ ChunkBuffer.getChunks s.cb, Genuine generated c) :
    (∀ c ∈ ChunkBuffer.getChunks (act (S := S) cfg clock self a s).1.cb, Genuine generated c) ∧
      ∀ o ∈ (act (S := S) cfg clock self a s).2, Bears generated o.2 := by
  cases a with
  | sendChunk pair sent => exact genuine_of_trail (trail_sendChunk (S := S) pair sent s) hs
  | sendOffer skipped selected =>
    exact genuine_of_trail (trail_sendOffer (S := S) cfg clock skipped selected s) hs
  | addChunk c =>
    have hc : Genuine generated c := ⟨c, ha c rfl, rfl, rfl, rfl⟩
    exact ⟨genuine_addChunk hgen hs hc, by simp [act]⟩
  | updatePeers pset => exact ⟨hs, by simp [act]⟩
  | sendBmap toid => exact ⟨hs, by simp [act, sendBmap, Bears]⟩

omit [DecidableEq N] [LawfulChunkIDSet S] in
theorem genuine_receivedChunk (hgen : ∀ g, generated g → 0 ≤ g.id) (clock : Clock) (src : N)
    (skipped : Bool) {c : Chunk} (transId : UInt16) {s : State N B P} (hc : Genuine generated c)
    (hs : ∀ c ∈ ChunkBuffer.getChunks s.cb, Genuine generated c) :
    (∀ d ∈ ChunkBuffer.getChunks
      (receivedChunk (S := S) clock src (some (c, transId)) skipped s).1.cb,
        Genuine generated d) ∧
      ∀ o ∈ messages (receivedChunk (S := S) clock src (some (c, transId)) skipped s).2,
        Bears generated o.2 := by
  constructor
  · rw [receivedChunk_cb]
    exact genuine_addChunk hgen hs (hc.updateAttributes _)
  · cases skipped <;> simp [receivedChunk, messages, messageOf, Bears]

/-- The nodes pass on genuine chunks only. -/
theorem localOn_nodes (hgen : ∀ g, generated g → 0 ≤ g.id) (cfg : N → Config) (clock : N → Clock) :
    LocalOn (nodes (B := B) (P := P) (S := S) cfg clock)
      (fun _ a => ∀ c, a = .addChunk c → generated c)
      (fun _ s => ∀ c ∈ ChunkBuffer.getChunks s.cb, Genuine generated c)
      fun _ _ m => Bears generated m where
  act n a s s' outs ha hs h := by
    obtain ⟨rfl, rfl⟩ := Prod.mk.inj (Except.ok.inj h)
    exact genuine_act hgen (cfg n) (clock n) n ha hs
  handle n b src m s s' outs hs hm h := by
    cases m with
    | chunk c transId =>
      obtain ⟨rfl, rfl⟩ := Prod.mk.inj (Except.ok.inj h)
      exact genuine_receivedChunk hgen (clock n) src b.ackSkipped transId hm hs
    | signal sig =>
      obtain ⟨events, hr, rfl⟩ := handle_signal_ok h
      exact genuine_of_trail (trail_sigParseData hr) hs

omit [DecidableEq N] [LawfulChunkIDSet S] in
theorem authentic_act (hgen : ∀ g, generated g → 0 ≤ g.id) {cfg : Config} {ocfg : OutputConfig}
    {clock : Clock} {self : N} {a : Action N P} {p : Player N B P}
    (ha : ∀ c, a = .addChunk c → generated c) (hp : Authentic generated ocfg p) :
    Authentic generated ocfg (playAct (S := S) cfg clock self a p).1 ∧
      ∀ o ∈ (playAct (S := S) cfg clock self a p).2, Bears generated o.2 := by
  obtain ⟨hcb, hout⟩ := genuine_act (S := S) hgen cfg clock self ha hp.buffer
  exact ⟨⟨hcb, hp.output⟩, hout⟩

omit [LawfulChunkIDSet S] in
/-- A chunk that arrives is stored and played. -/
theorem authentic_chunk {ocfg : OutputConfig} (hB : 0 < ocfg.buffSize)
    (hgen : ∀ g, generated g → 0 ≤ g.id ∧ g.id + ocfg.buffSize < INT_MAX) (cfg : Config)
    (clock : Clock) (b : Choices) (src : N) {c : Chunk} (transId : UInt16) {p : Player N B P}
    (hc : Genuine generated c) (hp : Authentic generated ocfg p) :
    ∃ p' outs, playHandle (S := S) cfg ocfg clock b src (.chunk c transId) p = .ok (p', outs) ∧
      Authentic generated ocfg p' ∧ ∀ o ∈ outs, Bears generated o.2 := by
  obtain ⟨output', ho, hout⟩ := hp.output.deliver hB hgen (hc.updateAttributes _)
  obtain ⟨hcb, hbears⟩ := genuine_receivedChunk (S := S) (fun g hg => (hgen g hg).1) clock src
    b.ackSkipped transId hc hp.buffer
  refine ⟨⟨_, output'⟩, _, ?_, ⟨hcb, hout⟩, hbears⟩
  rw [playHandle_chunk, chunkAttributesUpdateReceived, ho]
  rfl

theorem localOn_players (cfg : N → Config) (ocfg : N → OutputConfig) (clock : N → Clock)
    (hB : ∀ n, 0 < (ocfg n).buffSize)
    (hgen : ∀ n g, generated g → 0 ≤ g.id ∧ g.id + (ocfg n).buffSize < INT_MAX) :
    LocalOn (players (B := B) (P := P) (S := S) cfg ocfg clock)
      (fun _ a => ∀ c, a = .addChunk c → generated c)
      (fun n p => Authentic generated (ocfg n) p) fun _ _ m => Bears generated m where
  act n a p p' outs ha hp h := by
    obtain ⟨rfl, rfl⟩ := Prod.mk.inj (Except.ok.inj h)
    exact authentic_act (fun g hg => (hgen n g hg).1) ha hp
  handle n b src m p p' outs hp hm h := by
    cases m with
    | chunk c transId =>
      obtain ⟨q, more, hq, hauth, hbears⟩ :=
        authentic_chunk (hB n) (hgen n) (cfg n) (clock n) b src transId hm hp
      obtain ⟨rfl, rfl⟩ := Prod.mk.inj (Except.ok.inj (hq.symm.trans h))
      exact ⟨hauth, hbears⟩
    | signal sig =>
      obtain ⟨s, events, hparse, rfl, rfl⟩ := playHandle_signal_ok h
      obtain ⟨hcb, hout⟩ := genuine_of_trail (trail_sigParseData hparse) hp.buffer
      exact ⟨⟨hcb, hp.output⟩, hout⟩

/-- In every run the chunks that a node has played were generated, up to their attributes, and they
come in the order of their ids, each at most once; and its output takes every chunk that is on its
way. -/
theorem played_genuine (cfg : N → Config) (ocfg : N → OutputConfig) (clock : N → Clock)
    (hB : ∀ n, 1 ≤ (ocfg n).buffSize) (hr : ∀ n, (ocfg n).reorder = true)
    (moves : List (Move N (Action N P) Choices))
    (hids : ∀ m c, .act m (.addChunk c) ∈ moves →
      ∀ n, 0 ≤ c.id ∧ c.id + (ocfg n).buffSize < INT_MAX)
    (states : N → State N B P) (hempty : ∀ n, ChunkBuffer.getChunks (states n).cb = [])
    (w : Net N (Player N B P) (Message N S)) (sent : List (Packet N (Message N S)))
    (h : Run.run (Network.step (players cfg ocfg clock)) moves
      (Net.init fun n => ⟨states n, .init⟩) = .ok (w, sent)) :
    (∀ n, ((written (w.states n).output.trace).Pairwise fun a b => a.id < b.id) ∧
      ∀ c ∈ written (w.states n).output.trace, (ocfg n).InRange c.id ∧
        ∃ m g, .act m (.addChunk g) ∈ moves ∧
          g.id = c.id ∧ g.timestamp = c.timestamp ∧ g.data = c.data) ∧
    ∀ p ∈ w.flight, ∀ c transId, p.body = .chunk c transId →
      ∃ output', outputDeliver (ocfg p.dst) (chunkAttributesUpdateReceived c)
        (w.states p.dst).output = .ok output' := by
  set generated : Chunk → Prop := fun g => ∃ m, .act m (.addChunk g) ∈ moves with hdef
  have hgen : ∀ n g, generated g → 0 ≤ g.id ∧ g.id + (ocfg n).buffSize < INT_MAX := by
    intro n g ⟨m, hm⟩
    exact hids m g hm n
  have hallowed : ∀ m ∈ moves, m.Allowed fun _ a => ∀ c, a = .addChunk c → generated c := by
    intro m hm
    cases m with
    | act n a =>
      rintro c rfl
      exact ⟨n, hm⟩
    | deliver | lose => exact trivial
  have hkept := run_localOn (localOn_players cfg ocfg clock hB hgen) hallowed
    (fun n => ⟨by rw [hempty]; simp, .inl rfl⟩) h
  refine ⟨fun n => ?_, ?_⟩
  · obtain ⟨hsorted, hall⟩ := (hkept.states n).output.written (hr n)
    refine ⟨hsorted, ?_⟩
    intro c hc
    obtain ⟨⟨g, ⟨m, hm⟩, hsame⟩, hrange⟩ := hall c hc
    exact ⟨hrange, m, g, hm, hsame⟩
  · intro p hp c transId hbody
    have hbears := hkept.flight p hp
    rw [hbody] at hbears
    have hreceived : Genuine generated (chunkAttributesUpdateReceived c) :=
      Genuine.updateAttributes hbears _
    obtain ⟨output', ho, -⟩ :=
      (hkept.states p.dst).output.deliver (hB p.dst) (hgen p.dst) hreceived
    exact ⟨output', ho⟩

end Runs

/-- Node 0 generates three chunks and pushes them to node 1, which gets the last one before the
second. -/
def pushedAhead : List (Move ℕ (Action ℕ (ListPeers ℕ ListIDSet)) Choices) :=
  [.act 0 (.addChunk ⟨5, 0, [1], []⟩), .act 0 (.addChunk ⟨6, 40000, [2], []⟩),
    .act 0 (.addChunk ⟨7, 80000, [3], []⟩), .act 0 (.sendChunk (some (1, 5)) true),
    .act 0 (.sendChunk (some (1, 6)) true), .act 0 (.sendChunk (some (1, 7)) true),
    .deliver 0 ⟨true, fun _ => true⟩, .deliver 1 ⟨true, fun _ => true⟩,
    .deliver 0 ⟨true, fun _ => true⟩]

theorem played_genuine_pushedAhead :
    ∃ w : Net ℕ (Player ℕ ListBuffer (ListPeers ℕ ListIDSet)) (Message ℕ ListIDSet),
      (w.states 1).output.nextChunk = 8 ∧
        ∀ n, ((written (w.states n).output.trace).Pairwise fun a b => a.id < b.id) ∧
          ∀ c ∈ written (w.states n).output.trace, (⟨4, -1, -1, true⟩ : OutputConfig).InRange c.id ∧
            ∃ m g, .act m (.addChunk g) ∈ pushedAhead ∧
              g.id = c.id ∧ g.timestamp = c.timestamp ∧ g.data = c.data := by
  have hrun : (Run.run (Network.step (players (fun _ => plainConfig) (fun _ => ⟨4, -1, -1, true⟩)
      fun _ => stillClock)) pushedAhead (Net.init fun n => ⟨pair n, .init⟩)).toOption.any (fun r =>
        (r.1.states 1).output.nextChunk = 8) = true := by decide +kernel
  obtain ⟨⟨w, sent⟩, hw, hnext⟩ := eq_ok_of_any hrun
  have hids : ∀ m c, .act m (.addChunk c) ∈ pushedAhead →
      ∀ _ : ℕ, 0 ≤ c.id ∧ c.id + 4 < INT_MAX := by
    intro m c hc _
    simp only [pushedAhead, List.mem_cons, Move.act.injEq, Action.addChunk.injEq, reduceCtorEq,
      and_false, List.not_mem_nil, or_false] at hc
    rcases hc with ⟨-, rfl⟩ | ⟨-, rfl⟩ | ⟨-, rfl⟩ <;> decide
  have h := played_genuine (fun _ => plainConfig) (fun _ => ⟨4, -1, -1, true⟩)
    (fun _ => stillClock) (fun _ => by decide) (fun _ => rfl) pushedAhead
    hids pair (fun _ => rfl) w sent hw
  exact ⟨w, of_decide_eq_true hnext, h.1⟩

end PeerStreamer.Overlay
