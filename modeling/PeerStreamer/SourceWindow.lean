import Mathlib.Data.Int.Interval
import PeerStreamer.NewestWindow
import PeerStreamer.Playback
import PeerStreamer.SourceNode

/-!
# The window of the source

The source numbers its chunks one after the other and stores no chunk of anyone else.  So its buffer
always has the latest chunks of its input without a gap, and whatever it sends is one of the chunks
that it has generated (`source_window`).
-/

/-- Of consecutive numbers the newest ones are the last ones. -/
theorem Newest.Ico (k m : ℕ) (a : Int) :
    Newest k (Finset.Ico a (a + m)) (Finset.Ico (a + m - min k m) (a + m)) where
  subset := Finset.Ico_subset_Ico_left (by omega)
  card := by
    rw [Int.card_Ico, Int.card_Ico]
    omega
  above y hy hnot x hx := by
    rw [Finset.mem_Ico] at hy hnot hx
    omega

namespace PeerStreamer.SourceNode

open Streaming Overlay

variable {N B P S : Type}

/-- The chunks that were generated, in order. -/
def generated (events : List (Event N S)) : List Chunk :=
  events.filterMap fun e => match e with
    | .addChunk c => some c
    | _ => none

theorem generated_append (events more : List (Event N S)) :
    generated (events ++ more) = generated events ++ generated more := List.filterMap_append

theorem generated_node (events : List (Streaming.Event N S)) :
    generated (events.map Event.node) = [] := by
  rw [generated, List.filterMap_map, List.filterMap_eq_nil_iff]
  exact fun _ _ => rfl

/-- The chunkiser returns a positive number when it has a chunk, and then only. -/
def Turn.Chunkises (turn : Turn N P S) : Prop :=
  0 < turn.chunkised.res ↔ turn.chunkised.data ≠ none

/-! ## What leaves the input and the ids alone -/

section Frame

variable [ChunkIDSet S] [ChunkBuffer B] [LawfulChunkBuffer B] [PeerSet P N S]

/-- No chunk is generated and the ids of the buffer stay; what is kept and what is sent is as
genuine as the buffer was. -/
structure Still (s s' : State N B P) (events : List (Event N S)) : Prop where
  input : s'.input = s.input
  ids : ChunkBuffer.ids s'.node.cb = ChunkBuffer.ids s.node.cb
  size : ChunkBuffer.size s'.node.cb = ChunkBuffer.size s.node.cb
  silent : generated events = []
  genuine : ∀ made, (∀ c ∈ ChunkBuffer.getChunks s.node.cb, Genuine made c) →
    (∀ c ∈ ChunkBuffer.getChunks s'.node.cb, Genuine made c) ∧
      ∀ toid c transId sent, .node (.sendChunk toid c transId sent) ∈ events → Genuine made c

variable {cfg : Config} {clock : Clock} {s s' s'' : State N B P} {events more : List (Event N S)}

omit [ChunkIDSet S] [LawfulChunkBuffer B] [PeerSet P N S] in
theorem Still.of_eq (hinput : s'.input = s.input) (hcb : s'.node.cb = s.node.cb) :
    Still s s' ([] : List (Event N S)) where
  input := hinput
  ids := by rw [hcb]
  size := by rw [hcb]
  silent := rfl
  genuine made h := by
    rw [hcb]
    exact ⟨h, by simp⟩

omit [ChunkIDSet S] [LawfulChunkBuffer B] [PeerSet P N S] in
theorem Still.append (h : Still s s' events) (h' : Still s' s'' more) :
    Still s s'' (events ++ more) where
  input := h'.input.trans h.input
  ids := h'.ids.trans h.ids
  size := h'.size.trans h.size
  silent := by rw [generated_append, h.silent, h'.silent, List.append_nil]
  genuine made hcb := by
    obtain ⟨hcb', hsent⟩ := h.genuine made hcb
    obtain ⟨hcb'', hmore⟩ := h'.genuine made hcb'
    refine ⟨hcb'', ?_⟩
    intro toid c transId sent hmem
    rcases List.mem_append.1 hmem with hmem | hmem
    · exact hsent toid c transId sent hmem
    · exact hmore toid c transId sent hmem

omit [ChunkIDSet S] [PeerSet P N S] in
/-- The events of a handler, as the trail of the buffer says. -/
theorem Still.of_trail {node : Streaming.State N B P} {out : List (Streaming.Event N S)}
    (h : Trail s.node.cb out node.cb) : Still s { s with node := node } (out.map .node) where
  input := rfl
  ids := h.ids.1
  size := h.ids.2
  silent := generated_node out
  genuine made hcb := by
    obtain ⟨hend, hsends⟩ := h.forall (G := Genuine made) (fun c hc => hc.updateAttributes _) hcb
    refine ⟨hend, ?_⟩
    intro toid c transId sent hmem
    obtain ⟨e, he, heq⟩ := List.mem_map.1 hmem
    cases heq
    exact hsends toid c transId sent he

omit [ChunkIDSet S] [LawfulChunkBuffer B] [PeerSet P N S] in
/-- The calls themselves change nothing. -/
theorem Still.call (s : State N B P) {e : Event N S} (hsilent : generated [e] = [])
    (hnode : ∀ e', .node e' ≠ e) : Still s s [e] where
  input := rfl
  ids := rfl
  size := rfl
  silent := hsilent
  genuine _ hcb := ⟨hcb, fun _ _ _ _ hmem => absurd (List.mem_singleton.1 hmem) (hnode _)⟩

omit [ChunkIDSet S] [LawfulChunkBuffer B] [PeerSet P N S] in
theorem still_countPeers (pset : P) (s : State N B P) :
    Still s (countPeers (S := S) pset s).1 (countPeers (S := S) pset s).2 := by
  unfold countPeers
  split_ifs <;> exact ⟨rfl, rfl, rfl, rfl, fun _ hcb => ⟨hcb, by simp⟩⟩

theorem still_sendChunks (pushes : List (Option (N × Int) × Bool)) (s : State N B P) :
    Still s { s with node := (sendChunks (S := S) pushes s.node).1 }
      (sendChunks (S := S) pushes s.node).2 := by
  induction pushes generalizing s with
  | nil => exact .of_eq rfl rfl
  | cons push pushes ih =>
    have hcall : Still s s [(.sendChunk : Event N S)] := .call s rfl (by simp)
    have hone := Still.of_trail (trail_sendChunk (S := S) push.1 push.2 s.node)
    have hrest := ih { s with node := (Streaming.sendChunk (S := S) push.1 push.2 s.node).1 }
    exact (hcall.append hone).append hrest

theorem still_checkOffer (cfg : Config) (clock : Clock) (turn : Turn N P S) (tnow : Timeval)
    (s : State N B P) :
    Still s (checkOffer (S := S) cfg clock turn tnow s).1
      (checkOffer (S := S) cfg clock turn tnow s).2 := by
  unfold checkOffer
  split_ifs
  · have hcall : Still s s [(.sendOffer : Event N S)] := .call s rfl (by simp)
    have hoffers :=
      Still.of_trail (trail_sendOffer (S := S) cfg clock turn.skipped turn.selected s.node)
    have hpeers := still_countPeers (S := S) turn.offerPset { s with node :=
      (Streaming.sendOffer (S := S) cfg clock turn.skipped turn.selected s.node).1 }
    have hall := (hcall.append hoffers).append hpeers
    exact ⟨hall.input, hall.ids, hall.size, hall.silent, hall.genuine⟩
  · exact .of_eq rfl rfl

theorem still_handleMessage [DecidableEq N] [LawfulChunkIDSet S] {m : Option (Message N P S)}
    (h : handleMessage cfg clock m s = .ok (s', events)) : Still s s' events := by
  rcases m with _ | m
  · obtain ⟨rfl, rfl⟩ := Prod.mk.inj (Except.ok.inj h)
    exact .of_eq rfl rfl
  cases m with
  | topology pset =>
    obtain ⟨rfl, rfl⟩ := Prod.mk.inj (Except.ok.inj h)
    exact ⟨rfl, rfl, rfl, rfl, fun _ hcb => ⟨hcb, by simp⟩⟩
  | signalling remote msg sent =>
    obtain ⟨⟨node, out⟩, hsig, hret⟩ := bind_eq_ok.1 h
    obtain ⟨rfl, rfl⟩ := Prod.mk.inj (Except.ok.inj hret)
    have hcall : Still s s [(.sigParseData : Event N S)] := .call s rfl (by simp)
    exact hcall.append (.of_trail (trail_sigParseData hsig))
  | _ =>
    obtain ⟨rfl, rfl⟩ := Prod.mk.inj (Except.ok.inj h)
    exact .of_eq rfl rfl

end Frame

/-! ## Runs -/

section Runs

variable [ChunkBuffer B]

/-- What holds between two iterations, when the first chunk is number `first`. -/
structure Windowed (k : ℕ) (first : Int) (s : State N B P) (events : List (Event N S)) : Prop where
  ids : (generated events).map Chunk.id =
    (List.range (generated events).length).map fun i : ℕ => first + i
  next : s.input.id = first + (generated events).length
  window : Window k ((generated events).map Chunk.id) s.node.cb
  held : ∀ c ∈ ChunkBuffer.getChunks s.node.cb, Genuine (· ∈ generated events) c
  sent : ∀ toid c transId sent, .node (.sendChunk toid c transId sent) ∈ events →
    Genuine (· ∈ generated events) c

variable {k : ℕ} {first : Int} {s s' : State N B P} {events more : List (Event N S)}

theorem Windowed.still (h : Windowed k first s events) (hs : Still s s' more) :
    Windowed k first s' (events ++ more) := by
  obtain ⟨hheld, hsent⟩ := hs.genuine _ h.held
  have hgenerated : generated (events ++ more) = generated events := by
    rw [generated_append, hs.silent, List.append_nil]
  refine ⟨?_, ?_, ?_, ?_, ?_⟩ <;> rw [hgenerated]
  · exact h.ids
  · exact hs.input ▸ h.next
  · exact h.window.of_ids hs.ids hs.size
  · exact hheld
  · intro toid c transId sent hmem
    rcases List.mem_append.1 hmem with hmem | hmem
    · exact h.sent toid c transId sent hmem
    · exact hsent toid c transId sent hmem

/-- The next chunk is newer than those of the buffer. -/
theorem Windowed.lt_next (h : Windowed k first s events) {x : Int}
    (hx : x ∈ ChunkBuffer.ids s.node.cb) : x < s.input.id := by
  have hmem := List.mem_toFinset.1 (h.window.newest.subset (List.mem_toFinset.2 hx))
  rw [h.ids] at hmem
  obtain ⟨i, hi, rfl⟩ := List.mem_map.1 hmem
  have hlt := List.mem_range.1 hi
  have hnext := h.next
  omega

/-- The next chunk is stored. -/
theorem Windowed.addChunk [LawfulChunkBuffer B] (h : Windowed k first s events)
    (hfirst : 0 ≤ first) {c : Chunk} (hid : c.id = s.input.id)
    (hcb : s'.node.cb = (ChunkBuffer.addChunk s.node.cb c).2)
    (hnext : s'.input.id = s.input.id + 1) :
    Windowed k first s' (events ++ [.addChunk c]) := by
  have hgenerated : generated (events ++ [.addChunk c]) = generated events ++ [c] :=
    generated_append events [.addChunk c]
  have hlength : (generated events ++ [c]).length = (generated events).length + 1 := by
    rw [List.length_append, List.length_singleton]
  have hc : c.id = first + (generated events).length := hid.trans h.next
  have hold {d : Chunk} (hd : Genuine (· ∈ generated events) d) :
      Genuine (· ∈ generated events ++ [c]) d := by
    obtain ⟨g, hg, hsame⟩ := hd
    exact ⟨g, List.mem_append_left _ hg, hsame⟩
  refine ⟨?_, ?_, ?_, ?_, ?_⟩ <;> rw [hgenerated]
  · rw [hlength, List.map_append, h.ids, List.range_succ, List.map_append, List.map_singleton,
      List.map_singleton, hc]
  · have hn := h.next
    rw [hlength]
    push_cast
    omega
  · rw [hcb, List.map_append, List.map_singleton]
    exact h.window.addChunk (by omega)
  · intro d hd
    rw [hcb] at hd
    rcases ChunkBuffer.mem_addChunk s.node.cb (by omega) hd with ⟨hmem, -⟩ | ⟨rfl, -⟩
    · exact hold (h.held d hmem)
    · exact ⟨d, List.mem_append_right _ (List.mem_singleton_self d), rfl, rfl, rfl⟩
  · intro toid d transId sent hmem
    rcases List.mem_append.1 hmem with hmem | hmem
    · exact hold (h.sent toid d transId sent hmem)
    · simp at hmem

variable [ChunkIDSet S] [LawfulChunkBuffer B] [PeerSet P N S] {cfg : Config} {clock : Clock}
  {verify : List UInt8 → Option Int} {chunks : ℕ} {turn : Turn N P S}

/-- A chunk is stored and then sent. -/
theorem Windowed.handleChunk (chunks : ℕ) (turn : Turn N P S) (h : Windowed k first s events)
    (hfirst : 0 ≤ first) {input : InputGrapes.InputDesc} {c : Option Chunk}
    (hid : ∀ d, c = some d → d.id = s.input.id)
    (hnext : input.id = if c = none then s.input.id else s.input.id + 1) :
    Windowed k first (handleChunk (S := S) chunks turn c { s with input := input }).1
      (events ++ (handleChunk (S := S) chunks turn c { s with input := input }).2) := by
  cases c with
  | none =>
    rw [if_pos rfl] at hnext
    obtain ⟨hids, hn, hwindow, hheld, hsent⟩ := h
    show Windowed k first { s with input := input } (events ++ [])
    rw [List.append_nil]
    exact ⟨hids, hnext.trans hn, hwindow, hheld, hsent⟩
  | some c =>
    rw [if_neg (by simp)] at hnext
    have hadd : Windowed k first
        { s with input := input, node := Streaming.addChunk c s.node } (events ++ [.addChunk c]) :=
      h.addChunk hfirst (hid c rfl) rfl hnext
    have hsends := hadd.still (still_sendChunks (S := S) ((List.range chunks).map turn.push)
      { s with input := input, node := Streaming.addChunk c s.node })
    have hpeers := hsends.still (still_countPeers (S := S) turn.chunkPset _)
    rw [List.append_assoc, List.append_assoc] at hpeers
    exact hpeers

theorem Windowed.handleInput (h : Windowed k first s events) (hfirst : 0 ≤ first)
    (hturn : turn.Chunkises) (hstep : handleInput cfg clock verify chunks turn s = .ok (s', more)) :
    Windowed k first s' (events ++ more) := by
  obtain ⟨c, delay, input, u, out, v, offered, hgenerated, hu, hv, rfl, rfl⟩ :=
    handleInput_ok hstep
  obtain ⟨-, hnext, hnone, hid⟩ := generatedChunk_ok hgenerated
  have hinput : input.id = if c = none then s.input.id else s.input.id + 1 := by
    rw [hnext]
    by_cases hc : c = none
    · rw [if_pos hc, if_neg fun hpos => hturn.1 hpos (hnone.1 hc)]
    · rw [if_neg hc, if_pos (hturn.2 fun hdata => hc (hnone.2 hdata))]
  have htick : Still s (tick s) ([] : List (Event N S)) := .of_eq rfl rfl
  have hcall : Still (tick s) (tick s) [(.inputGet (clock.read s.node.reads) delay : Event N S)] :=
    .call (tick s) rfl (by simp)
  have hchunk := ((h.still htick).still hcall).handleChunk (S := S) chunks turn hfirst hid hinput
  have hu' : SourceNode.handleChunk (S := S) chunks turn c { tick s with input := input } =
    (u, out) := hu
  rw [hu'] at hchunk
  have hoffered := still_checkOffer (S := S) cfg clock turn (clock.read u.node.reads) (tick u)
  rw [hv] at hoffered
  have hend := (hchunk.still ((Still.of_eq rfl rfl : Still u (tick u) []).append hoffered)).still
    (Still.of_eq rfl rfl : Still v (nextTimeout (clock.read u.node.reads) delay v) [])
  simpa using hend

/-- One iteration. -/
theorem Windowed.iteration [DecidableEq N] [LawfulChunkIDSet S] (h : Windowed k first s events)
    (hfirst : 0 ≤ first) (hturn : turn.Chunkises)
    (hstep : iteration cfg clock verify chunks turn s = .ok (s', more)) :
    Windowed k first s' (events ++ more) := by
  have htick : Windowed k first (tick s) events := by
    have hstill := h.still (Still.of_eq rfl rfl : Still s (tick s) [])
    rwa [List.append_nil] at hstill
  unfold SourceNode.iteration at hstep
  split_ifs at hstep
  · exact htick.still (still_handleMessage hstep)
  · exact htick.handleInput hfirst hturn hstep
  · obtain ⟨rfl, rfl⟩ := Prod.mk.inj (Except.ok.inj hstep)
    exact htick.still (.of_eq rfl rfl)

omit [ChunkIDSet S] [PeerSet P N S] in
theorem Windowed.init (cfg : Config) (clock : Clock) (csize : Int) (pset : P)
    (input : InputGrapes.InputDesc) : Windowed cfg.cbSize input.id
      (.init cfg clock csize pset input : State N B P) ([] : List (Event N S)) where
  ids := rfl
  next := by simp [generated, State.init]
  window := .init cfg.cbSize
  held := by
    intro c hc
    rw [State.init, Streaming.State.init, LawfulChunkBuffer.getChunks_init] at hc
    exact absurd hc List.not_mem_nil
  sent := by simp

theorem Windowed.run [DecidableEq N] [LawfulChunkIDSet S] {s₀ : State N B P}
    (hinit : Windowed k first s₀ ([] : List (Event N S))) (hfirst : 0 ≤ first)
    {turns : List (Turn N P S)}
    (hturns : Run.Along (SourceNode.iteration cfg clock verify chunks)
      (fun _ turn => turn.Chunkises) turns s₀)
    (h : sourceLoop cfg clock verify chunks turns s₀ = .ok (s, events)) :
    Windowed k first s events := by
  refine Run.invariant (fun _ s events => Windowed k first s events) hinit ?_ hturns h
  intro pre turn s out s' more hinv hturn hstep
  exact hinv.iteration hfirst hturn hstep

end Runs

/-- The chunks of a source are numbered one after the other from the number with which its input was
opened, and its buffer has the latest of them, as many as it has room for; the buffer has, and the
source sends, nothing but what it has generated. -/
theorem source_window [DecidableEq N] [ChunkIDSet S] [LawfulChunkIDSet S] [ChunkBuffer B]
    [LawfulChunkBuffer B] [PeerSet P N S] (cfg : Config) (clock : Clock)
    (verify : List UInt8 → Option Int) (chunks : ℕ) (csize : Int) (pset : P)
    (input : InputGrapes.InputDesc) (hfirst : 0 ≤ input.id) (turns : List (Turn N P S))
    (hturns : ∀ turn ∈ turns, turn.Chunkises) (s : State N B P) (events : List (Event N S))
    (h : sourceLoop cfg clock verify chunks turns (.init cfg clock csize pset input) =
      .ok (s, events)) :
    ((generated events).map Chunk.id =
        (List.range (generated events).length).map fun i : ℕ => input.id + i) ∧
      (ChunkBuffer.ids s.node.cb).toFinset =
        Finset.Ico (input.id + (generated events).length -
          min cfg.cbSize (generated events).length) (input.id + (generated events).length) ∧
      (∀ c ∈ ChunkBuffer.getChunks s.node.cb, Genuine (· ∈ generated events) c) ∧
      ∀ toid c transId sent, .node (.sendChunk toid c transId sent) ∈ events →
        Genuine (· ∈ generated events) c := by
  have hinit : Windowed cfg.cbSize input.id (.init cfg clock csize pset input : State N B P)
    ([] : List (Event N S)) := .init cfg clock csize pset input
  have hend := hinit.run hfirst (.of_forall fun turn hturn _ => hturns turn hturn) h
  obtain ⟨hids, -, hwindow, hheld, hsent⟩ := hend
  have hadded : ((generated events).map Chunk.id).toFinset =
      Finset.Ico input.id (input.id + (generated events).length) := by
    ext x
    rw [hids, List.mem_toFinset, List.mem_map, Finset.mem_Ico]
    constructor
    · rintro ⟨i, hi, rfl⟩
      have hlt := List.mem_range.1 hi
      omega
    · intro ⟨hge, hlt⟩
      exact ⟨(x - input.id).toNat, List.mem_range.2 (by omega), by omega⟩
  have hnewest := hwindow.newest
  rw [hadded] at hnewest
  exact ⟨hids, hnewest.unique (.Ico cfg.cbSize _ input.id), hheld, hsent⟩

/-- A turn with a chunk, which is sent to peer 1. -/
def chunkTurn : Turn ℕ (ListPeers ℕ ListIDSet) ListIDSet where
  res := 0
  woken := .ofUsec 0
  message := none
  chunkised := ⟨1, 1, some [0], []⟩
  push := fun _ => (some (1, 3), true)
  chunkPset := .empty
  skipped := true
  selected := []
  offerPset := .empty

/-- A source with a buffer of two, whose first chunk is number 3. -/
def twoHeld : State ℕ ListBuffer (ListPeers ℕ ListIDSet) :=
  .init { plainConfig with cbSize := 2 } stillClock 40000 .empty ⟨3, 40000, 0, 0⟩

theorem source_window_three : ∃ s events,
    sourceLoop { plainConfig with cbSize := 2 } stillClock (fun _ => none) 1
      (List.replicate 3 chunkTurn) twoHeld = .ok (s, events) ∧
    (ChunkBuffer.ids s.node.cb).toFinset = Finset.Ico 4 6 := by
  have hrun : (sourceLoop { plainConfig with cbSize := 2 } stillClock (fun _ => none) 1
      (List.replicate 3 chunkTurn) twoHeld).toOption.any
      (fun r => (generated r.2).length = 3) = true := by
    decide +kernel
  obtain ⟨⟨s, events⟩, hr, hlength⟩ := eq_ok_of_any hrun
  have hturns : ∀ turn ∈ List.replicate 3 chunkTurn, turn.Chunkises := by
    intro turn hturn
    rw [List.eq_of_mem_replicate hturn]
    exact iff_of_true (by decide) (by decide)
  have hwindow := source_window (B := ListBuffer) (P := ListPeers ℕ ListIDSet)
    { plainConfig with cbSize := 2 } stillClock (fun _ => none) 1 40000 .empty ⟨3, 40000, 0, 0⟩
    (by decide) (List.replicate 3 chunkTurn) hturns s events hr
  rw [of_decide_eq_true hlength] at hwindow
  exact ⟨s, events, hr, hwindow.2.1⟩

end PeerStreamer.SourceNode
