import PeerStreamer.Advertised
import PeerStreamer.ChunkTrail
import PeerStreamer.Lib.Newest
import PeerStreamer.Overlay
import PeerStreamer.Requests

/-!
# The window of a node

A node's chunk buffer has the `cb_size` newest chunks of all that were ever added to it: by
messages, in whatever order and however often they arrive, and by the source.  It is what the node
tells its peers: every acknowledgement has the ids of the window at that time (`advertises_newest`).
-/

namespace PeerStreamer.Streaming

variable {N B P S : Type}

/-- The ids of the chunks that were added, in order. -/
def addedIds (inputs : List (Input N P S)) : List Int :=
  inputs.filterMap fun
    | .chunk _ (some (c, _)) _ => some c.id
    | .addChunk c => some c.id
    | _ => none

theorem addedIds_append (is js : List (Input N P S)) :
    addedIds (is ++ js) = addedIds is ++ addedIds js := List.filterMap_append

section Buffer

variable [ChunkBuffer B]

/-- The buffer has the newest of the ids. -/
structure Window (k : ℕ) (added : List Int) (cb : B) : Prop where
  size : ChunkBuffer.size cb = k
  newest : Newest k added.toFinset (ChunkBuffer.ids cb).toFinset

variable [LawfulChunkBuffer B] {k : ℕ} {added : List Int} {cb cb' : B} {c : Chunk}

theorem card_ids (cb : B) :
    (ChunkBuffer.ids cb).toFinset.card = (ChunkBuffer.getChunks cb).length :=
  (List.toFinset_card_of_nodup (LawfulChunkBuffer.nodup_ids cb)).trans (ChunkBuffer.length_ids cb)

theorem Window.init (k : ℕ) : Window k [] (ChunkBuffer.init k : B) where
  size := LawfulChunkBuffer.size_init k
  newest := by
    rw [ChunkBuffer.ids, LawfulChunkBuffer.getChunks_init]
    exact .empty k

omit [LawfulChunkBuffer B] in
theorem Window.of_ids (h : Window k added cb) (hids : ChunkBuffer.ids cb' = ChunkBuffer.ids cb)
    (hsize : ChunkBuffer.size cb' = ChunkBuffer.size cb) : Window k added cb' :=
  ⟨hsize.trans h.size, hids ▸ h.newest⟩

theorem Window.trail (h : Window k added cb) {events : List (Event N S)}
    (htrail : Trail cb events cb') : Window k added cb' :=
  h.of_ids htrail.ids.1 htrail.ids.2

/-- `cb_add_chunk` keeps the newest ids. -/
theorem Window.addChunk (h : Window k added cb) (hc : 0 ≤ c.id) :
    Window k (added ++ [c.id]) (ChunkBuffer.addChunk cb c).2 := by
  refine ⟨(LawfulChunkBuffer.size_addChunk cb c).trans h.size, ?_⟩
  have hadded : (added ++ [c.id]).toFinset = insert c.id added.toFinset := by
    rw [List.toFinset_append, Finset.union_comm]
    rfl
  have hcard := (card_ids cb).trans_le (LawfulChunkBuffer.length_le_size cb)
  have hsize := h.size
  rw [hadded]
  rcases ChunkBuffer.ids_addChunk cb hc with
    ⟨hids, hheld⟩ | ⟨hperm, hroom⟩ | ⟨m, hm, hmin, hlt, hfull, hperm⟩
  · rw [hids]
    rcases hheld with hmem | ⟨hfull, habove⟩
    · exact h.newest.insert_mem (List.mem_toFinset.2 hmem)
    · refine h.newest.insert_below ((card_ids cb).trans (hfull.trans hsize)) ?_
      intro y hy
      exact habove y (List.mem_toFinset.1 hy)
  · have hnew : c.id ∉ ChunkBuffer.ids cb :=
      (List.nodup_cons.1 (hperm.nodup_iff.1 (LawfulChunkBuffer.nodup_ids _))).1
    rw [List.toFinset_eq_of_perm _ _ hperm, List.toFinset_cons]
    refine h.newest.insert_room ?_ fun hmem => hnew (List.mem_toFinset.1 hmem)
    rw [card_ids]
    omega
  · have hnew : c.id ∉ ChunkBuffer.ids cb := by
      intro hmem
      have hnot := (List.nodup_cons.1 (hperm.nodup_iff.1 (LawfulChunkBuffer.nodup_ids _))).1
      exact hnot ((LawfulChunkBuffer.nodup_ids cb).mem_erase_iff.2 ⟨hlt.ne', hmem⟩)
    have herase : ((ChunkBuffer.ids cb).erase m).toFinset =
        (ChunkBuffer.ids cb).toFinset.erase m := by
      ext y
      rw [List.mem_toFinset, Finset.mem_erase, List.mem_toFinset,
        (LawfulChunkBuffer.nodup_ids cb).mem_erase_iff]
    rw [List.toFinset_eq_of_perm _ _ hperm, List.toFinset_cons, herase]
    refine h.newest.evict ((card_ids cb).trans (hfull.trans hsize)) (List.mem_toFinset.2 hm) ?_ hlt
      fun hmem => hnew (List.mem_toFinset.1 hmem)
    intro y hy
    exact hmin y (List.mem_toFinset.1 hy)

end Buffer

/-! ## One reaction -/

section Step

variable [ChunkIDSet S] [ChunkBuffer B] [PeerSet P N S] {cfg : Config} {clock : Clock} {k : ℕ}
  {added : List Int} {s s' : State N B P} {events : List (Event N S)}

/-- The window of the state, which is also what is acknowledged in answer to a chunk. -/
structure Advanced (k : ℕ) (added : List Int) (input : Input N P S) (s : State N B P)
    (events : List (Event N S)) : Prop where
  window : Window k added s.cb
  acks : ∀ toid bmap transId, .sendAck toid bmap transId ∈ events →
    (∃ c, input = .chunk toid (some (c, transId)) false) ∧
      Newest k added.toFinset (ChunkIDSet.ids bmap).toFinset

omit [ChunkIDSet S] in
/-- An acknowledgement is one of the messages. -/
theorem ack_mem_messages {toid : N} {bmap : S} {transId : UInt16}
    (h : .sendAck toid bmap transId ∈ events) :
    (toid, .signal (.ack bmap transId)) ∈ Overlay.messages events :=
  List.mem_filterMap.2 ⟨_, h, rfl⟩

variable [LawfulChunkBuffer B]

omit [PeerSet P N S] in
/-- Functions that add no chunk and acknowledge none. -/
theorem Advanced.of_trail (h : Window k added s.cb) (htrail : Trail s.cb events s'.cb)
    (hacks : ∀ toid bmap transId, .sendAck toid bmap transId ∉ events) (input : Input N P S) :
    Advanced k (added ++ []) input s' events := by
  rw [List.append_nil]
  exact ⟨h.trail htrail, fun toid bmap transId hmem => absurd hmem (hacks toid bmap transId)⟩

variable [LawfulChunkIDSet S]

/-- A chunk that arrives is added first and acknowledged then. -/
theorem advanced_receivedChunk (h : Window k added s.cb) (fromid : N) {c : Chunk} (hc : 0 ≤ c.id)
    (transId : UInt16) (ackSkipped : Bool) :
    Advanced k (added ++ [c.id]) (.chunk fromid (some (c, transId)) ackSkipped : Input N P S)
      (receivedChunk clock fromid (some (c, transId)) ackSkipped s).1
      (receivedChunk clock fromid (some (c, transId)) ackSkipped s).2 := by
  have hid := chunkAttributesUpdateReceived_id c
  have hwindow : Window k (added ++ [c.id])
      (receivedChunk (S := S) clock fromid (some (c, transId)) ackSkipped s).1.cb := by
    have hadd := h.addChunk (c := chunkAttributesUpdateReceived c) (hid ▸ hc)
    rw [hid] at hadd
    unfold receivedChunk regSender
    dsimp only
    split <;> exact hadd
  refine ⟨hwindow, ?_⟩
  intro toid bmap transId' hmem
  cases ackSkipped with
  | true => simp [receivedChunk] at hmem
  | false =>
    obtain ⟨rfl, rfl, rfl⟩ : toid = fromid ∧ bmap = cbToBmap
        (receivedChunk (S := S) clock fromid (some (c, transId)) false s).1.cb ∧
          transId' = transId := by
      simpa [receivedChunk] using hmem
    refine ⟨⟨c, rfl⟩, ?_⟩
    have hids := List.toFinset_eq_of_perm _ _ (ids_cbToBmap (S := S)
      (receivedChunk (S := S) clock toid (some (c, transId')) false s).1.cb)
    rw [hids]
    exact hwindow.newest

variable [DecidableEq N]

/-- The handlers of signalling messages acknowledge nothing. -/
theorem sigParseData_not_ack {fromid : N} {msg : Option (Signal N S)} {sent : ℕ → Bool}
    (h : sigParseData cfg clock fromid msg sent s = .ok (s', events)) (toid : N) (bmap : S)
    (transId : UInt16) : .sendAck toid bmap transId ∉ events := by
  intro hmem
  rcases msg with _ | sig
  · obtain ⟨-, rfl⟩ := Prod.mk.inj (Except.ok.inj h)
    exact absurd hmem List.not_mem_nil
  have hhandle : Overlay.handle cfg clock ⟨false, sent⟩ fromid (.signal sig) s =
      .ok (Overlay.post (s', events)) := by
    rw [Overlay.handle, h]
    rfl
  have hreply := Overlay.reply_handle hhandle
  have hack := ack_mem_messages hmem
  cases sig with
  | offer cset maxDeliver transId' =>
    obtain ⟨acc, hone, -⟩ := hreply
    rw [show Overlay.messages events = [_] from hone, List.mem_singleton] at hack
    simp at hack
  | accept cset transId' =>
    obtain ⟨c, hone, -⟩ := hreply.2 _ hack
    simp at hone
  | _ =>
    rw [show Overlay.messages events = [] from hreply] at hack
    exact absurd hack List.not_mem_nil

/-- Every reaction moves the window on. -/
theorem advanced_step (h : Window k added s.cb) {input : Input N P S} (hin : input.NonnegIds)
    (hstep : step cfg clock input s = .ok (s', events)) :
    Advanced k (added ++ addedIds [input]) input s' events := by
  cases input with
  | chunk fromid msg ackSkipped =>
    obtain ⟨rfl, rfl⟩ := Prod.mk.inj (Except.ok.inj hstep)
    rcases msg with _ | ⟨c, transId⟩
    · exact .of_trail h (.nil _) (by simp) _
    · exact advanced_receivedChunk h fromid hin transId ackSkipped
  | signal fromid msg sent =>
    exact .of_trail h (trail_sigParseData hstep) (sigParseData_not_ack hstep) _
  | sendChunk pair sent =>
    obtain ⟨rfl, rfl⟩ := Prod.mk.inj (Except.ok.inj hstep)
    refine .of_trail h (trail_sendChunk pair sent s) ?_ _
    intro toid bmap transId hmem
    exact Overlay.own_sendChunk pair sent s _ (ack_mem_messages hmem)
  | sendOffer skipped selected =>
    obtain ⟨rfl, rfl⟩ := Prod.mk.inj (Except.ok.inj hstep)
    refine .of_trail h (trail_sendOffer cfg clock skipped selected s) ?_ _
    intro toid bmap transId hmem
    have hown : ∀ o ∈ (Overlay.act (S := S) cfg clock toid (.sendOffer skipped selected) s).2,
        Overlay.Own o.2 := Overlay.own_act toid (.sendOffer skipped selected) s
    exact hown _ (ack_mem_messages hmem)
  | addChunk c =>
    obtain ⟨rfl, rfl⟩ := Prod.mk.inj (Except.ok.inj hstep)
    exact ⟨h.addChunk hin, by simp⟩
  | updatePeers pset =>
    obtain ⟨rfl, rfl⟩ := Prod.mk.inj (Except.ok.inj hstep)
    have htrail : Trail s.cb ([] : List (Event N S)) { s with pset := pset }.cb := .nil s.cb
    exact .of_trail h htrail (by simp) _

end Step

/-! ## Runs -/

section Runs

variable [DecidableEq N] [ChunkIDSet S] [LawfulChunkIDSet S] [PeerSet P N S] [ChunkBuffer B]
  [LawfulChunkBuffer B]

/-- Each acknowledgement has the newest of the ids that were added until then, the acknowledged
chunk included. -/
def AcksNewest (k : ℕ) (inputs : List (Input N P S)) (events : List (Event N S)) : Prop :=
  ∀ toid bmap transId, .sendAck toid bmap transId ∈ events → ∃ pre c,
    pre ++ [.chunk toid (some (c, transId)) false] <+: inputs ∧
    Newest k (addedIds (pre ++ [.chunk toid (some (c, transId)) false])).toFinset
      (ChunkIDSet.ids bmap).toFinset

omit [DecidableEq N] [LawfulChunkIDSet S] [PeerSet P N S] [LawfulChunkBuffer B] in
theorem AcksNewest.append {k : ℕ} {inputs : List (Input N P S)} {input : Input N P S}
    {s : State N B P} {events more : List (Event N S)} (h : AcksNewest k inputs events)
    (hadv : Advanced k (addedIds (inputs ++ [input])) input s more) :
    AcksNewest k (inputs ++ [input]) (events ++ more) := by
  intro toid bmap transId hmem
  rcases List.mem_append.1 hmem with hmem | hmem
  · obtain ⟨pre, c, hpre, hnewest⟩ := h toid bmap transId hmem
    exact ⟨pre, c, hpre.trans (List.prefix_append ..), hnewest⟩
  · obtain ⟨⟨c, rfl⟩, hnewest⟩ := hadv.acks toid bmap transId hmem
    exact ⟨inputs, c, List.prefix_refl _, hnewest⟩

/-- In every run the buffer has the `cb_size` newest of the ids that were added, and so does each
buffer map that is sent as an acknowledgement. -/
theorem advertises_newest (cfg : Config) (clock : Clock) (pset : P) (period : Timeval)
    (inputs : List (Input N P S)) (hin : ∀ i ∈ inputs, i.NonnegIds) (s : State N B P)
    (events : List (Event N S))
    (h : Run.run (step cfg clock) inputs (.init cfg pset period) = .ok (s, events)) :
    Newest cfg.cbSize (addedIds inputs).toFinset (ChunkBuffer.ids s.cb).toFinset ∧
      AcksNewest cfg.cbSize inputs events := by
  have hids : Run.Along (step cfg clock) (fun _ i => i.NonnegIds) inputs
      (.init cfg pset period : State N B P) := .of_forall fun i hi _ => hin i hi
  have hinit : Window cfg.cbSize (addedIds ([] : List (Input N P S)))
      (State.init cfg pset period : State N B P).cb := .init cfg.cbSize
  have hinv : Window cfg.cbSize (addedIds inputs) s.cb ∧ AcksNewest cfg.cbSize inputs events := by
    refine Run.invariant (fun is s events => Window cfg.cbSize (addedIds is) s.cb ∧
      AcksNewest cfg.cbSize is events) ⟨hinit, by simp [AcksNewest]⟩ ?_ hids h
    intro is input s out s' more ⟨hwindow, hacks⟩ hi hstep
    have hadv := advanced_step hwindow hi hstep
    rw [← addedIds_append] at hadv
    exact ⟨hadv.window, hacks.append hadv⟩
  exact ⟨hinv.1.newest, hinv.2⟩

end Runs

/-- Chunks that come out of order, one of them twice, in a buffer of two. -/
def outOfOrder : List (Input ℕ (ListPeers ℕ ListIDSet) ListIDSet) :=
  [.chunk 1 (some (⟨5, 0, [1], []⟩, 0)) false, .chunk 1 (some (⟨3, 0, [1], []⟩, 0)) false,
    .chunk 2 (some (⟨7, 0, [1], []⟩, 0)) false, .chunk 2 (some (⟨3, 0, [1], []⟩, 0)) false]

theorem advertises_newest_outOfOrder : ∃ s events,
    Run.run (step { plainConfig with cbSize := 2 } stillClock) outOfOrder
      (State.init { plainConfig with cbSize := 2 } (.empty : ListPeers ℕ ListIDSet)
        (.ofUsec 500000)) = .ok (s, events) ∧
    Newest 2 [5, 3, 7, 3].toFinset (ChunkBuffer.ids (s.cb : ListBuffer)).toFinset ∧
    AcksNewest 2 outOfOrder events := by
  obtain ⟨s, events, hrun⟩ := run_total (B := ListBuffer) { plainConfig with cbSize := 2 }
    stillClock outOfOrder (by simp [outOfOrder, Input.IsAck])
    (State.init { plainConfig with cbSize := 2 } (.empty : ListPeers ℕ ListIDSet) (.ofUsec 500000))
  have hnewest := advertises_newest (B := ListBuffer) (P := ListPeers ℕ ListIDSet)
    { plainConfig with cbSize := 2 } stillClock .empty (.ofUsec 500000) outOfOrder
    (by simp [outOfOrder, Input.NonnegIds]) s events hrun
  exact ⟨s, events, hrun, hnewest⟩

end PeerStreamer.Streaming
