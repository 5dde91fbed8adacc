import PeerStreamer.StreamingProof

/-!
# What happens to the chunk buffer

Apart from the chunks that are added to it, a node's buffer changes only when one of its chunks is
sent.  `Trail` says how the events of a function lead from one buffer to the next; what holds of the
chunks of the buffer, or of their ids, is followed along it.
-/

namespace PeerStreamer.Streaming

variable {N B P S : Type}

/-- The events that are not about the contents of a chunk. -/
def Event.Silent : Event N S → Prop
  | .locked .. | .offerChunks .. | .acceptChunks .. | .sendAck .. => True
  | .outputDeliver _ | .sendChunk .. => False

/-- The events lead from one buffer to the other: each chunk that is sent was there. -/
inductive Trail [ChunkBuffer B] : B → List (Event N S) → B → Prop where
  | nil (cb : B) : Trail cb [] cb
  | silent {cb cb' : B} {e : Event N S} {es : List (Event N S)} (he : e.Silent)
    (rest : Trail cb es cb') : Trail cb (e :: es) cb'
  | send {cb cb' : B} {x : Int} {c : Chunk} {es : List (Event N S)}
    (hc : ChunkBuffer.getChunk cb x = some c) (toid : N) (transId : UInt16) (sent : Bool)
    (rest : Trail (ChunkBuffer.update cb c.id chunkAttributesUpdateSending) es cb') :
    Trail cb (.sendChunk toid (chunkAttributesUpdateSending c) transId sent :: es) cb'

section Rules

variable [ChunkBuffer B] {cb cb' cb'' : B} {events more : List (Event N S)}

theorem Trail.append (h : Trail cb events cb') (h' : Trail cb' more cb'') :
    Trail cb (events ++ more) cb'' := by
  induction h with
  | nil cb => exact h'
  | silent he _ ih => exact .silent he (ih h')
  | send hc toid transId sent _ ih => exact .send hc toid transId sent (ih h')

theorem Trail.of_silent (cb : B) (h : ∀ e ∈ events, e.Silent) : Trail cb events cb := by
  induction events with
  | nil => exact .nil cb
  | cons e events ih =>
    exact .silent (h e (List.mem_cons_self ..)) (ih fun e he => h e (List.mem_cons_of_mem _ he))

/-- A property of chunks that a send keeps holds along the trail. -/
theorem Trail.forall [LawfulChunkBuffer B] {G : Chunk → Prop}
    (hG : ∀ c, G c → G (chunkAttributesUpdateSending c)) (h : Trail cb events cb')
    (hcb : ∀ c ∈ ChunkBuffer.getChunks cb, G c) :
    (∀ c ∈ ChunkBuffer.getChunks cb', G c) ∧
      ∀ toid c transId sent, .sendChunk toid c transId sent ∈ events → G c := by
  induction h with
  | nil cb => exact ⟨hcb, by simp⟩
  | silent he _ ih =>
    obtain ⟨hend, hsends⟩ := ih hcb
    refine ⟨hend, ?_⟩
    intro toid c transId sent hmem
    rcases List.mem_cons.1 hmem with rfl | hmem
    · exact absurd he id
    · exact hsends toid c transId sent hmem
  | @send cb cb' x c es hc toid transId sent _ ih =>
    have hGc := hG c (hcb c (ChunkBuffer.getChunk_some hc).2)
    obtain ⟨hend, hsends⟩ := ih fun d hd => by
      rw [LawfulChunkBuffer.getChunks_update cb c.id _ chunkAttributesUpdateSending_id] at hd
      obtain ⟨e, he, rfl⟩ := List.mem_map.1 hd
      split_ifs
      · exact hG e (hcb e he)
      · exact hcb e he
    refine ⟨hend, ?_⟩
    intro toid' d transId' sent' hmem
    rcases List.mem_cons.1 hmem with heq | hmem
    · cases heq
      exact hGc
    · exact hsends toid' d transId' sent' hmem

/-- Along a trail the ids of the buffer stay. -/
theorem Trail.ids [LawfulChunkBuffer B] (h : Trail cb events cb') :
    ChunkBuffer.ids cb' = ChunkBuffer.ids cb ∧ ChunkBuffer.size cb' = ChunkBuffer.size cb := by
  induction h with
  | nil cb => exact ⟨rfl, rfl⟩
  | silent _ _ ih => exact ih
  | @send cb cb' x c es _ toid transId sent _ ih =>
    exact ⟨ih.1.trans (ChunkBuffer.ids_update cb c.id chunkAttributesUpdateSending_id),
      ih.2.trans (LawfulChunkBuffer.size_update cb c.id _)⟩

/-- Nothing is played on the way. -/
theorem Trail.not_outputDeliver (h : Trail cb events cb') (c : Chunk) :
    .outputDeliver c ∉ events := by
  induction h with
  | nil cb => exact List.not_mem_nil
  | silent he _ ih =>
    intro hmem
    rcases List.mem_cons.1 hmem with rfl | hmem
    · exact absurd he id
    · exact ih hmem
  | send _ toid transId sent _ ih =>
    intro hmem
    rcases List.mem_cons.1 hmem with heq | hmem
    · cases heq
    · exact ih hmem

end Rules

/-! ## The functions -/

section Functions

variable [ChunkIDSet S] [ChunkBuffer B] [PeerSet P N S] {s s' : State N B P}
  {events : List (Event N S)}

omit [ChunkIDSet S] [ChunkBuffer B] in
@[simp] theorem updatePeer_cb (clock : Clock) (n : N) (f : Timeval → Peer N S → Peer N S)
    (s : State N B P) : (updatePeer clock n f s).cb = s.cb := by
  unfold updatePeer
  split <;> rfl

theorem trail_transmit (toid : N) (transId : UInt16) (sent : Bool) (s : State N B P) {x : Int}
    {c : Chunk} (hc : ChunkBuffer.getChunk s.cb x = some c) :
    Trail s.cb (transmit (S := S) toid c transId sent s).2
      (transmit (S := S) toid c transId sent s).1.cb := by
  cases sent
  · exact .send hc toid transId false (.nil _)
  · exact .send hc toid transId true (.nil _)

theorem trail_sendAcceptedChunks (cfg : Config) (clock : Clock) (toid : N) (csetAcc : S)
    (maxDeliver : Int) (transId : UInt16) (sent : ℕ → Bool) (s : State N B P) :
    Trail s.cb (sendAcceptedChunks cfg clock toid csetAcc maxDeliver transId sent s).2
      (sendAcceptedChunks cfg clock toid csetAcc maxDeliver transId sent s).1.cb := by
  refine sendAcceptedLoop_invariant (I := fun a => Trail s.cb a.events a.s.cb)
    (fun chunkid sent a h => ?_) csetAcc maxDeliver sent _ (.nil s.cb)
  obtain ⟨n, -, hone | ⟨c, d, hc, -, hone⟩⟩ :=
    sendAcceptedOne_cases cfg clock toid transId chunkid sent a
  · rw [hone]
    exact h
  · rw [hone]
    exact h.append (trail_transmit toid transId sent { a.s with reads := n } hc)

theorem trail_sendChunk (pair : Option (N × Int)) (sent : Bool) (s : State N B P) :
    Trail s.cb (sendChunk (S := S) pair sent s).2 (sendChunk (S := S) pair sent s).1.cb := by
  rcases sendChunk_cases (S := S) pair sent s with h | ⟨toid, cid, c, hc, h⟩
  · rw [h]
    exact .nil s.cb
  · rw [h]
    exact trail_transmit toid 0 sent s hc

omit [PeerSet P N S] in
theorem trail_offerLoop (cfg : Config) (clock : Clock) (ps : List (OfferPeer N))
    (s : State N B P) :
    Trail s.cb (offerLoop (S := S) cfg clock ps s).2
      (offerLoop (S := S) cfg clock ps s).1.cb := by
  induction ps generalizing s with
  | nil => exact .nil s.cb
  | cons p ps ih => exact .silent trivial (ih (offerOne (S := S) cfg clock p s).1)

theorem trail_sendOffer (cfg : Config) (clock : Clock) (skipped : Bool)
    (selected : List (OfferPeer N)) (s : State N B P) :
    Trail s.cb (sendOffer (S := S) cfg clock skipped selected s).2
      (sendOffer (S := S) cfg clock skipped selected s).1.cb := by
  unfold sendOffer
  split_ifs
  · exact .nil s.cb
  · exact trail_offerLoop cfg clock selected s

variable [LawfulChunkIDSet S]

theorem trail_offerReceived (cfg : Config) (clock : Clock) (fromid : N) (cset : S)
    (maxDeliver : Int) (transId : UInt16) (s : State N B P) :
    Trail s.cb (offerReceived cfg clock fromid cset maxDeliver transId s).2
      (offerReceived cfg clock fromid cset maxDeliver transId s).1.cb := by
  have hspec := getChunksToAccept_spec cfg clock fromid cset maxDeliver
    (updatePeer clock fromid (resetBmap cset) s)
  have hcb : (offerReceived cfg clock fromid cset maxDeliver transId s).1.cb = s.cb :=
    hspec.cb.trans (updatePeer_cb ..)
  rw [hcb]
  apply Trail.of_silent
  intro e he
  rcases List.mem_append.1 he with he | he
  · obtain ⟨x, t, rfl⟩ := hspec.locked e he
    exact trivial
  · rw [List.mem_singleton.1 he]
    exact trivial

/-- The handlers of signalling messages. -/
theorem trail_sigParseData [DecidableEq N] {cfg : Config} {clock : Clock} {fromid : N}
    {msg : Option (Signal N S)} {sent : ℕ → Bool}
    (h : sigParseData cfg clock fromid msg sent s = .ok (s', events)) :
    Trail s.cb events s'.cb := by
  rcases msg with _ | msg
  · obtain ⟨rfl, rfl⟩ := Prod.mk.inj (Except.ok.inj h)
    exact .nil s.cb
  cases msg with
  | bufferMap ownerid cset cbSize transId =>
    obtain ⟨rfl, rfl⟩ := Prod.mk.inj (Except.ok.inj h)
    rw [updatePeer_cb]
    exact .nil s.cb
  | offer cset maxDeliver transId =>
    obtain ⟨rfl, rfl⟩ := Prod.mk.inj (Except.ok.inj h)
    exact trail_offerReceived cfg clock fromid cset maxDeliver transId s
  | accept cset transId =>
    obtain ⟨rfl, rfl⟩ := Prod.mk.inj (Except.ok.inj h)
    have hsend := trail_sendAcceptedChunks cfg clock fromid cset (ChunkIDSet.size cset) transId sent
      { updatePeer clock fromid (fun now p => { p with bmapTimestamp := now }) s with
        rate := RateControl.rcRegAccept cfg.rate transId (ChunkIDSet.size cset)
          (updatePeer clock fromid (fun now p => { p with bmapTimestamp := now }) s).rate }
    rwa [show (updatePeer clock fromid (fun now p => { p with bmapTimestamp := now }) s).cb = s.cb
      from updatePeer_cb ..] at hsend
  | ack cset transId =>
    obtain ⟨t, r, n, -, rfl, rfl⟩ := ackReceived_ok h
    rw [updatePeer_cb]
    exact .nil s.cb
  | other =>
    obtain ⟨rfl, rfl⟩ := Prod.mk.inj (Except.ok.inj h)
    exact .nil s.cb

end Functions

end PeerStreamer.Streaming
