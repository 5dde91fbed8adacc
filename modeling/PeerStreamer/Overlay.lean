import PeerStreamer.Lib.Network
import PeerStreamer.StreamingProof

/-!
# Nodes that exchange chunks

Any number of nodes run the streaming and signalling code and send each other chunks, offers,
accepts, acknowledgements and buffer maps.  A node bounds the chunks it sends by the size of the
accept it received, so that an offer is answered by no more chunks than it allows
(`chunks_answerOffer`) rests on what both ends do: `Own` says what a node sends by itself and
`Reply` what it sends when it handles a message.
-/

namespace PeerStreamer.Overlay

open Streaming

/-- What nodes send each other. -/
inductive Message (N S : Type) where
  | chunk (c : Chunk) (transId : UInt16)
  | signal (sig : Signal N S)
  deriving DecidableEq, Repr

/-- What a node does on its own. -/
inductive Action (N P : Type) where
  | sendChunk (pair : Option (N × Int)) (sent : Bool)
  | sendOffer (skipped : Bool) (selected : List (OfferPeer N))
  | addChunk (c : Chunk)
  | updatePeers (pset : P)
  | sendBmap (toid : N)

/-- The answers of the code outside the repository while a message is handled. -/
structure Choices where
  ackSkipped : Bool
  sent : ℕ → Bool

variable {N B P S : Type}

/-- The message of an event; a chunk whose sending fails is not sent. -/
def messageOf : Event N S → Option (N × Message N S)
  | .locked _ _ => none
  | .outputDeliver _ => none
  | .sendChunk toid c transId sent => if sent then some (toid, .chunk c transId) else none
  | .offerChunks toid cset maxDeliver transId =>
    some (toid, .signal (.offer cset maxDeliver transId))
  | .acceptChunks toid cset transId => some (toid, .signal (.accept cset transId))
  | .sendAck toid bmap transId => some (toid, .signal (.ack bmap transId))

def messages (events : List (Event N S)) : List (N × Message N S) := events.filterMap messageOf

/-- The messages of the events a function causes. -/
def post (r : State N B P × List (Event N S)) : State N B P × List (N × Message N S) :=
  (r.1, messages r.2)

section Node

variable [ChunkIDSet S] [ChunkBuffer B]

/-- `send_bmap`; a source says that it has no room. -/
def sendBmap (cfg : Config) (self toid : N) (s : State N B P) : N × Message N S :=
  (toid, .signal (.bufferMap self (cbToBmap s.cb) (if cfg.source then 0 else cfg.cbSize) 0))

variable [DecidableEq N] [PeerSet P N S]

def act (cfg : Config) (clock : Clock) (self : N) (a : Action N P) (s : State N B P) :
    State N B P × List (N × Message N S) :=
  match a with
  | .sendChunk pair sent => post (sendChunk pair sent s)
  | .sendOffer skipped selected => post (sendOffer cfg clock skipped selected s)
  | .addChunk c => (addChunk c s, [])
  | .updatePeers pset => ({ s with pset := pset }, [])
  | .sendBmap toid => (s, [sendBmap cfg self toid s])

def handle (cfg : Config) (clock : Clock) (b : Choices) (src : N) (m : Message N S)
    (s : State N B P) : Except Fault (State N B P × List (N × Message N S)) :=
  match m with
  | .chunk c transId => .ok (post (receivedChunk clock src (some (c, transId)) b.ackSkipped s))
  | .signal sig => (sigParseData cfg clock src (some sig) b.sent s).map post

/-- Every node has its own configuration and its own clock. -/
def nodes (cfg : N → Config) (clock : N → Clock) : Network.System N (State N B P) (Action N P)
    Choices (Message N S) Fault where
  act n a s := .ok (act (cfg n) (clock n) n a s)
  handle n b src m s := handle (cfg n) (clock n) b src m s

theorem handle_signal_ok {cfg : Config} {clock : Clock} {b : Choices} {src : N} {sig : Signal N S}
    {s s' : State N B P} {outs : List (N × Message N S)}
    (h : handle cfg clock b src (.signal sig) s = .ok (s', outs)) :
    ∃ events, sigParseData cfg clock src (some sig) b.sent s = .ok (s', events) ∧
      outs = messages events := by
  rcases hr : sigParseData cfg clock src (some sig) b.sent s with e | ⟨s₁, events⟩
  · simp [handle, hr, Except.map] at h
  · simp only [handle, hr, Except.map] at h
    obtain ⟨rfl, rfl⟩ := Prod.mk.inj (Except.ok.inj h)
    exact ⟨events, rfl, rfl⟩

end Node

/-! ## What a node sends -/

/-- What a node sends on its own: chunks only as pushes, and offers of at least one chunk in a
transaction. -/
def Own : Message N S → Prop
  | .chunk _ transId => transId = 0
  | .signal (.offer _ maxDeliver transId) => 1 ≤ maxDeliver ∧ transId ≠ 0
  | .signal (.bufferMap ..) => True
  | .signal _ => False

/-- What a node sends when it handles a message from `src`. -/
def Reply [ChunkIDSet S] (src : N) : Message N S → List (N × Message N S) → Prop
  | .signal (.offer cset maxDeliver transId), outs =>
    ∃ acc, outs = [(src, .signal (.accept acc transId))] ∧
      (∀ x ∈ ChunkIDSet.ids acc, x ∈ ChunkIDSet.ids cset) ∧
      (ChunkIDSet.size acc : Int) ≤ max maxDeliver 0
  | .signal (.accept cset transId), outs =>
    outs.length ≤ ChunkIDSet.size cset ∧
      ∀ o ∈ outs, ∃ c, o = (src, .chunk c transId) ∧ c.id ∈ ChunkIDSet.ids cset
  | .chunk _ transId, outs => ∀ o ∈ outs, ∃ bmap, o = (src, .signal (.ack bmap transId))
  | .signal _, outs => outs = []

/-- The members of a reply. -/
theorem Reply.mem [ChunkIDSet S] {src : N} {m : Message N S} {outs : List (N × Message N S)}
    (h : Reply src m outs) {o : N × Message N S} (ho : o ∈ outs) :
    (∃ bmap transId, o = (src, .signal (.ack bmap transId))) ∨
    (∃ cset maxDeliver transId acc, m = .signal (.offer cset maxDeliver transId) ∧
      o = (src, .signal (.accept acc transId)) ∧
      (∀ x ∈ ChunkIDSet.ids acc, x ∈ ChunkIDSet.ids cset) ∧
      (ChunkIDSet.size acc : Int) ≤ max maxDeliver 0) ∨
    ∃ cset transId c, m = .signal (.accept cset transId) ∧ o = (src, .chunk c transId) ∧
      c.id ∈ ChunkIDSet.ids cset := by
  cases m with
  | chunk c transId =>
    obtain ⟨bmap, rfl⟩ := h o ho
    exact .inl ⟨bmap, transId, rfl⟩
  | signal sig =>
    cases sig with
    | offer cset maxDeliver transId =>
      obtain ⟨acc, rfl, hoffered, hsize⟩ := h
      exact .inr (.inl ⟨cset, maxDeliver, transId, acc, rfl, List.mem_singleton.1 ho, hoffered,
        hsize⟩)
    | accept cset transId =>
      obtain ⟨c, rfl, hid⟩ := h.2 o ho
      exact .inr (.inr ⟨cset, transId, c, rfl, rfl, hid⟩)
    | _ =>
      rw [show outs = [] from h] at ho
      exact absurd ho List.not_mem_nil

section Local

variable {cfg : Config} {clock : Clock} {s : State N B P}

theorem messages_append (events more : List (Event N S)) :
    messages (events ++ more) = messages events ++ messages more := List.filterMap_append ..

theorem messages_locked {events : List (Event N S)} (h : ∀ e ∈ events, ∃ x t, e = .locked x t) :
    messages events = [] := by
  rw [messages, List.filterMap_eq_nil_iff]
  intro e he
  obtain ⟨x, t, rfl⟩ := h e he
  rfl

theorem one_le_offerMaxDeliver (cfg : Config) (hopcount : ℕ) :
    1 ≤ offerMaxDeliver cfg hopcount := by
  unfold offerMaxDeliver
  split_ifs
  · split <;> decide
  · decide

variable [ChunkIDSet S]

theorem own_offerLoop [ChunkBuffer B] (ps : List (OfferPeer N)) (s : State N B P) :
    ∀ o ∈ messages (offerLoop (S := S) cfg clock ps s).2, Own o.2 := by
  induction ps generalizing s with
  | nil => simp [offerLoop, messages]
  | cons p ps ih =>
    intro o ho
    simp only [offerLoop, messages_append] at ho
    rcases List.mem_append.1 ho with ho | ho
    · rw [List.mem_singleton.1 ho]
      exact ⟨one_le_offerMaxDeliver cfg p.hopcount, Transaction.nextTransId_ne_zero _⟩
    · exact ih _ o ho

/-- A chunk that is sent is the only message of `transmit`. -/
theorem messages_transmit [ChunkBuffer B] [PeerSet P N S] (toid : N) (c : Chunk)
    (transId : UInt16) (sent : Bool) (s : State N B P) :
    messages (transmit (S := S) toid c transId sent s).2 =
      if sent then [(toid, .chunk (chunkAttributesUpdateSending c) transId)] else [] := by
  cases sent <;> rfl

variable [ChunkBuffer B] [PeerSet P N S]

theorem own_sendChunk (pair : Option (N × Int)) (sent : Bool) (s : State N B P) :
    ∀ o ∈ messages (sendChunk (S := S) pair sent s).2, Own o.2 := by
  rcases sendChunk_cases (S := S) pair sent s with h | ⟨toid, cid, c, -, h⟩
  · rw [h]
    simp [messages]
  · intro o ho
    rw [h, messages_transmit] at ho
    split_ifs at ho
    · rw [List.mem_singleton.1 ho]
      rfl
    · exact absurd ho List.not_mem_nil

theorem own_act (self : N) (a : Action N P) (s : State N B P) :
    ∀ o ∈ (act (S := S) cfg clock self a s).2, Own o.2 := by
  cases a with
  | sendChunk pair sent => exact own_sendChunk pair sent s
  | sendOffer skipped selected =>
    show ∀ o ∈ messages (sendOffer (S := S) cfg clock skipped selected s).2, Own o.2
    unfold sendOffer
    split_ifs
    · simp [messages]
    · exact own_offerLoop selected s
  | addChunk c => simp [act]
  | updatePeers pset => simp [act]
  | sendBmap toid => simp [act, sendBmap, Own]

/-! ## The answer to an accept -/

/-- The messages of a loop over `n` chunks of the accepted set. -/
def Answering (toid : N) (cset : S) (transId : UInt16) (n : ℕ) (a : Sending N B P S) : Prop :=
  (messages a.events).length ≤ n ∧
    ∀ o ∈ messages a.events, ∃ c, o = (toid, .chunk c transId) ∧ c.id ∈ ChunkIDSet.ids cset

omit [ChunkBuffer B] [PeerSet P N S] in
theorem Answering.mono {toid : N} {cset : S} {transId : UInt16} {n n' : ℕ}
    {a : Sending N B P S} (h : Answering toid cset transId n a) (hn : n ≤ n') :
    Answering toid cset transId n' a :=
  ⟨Nat.le_trans h.1 hn, h.2⟩

variable [LawfulChunkBuffer B]

theorem Answering.sendAcceptedOne (cfg : Config) (clock : Clock) {toid : N} {cset : S}
    {transId : UInt16} {n : ℕ} {x : Int}
    (sent : Bool) {a : Sending N B P S} (hx : x ∈ ChunkIDSet.ids cset)
    (h : Answering toid cset transId n a) :
    Answering toid cset transId (n + 1)
      (sendAcceptedOne cfg clock toid transId x sent a) := by
  obtain ⟨_, -, hone | ⟨c, d, hc, -, hone⟩⟩ :=
    sendAcceptedOne_cases cfg clock toid transId x sent a
  · rw [hone]
    exact h.mono (Nat.le_succ n)
  · rw [hone]
    unfold Answering
    simp only [messages_append, messages_transmit]
    have hid : (chunkAttributesUpdateSending c).id ∈ ChunkIDSet.ids cset := by
      rw [chunkAttributesUpdateSending_id, (ChunkBuffer.getChunk_some hc).1]
      exact hx
    cases sent with
    | false =>
      rw [if_neg Bool.false_ne_true, List.append_nil]
      exact h.mono (Nat.le_succ n)
    | true =>
      refine ⟨?_, fun o ho => ?_⟩
      · rw [List.length_append]
        exact Nat.add_le_add_right h.1 1
      · rcases List.mem_append.1 ho with ho | ho
        · exact h.2 o ho
        · exact ⟨_, List.mem_singleton.1 ho, hid⟩

/-- Each round of the loop sends one chunk of the set at most. -/
theorem Answering.sendAcceptedLoop (cfg : Config) (clock : Clock) {toid : N} {cset : S}
    {transId : UInt16} {n : ℕ} (maxDeliver : Int) (sent : ℕ → Bool) (is : List ℕ)
    (his : ∀ i ∈ is, i < ChunkIDSet.size cset) {a : Sending N B P S}
    (h : Answering toid cset transId n a) :
    Answering toid cset transId (n + is.length)
      (sendAcceptedLoop cfg clock toid cset maxDeliver transId sent is a) := by
  induction is generalizing n a with
  | nil => exact h
  | cons i is ih =>
    unfold Streaming.sendAcceptedLoop
    split_ifs
    · have hi := ChunkIDSet.getChunk_mem_ids cset (his i (List.mem_cons_self ..))
      have hone := h.sendAcceptedOne cfg clock (sent i) hi
      apply (ih (fun j hj => his j (List.mem_cons_of_mem _ hj)) hone).mono
      rw [List.length_cons]
      omega
    · exact h.mono (Nat.le_add_right ..)

theorem answering_sendAcceptedChunks (toid : N) (cset : S) (maxDeliver : Int)
    (transId : UInt16) (sent : ℕ → Bool) (s : State N B P) :
    (messages (sendAcceptedChunks cfg clock toid cset maxDeliver transId sent s).2).length ≤
        ChunkIDSet.size cset ∧
      ∀ o ∈ messages (sendAcceptedChunks cfg clock toid cset maxDeliver transId sent s).2,
        ∃ c, o = (toid, .chunk c transId) ∧ c.id ∈ ChunkIDSet.ids cset := by
  set s' : State N B P := { s with
    transactions := (Transaction.transactionRegAccept transId toid (clock.read s.reads)
      s.transactions).2
    reads := s.reads + 1 }
  have hstart : Answering toid cset transId 0 (⟨s', 0, []⟩ : Sending N B P S) := by
    simp [Answering, messages]
  have hloop := hstart.sendAcceptedLoop cfg clock maxDeliver sent
    (List.range (ChunkIDSet.size cset)) (fun i hi => List.mem_range.1 hi)
  rw [List.length_range, Nat.zero_add] at hloop
  exact hloop

/-! ## The answer to any message -/

variable [DecidableEq N] [LawfulChunkIDSet S]

theorem reply_handle {b : Choices} {src : N} {m : Message N S} {s' : State N B P}
    {outs : List (N × Message N S)} (h : handle cfg clock b src m s = .ok (s', outs)) :
    Reply src m outs := by
  cases m with
  | chunk c transId =>
    obtain ⟨-, rfl⟩ := Prod.mk.inj (Except.ok.inj h)
    intro o ho
    simp only [receivedChunk, messages, List.filterMap_cons, messageOf] at ho
    split_ifs at ho
    · exact absurd ho List.not_mem_nil
    · exact ⟨_, List.mem_singleton.1 ho⟩
  | signal sig =>
    cases sig with
    | bufferMap ownerid cset cbSize transId =>
      obtain ⟨-, rfl⟩ := Prod.mk.inj (Except.ok.inj h)
      rfl
    | offer cset maxDeliver transId =>
      obtain ⟨-, rfl⟩ := Prod.mk.inj (Except.ok.inj h)
      have hspec := getChunksToAccept_spec cfg clock src cset maxDeliver
        (updatePeer clock src (resetBmap cset) s)
      refine ⟨_, ?_, hspec.offered, Int.le_trans hspec.counted hspec.bounded⟩
      show messages (_ ++ _) = _
      rw [messages_append, messages_locked hspec.locked]
      rfl
    | accept cset transId =>
      obtain ⟨-, rfl⟩ := Prod.mk.inj (Except.ok.inj h)
      exact answering_sendAcceptedChunks src cset _ transId b.sent _
    | ack cset transId =>
      rcases hr : ackReceived cfg clock src cset transId s with _ | ⟨s₁, events⟩
      · simp [handle, sigParseData, hr, Except.map] at h
      · simp only [handle, sigParseData, hr, Except.map] at h
        obtain ⟨-, rfl⟩ := Prod.mk.inj (Except.ok.inj h)
        obtain ⟨_, _, _, -, rfl, -⟩ := ackReceived_ok hr
        rfl
    | other =>
      obtain ⟨-, rfl⟩ := Prod.mk.inj (Except.ok.inj h)
      rfl

end Local

/-! ## Runs -/

open Network

section Runs

variable [DecidableEq N] [ChunkIDSet S] [ChunkBuffer B] [PeerSet P N S]
  [LawfulChunkIDSet S] [LawfulChunkBuffer B] {cfg : N → Config} {clock : N → Clock}
  {w : Net N (State N B P) (Message N S)} {sent : List (Packet N (Message N S))}
  {p q : Packet N (Message N S)}

/-- Handled packets are answered as `Reply` says. -/
theorem reply_answers (h : Traced (nodes cfg clock) w sent) (hq : q ∈ sent)
    (hne : answers sent q ≠ []) :
    ∃ outs k, Reply q.src q.body outs ∧ answers sent q = packets q.dst (some q.num) k outs := by
  rcases h.answered q hq with hnil | ⟨b, s, s', outs, k, hh, heq⟩
  · exact absurd hnil hne
  · exact ⟨outs, k, reply_handle hh, heq⟩

/-- A packet was sent by its sender on its own, or it is part of a reply. -/
theorem own_or_reply (h : Traced (nodes cfg clock) w sent) (hp : p ∈ sent) :
    p.cause = none ∧ Own p.body ∨ ∃ q ∈ sent, p.cause = some q.num ∧ p.src = q.dst ∧
      ∃ outs, Reply q.src q.body outs ∧ (p.dst, p.body) ∈ outs := by
  cases hc : p.cause with
  | none =>
    obtain ⟨a, s, s', outs, hact, hmem⟩ := h.acted p hp hc
    obtain ⟨-, rfl⟩ := Prod.mk.inj (Except.ok.inj hact)
    exact .inl ⟨rfl, own_act p.src a s _ hmem⟩
  | some i =>
    obtain ⟨q, hq, rfl, hans⟩ := h.exists_cause hp hc
    obtain ⟨outs, k, hreply, heq⟩ := reply_answers h hq (List.ne_nil_of_mem hans)
    rw [heq] at hans
    obtain ⟨hsrc, -, hmem⟩ := of_mem_packets hans
    exact .inr ⟨q, hq, rfl, hsrc, outs, hreply, hmem⟩

/-- Offers are not replies, so each allows for a chunk. -/
theorem one_le_of_offer (h : Traced (nodes cfg clock) w sent) (hp : p ∈ sent) {cset : S}
    {maxDeliver : Int} {transId : UInt16}
    (hbody : p.body = .signal (.offer cset maxDeliver transId)) : 1 ≤ maxDeliver := by
  rcases own_or_reply h hp with ⟨-, hown⟩ | ⟨q, -, -, -, outs, hreply, hmem⟩
  · rw [hbody] at hown
    exact hown.1
  · rw [hbody] at hmem
    rcases hreply.mem hmem with ⟨_, _, heq⟩ | ⟨_, _, _, _, -, heq, -⟩ | ⟨_, _, _, -, heq, -⟩ <;>
      simp at heq

/-- The accept `acc` answers the offer `off`: same nodes, same transaction, no chunk that was not
offered and no more than allowed. -/
structure Accepts (off acc : Packet N (Message N S)) (csetOff csetAcc : S) (maxDeliver : Int)
    (transId : UInt16) : Prop where
  cause : acc.cause = some off.num
  src : acc.src = off.dst
  dst : acc.dst = off.src
  offer : off.body = .signal (.offer csetOff maxDeliver transId)
  accept : acc.body = .signal (.accept csetAcc transId)
  offered : ∀ x ∈ ChunkIDSet.ids csetAcc, x ∈ ChunkIDSet.ids csetOff
  size : (ChunkIDSet.size csetAcc : Int) ≤ max maxDeliver 0

/-- Every accept answers an offer. -/
theorem exists_offer (h : Traced (nodes cfg clock) w sent) (hp : p ∈ sent) {csetAcc : S}
    {transId : UInt16} (hbody : p.body = .signal (.accept csetAcc transId)) :
    ∃ off ∈ sent, ∃ csetOff maxDeliver, Accepts off p csetOff csetAcc maxDeliver transId := by
  rcases own_or_reply h hp with ⟨-, hown⟩ | ⟨q, hq, hcause, hsrc, outs, hreply, hmem⟩
  · rw [hbody] at hown
    exact absurd hown id
  · rw [hbody] at hmem
    rcases hreply.mem hmem with
      ⟨_, _, heq⟩ | ⟨cset, maxDeliver, _, _, hoff, heq, hoffered, hsize⟩ | ⟨_, _, _, -, heq, -⟩
    · simp at heq
    · simp only [Prod.mk.injEq, Message.signal.injEq, Signal.accept.injEq] at heq
      obtain ⟨hdst, rfl, rfl⟩ := heq
      exact ⟨q, hq, cset, maxDeliver, hcause, hsrc, hdst, hoff, hbody, hoffered, hsize⟩
    · simp at heq

/-- Every chunk that is not a push answers an accept. -/
theorem exists_accept (h : Traced (nodes cfg clock) w sent) (hp : p ∈ sent) {c : Chunk}
    {transId : UInt16} (hbody : p.body = .chunk c transId) (hne : transId ≠ 0) :
    ∃ acc ∈ sent, p.cause = some acc.num ∧ acc.src = p.dst ∧ acc.dst = p.src ∧
      ∃ cset, acc.body = .signal (.accept cset transId) ∧ c.id ∈ ChunkIDSet.ids cset := by
  rcases own_or_reply h hp with ⟨-, hown⟩ | ⟨q, hq, hcause, hsrc, outs, hreply, hmem⟩
  · rw [hbody] at hown
    exact absurd hown hne
  · rw [hbody] at hmem
    rcases hreply.mem hmem with
      ⟨_, _, heq⟩ | ⟨_, _, _, _, -, heq, -⟩ | ⟨cset, _, _, hacc, heq, hid⟩
    · simp at heq
    · simp at heq
    · simp only [Prod.mk.injEq, Message.chunk.injEq] at heq
      obtain ⟨hdst, rfl, rfl⟩ := heq
      exact ⟨q, hq, hcause, hdst.symm, hsrc.symm, cset, hacc, hid⟩

/-- The chunks that were sent when the answer to `off` was handled. -/
def chunksFor (sent : List (Packet N (Message N S))) (off : Packet N (Message N S)) :
    List (Packet N (Message N S)) :=
  sent.filter fun p => p.body matches .chunk .. ∧ ∃ acc ∈ answers sent off, p.cause = some acc.num

/-- An offer has one accept, and that is answered by as many chunks as it is large. -/
theorem length_chunksFor_le (h : Traced (nodes cfg clock) w sent) (hp : p ∈ sent) {cset : S}
    {maxDeliver : Int} {transId : UInt16}
    (hbody : p.body = .signal (.offer cset maxDeliver transId)) :
    ((chunksFor sent p).length : Int) ≤ maxDeliver := by
  have hone := one_le_of_offer h hp hbody
  by_cases hnil : answers sent p = []
  · simp only [chunksFor, hnil, List.not_mem_nil, false_and, exists_false, and_false,
      decide_false, List.filter_false, List.length_nil]
    omega
  obtain ⟨outs, k, hreply, heq⟩ := reply_answers h hp hnil
  rw [hbody] at hreply
  obtain ⟨acc, rfl, -, hsize⟩ := hreply
  set a : Packet N (Message N S) := ⟨k, p.dst, p.src, .signal (.accept acc transId), some p.num⟩
    with ha
  have hsingle : answers sent p = [a] := heq
  have hmem : a ∈ sent := by
    have : a ∈ answers sent p := hsingle ▸ List.mem_singleton_self a
    exact (List.mem_filter.1 this).1
  have hsub : (chunksFor sent p).length ≤ (answers sent a).length := by
    apply List.Sublist.length_le
    rw [chunksFor, hsingle]
    apply List.monotone_filter_right sent
    intro q hq
    simpa using (of_decide_eq_true hq).2
  have hanswers : (answers sent a).length ≤ ChunkIDSet.size acc := by
    by_cases hnil : answers sent a = []
    · rw [hnil]
      exact Nat.zero_le _
    · obtain ⟨outs, k', hreply, heq⟩ := reply_answers h hmem hnil
      rw [heq, length_packets]
      exact hreply.1
  omega

/-- Chunks of a transaction are caused by an accept of an offer of them, no more than the offer
allows. -/
theorem chunks_answerOffer (cfg : N → Config) (clock : N → Clock)
    (moves : List (Move N (Action N P) Choices)) (states : N → State N B P)
    (w : Net N (State N B P) (Message N S)) (sent : List (Packet N (Message N S)))
    (h : Run.run (step (nodes cfg clock)) moves (Net.init states) = .ok (w, sent)) :
    (∀ p ∈ sent, ∀ c transId, p.body = .chunk c transId → transId ≠ 0 →
      ∃ acc ∈ sent, ∃ off ∈ sent, p.cause = some acc.num ∧ acc.src = p.dst ∧ acc.dst = p.src ∧
        ∃ csetOff csetAcc maxDeliver, Accepts off acc csetOff csetAcc maxDeliver transId ∧
          c.id ∈ ChunkIDSet.ids csetOff) ∧
    ∀ off ∈ sent, ∀ csetOff maxDeliver transId,
      off.body = .signal (.offer csetOff maxDeliver transId) →
        ((chunksFor sent off).length : Int) ≤ maxDeliver := by
  have htraced := run_traced h
  refine ⟨fun p hp c transId hbody hne => ?_, fun off hoff cset maxDeliver transId hbody => ?_⟩
  · obtain ⟨acc, hacc, hcause, hsrc, hdst, csetAcc, hbacc, hid⟩ :=
      exists_accept htraced hp hbody hne
    obtain ⟨off, hoff, csetOff, maxDeliver, haccepts⟩ := exists_offer htraced hacc hbacc
    exact ⟨acc, hacc, off, hoff, hcause, hsrc, hdst, csetOff, csetAcc, maxDeliver, haccepts,
      haccepts.offered _ hid⟩
  · exact length_chunksFor_le htraced hoff hbody

end Runs

/-- Two nodes with nothing to share, each the peer of the other. -/
def pair (n : ℕ) : State ℕ ListBuffer (ListPeers ℕ ListIDSet) :=
  State.init plainConfig (ListPeers.empty.add (1 - n) (.ofUsec 0)) (.ofUsec 500000)

/-- Node 0 offers its second chunk to node 1, which accepts it and is sent it. -/
def offeredAndSent : List (Move ℕ (Action ℕ (ListPeers ℕ ListIDSet)) Choices) :=
  [.act 0 (.addChunk ⟨6, 1000000, [2], []⟩), .act 0 (.addChunk ⟨5, 0, [1], []⟩),
    .act 0 (.sendOffer false [⟨1, some (1 / 10), 0⟩]), .deliver 0 ⟨false, fun _ => true⟩,
    .deliver 0 ⟨false, fun _ => true⟩]

theorem chunks_answerOffer_offeredAndSent :
    ∃ w sent, Run.run (step (nodes (fun _ => plainConfig) fun _ => stillClock)) offeredAndSent
      (Net.init pair) = .ok (w, sent) ∧
    (∀ p ∈ sent, ∀ c transId, p.body = .chunk c transId → transId ≠ 0 →
      ∃ acc ∈ sent, ∃ off ∈ sent, p.cause = some acc.num ∧ acc.src = p.dst ∧ acc.dst = p.src ∧
        ∃ csetOff csetAcc maxDeliver, Accepts off acc csetOff csetAcc maxDeliver transId ∧
          c.id ∈ ChunkIDSet.ids csetOff) ∧
    ∀ off ∈ sent, ∀ csetOff maxDeliver transId,
      off.body = .signal (.offer csetOff maxDeliver transId) →
        ((chunksFor sent off).length : Int) ≤ maxDeliver := by
  obtain ⟨w, sent, hrun⟩ := run_total (nodes (fun _ => plainConfig) fun _ => stillClock)
    offeredAndSent (Net.init pair)
  exact ⟨w, sent, hrun, chunks_answerOffer _ _ offeredAndSent pair w sent hrun⟩

end PeerStreamer.Overlay
