import Mathlib.Algebra.Order.BigOperators.Group.List
import PeerStreamer.Misdirected
import PeerStreamer.Overlay
import PeerStreamer.TransactionMap

/-!
# The offer that is answered

An acknowledgement in a transaction goes back, by a chunk and an accept, to one offer of the node
that gets it, and an offer is acknowledged no more often than it allows (`acks_answerOffer`).

The handlers do not compare the sender of an accept or of an acknowledgement with the peer that was
offered the transaction.  Among honest nodes they need not, as long as the transaction ids of a node
have not wrapped around: its open transactions are ones it has offered (`Numbered`), each id was
offered once, and an answer comes from where the offer went (`answers_directed`).
-/

namespace PeerStreamer.Overlay

open Network Streaming Transaction

variable {N B P S : Type}

/-! ## Acknowledgements -/

section Acks

variable [DecidableEq N] [ChunkIDSet S] [ChunkBuffer B] [PeerSet P N S]
  [LawfulChunkIDSet S] [LawfulChunkBuffer B] {cfg : N → Config} {clock : N → Clock}
  {w : Net N (State N B P) (Message N S)} {sent : List (Packet N (Message N S))}
  {p : Packet N (Message N S)}

/-- `ack` acknowledges the chunk of `chunk`: same nodes, same transaction. -/
structure Acks (chunk ack : Packet N (Message N S)) (c : Chunk) (bmap : S) (transId : UInt16) :
    Prop where
  cause : ack.cause = some chunk.num
  src : ack.src = chunk.dst
  dst : ack.dst = chunk.src
  chunk : chunk.body = .chunk c transId
  ack : ack.body = .signal (.ack bmap transId)

/-- Every acknowledgement answers a chunk. -/
theorem exists_chunk (h : Traced (nodes cfg clock) w sent) (hp : p ∈ sent) {bmap : S}
    {transId : UInt16} (hbody : p.body = .signal (.ack bmap transId)) :
    ∃ q ∈ sent, ∃ c, Acks q p c bmap transId := by
  rcases own_or_reply h hp with ⟨-, hown⟩ | ⟨q, hq, hcause, hsrc, outs, hreply, hmem⟩
  · rw [hbody] at hown
    exact absurd hown id
  rw [hbody] at hmem
  cases hqbody : q.body with
  | chunk c t =>
    rw [hqbody] at hreply
    obtain ⟨bmap', heq⟩ := hreply _ hmem
    simp only [Prod.mk.injEq, Message.signal.injEq, Signal.ack.injEq] at heq
    obtain ⟨hdst, -, rfl⟩ := heq
    exact ⟨q, hq, c, hcause, hsrc, hdst, hqbody, hbody⟩
  | signal sig =>
    rw [hqbody] at hreply
    cases sig with
    | offer cset maxDeliver t =>
      obtain ⟨acc, rfl, -⟩ := hreply
      simp at hmem
    | accept cset t =>
      obtain ⟨c, heq, -⟩ := hreply.2 _ hmem
      simp at heq
    | _ =>
      rw [show outs = [] from hreply] at hmem
      exact absurd hmem List.not_mem_nil

/-- An acknowledgement in a transaction goes back to an offer, over a chunk and an accept. -/
theorem exists_ackedOffer (h : Traced (nodes cfg clock) w sent) (hp : p ∈ sent) {bmap : S}
    {transId : UInt16} (hbody : p.body = .signal (.ack bmap transId)) (hne : transId ≠ 0) :
    ∃ q ∈ sent, ∃ acc ∈ sent, ∃ off ∈ sent, ∃ c, Acks q p c bmap transId ∧
      q.cause = some acc.num ∧ off.src = p.dst ∧ off.dst = p.src ∧
      ∃ csetOff csetAcc maxDeliver, Accepts off acc csetOff csetAcc maxDeliver transId ∧
        c.id ∈ ChunkIDSet.ids csetOff := by
  obtain ⟨q, hq, c, hacks⟩ := exists_chunk h hp hbody
  obtain ⟨acc, hacc, hcause, hsrc, hdst, csetAcc, hbacc, hid⟩ := exists_accept h hq hacks.chunk hne
  obtain ⟨off, hoff, csetOff, maxDeliver, haccepts⟩ := exists_offer h hacc hbacc
  refine ⟨q, hq, acc, hacc, off, hoff, c, hacks, hcause, ?_, ?_, csetOff, csetAcc, maxDeliver,
    haccepts, haccepts.offered _ hid⟩
  · rw [← haccepts.dst, hdst, hacks.dst]
  · rw [← haccepts.src, hsrc, hacks.src]

omit [LawfulChunkIDSet S] [LawfulChunkBuffer B] in
/-- A chunk is acknowledged once at most. -/
theorem length_handle_chunk_le (cfg : Config) {clock : Clock} {b : Choices} {src : N} {c : Chunk}
    {transId : UInt16} {s s' : State N B P} {outs : List (N × Message N S)}
    (h : handle cfg clock b src (.chunk c transId) s = .ok (s', outs)) : outs.length ≤ 1 := by
  obtain ⟨-, rfl⟩ := Prod.mk.inj (Except.ok.inj h)
  simp only [receivedChunk, messages, List.filterMap_cons, messageOf]
  split_ifs
  · exact Nat.zero_le 1
  · exact Nat.le_refl 1

/-- The acknowledgements of the chunks that were sent for an offer. -/
def acksFor (sent : List (Packet N (Message N S))) (off : Packet N (Message N S)) :
    List (Packet N (Message N S)) :=
  (chunksFor sent off).flatMap (answers sent)

omit [LawfulChunkIDSet S] [LawfulChunkBuffer B] in
/-- The answers to a chunk are one acknowledgement or none. -/
theorem length_answers_chunk_le (h : Traced (nodes cfg clock) w sent) (hp : p ∈ sent) {c : Chunk}
    {transId : UInt16} (hbody : p.body = .chunk c transId) : (answers sent p).length ≤ 1 := by
  rcases h.answered p hp with hnil | ⟨b, s, s', outs, k, hh, heq⟩
  · rw [hnil]
    exact Nat.zero_le 1
  · rw [hbody] at hh
    rw [heq, length_packets]
    exact length_handle_chunk_le (cfg p.dst) hh

theorem length_acksFor_le (h : Traced (nodes cfg clock) w sent) (hp : p ∈ sent) {cset : S}
    {maxDeliver : Int} {transId : UInt16}
    (hbody : p.body = .signal (.offer cset maxDeliver transId)) :
    ((acksFor sent p).length : Int) ≤ maxDeliver := by
  have hle : (acksFor sent p).length ≤ (chunksFor sent p).length := by
    rw [acksFor, List.length_flatMap]
    refine (List.sum_le_card_nsmul _ 1 ?_).trans ?_
    · intro k hk
      obtain ⟨q, hq, rfl⟩ := List.mem_map.1 hk
      obtain ⟨hmem, hchunk⟩ := List.mem_filter.1 hq
      cases hqbody : q.body with
      | chunk c t => exact length_answers_chunk_le h hmem hqbody
      | signal sig => simp [hqbody] at hchunk
    · simp
  exact (Int.ofNat_le.2 hle).trans (length_chunksFor_le h hp hbody)

/-- Each acknowledgement in a transaction goes back to one offer of the node that gets it, by the
chunk that is acknowledged and the accept that the chunk was sent for; and an offer is followed by
no more acknowledgements than it allows chunks. -/
theorem acks_answerOffer (cfg : N → Config) (clock : N → Clock)
    (moves : List (Move N (Action N P) Choices)) (states : N → State N B P)
    (w : Net N (State N B P) (Message N S)) (sent : List (Packet N (Message N S)))
    (h : Run.run (step (nodes cfg clock)) moves (Net.init states) = .ok (w, sent)) :
    (∀ p ∈ sent, ∀ bmap transId, p.body = .signal (.ack bmap transId) → transId ≠ 0 →
      ∃ q ∈ sent, ∃ acc ∈ sent, ∃ off ∈ sent, ∃ c, Acks q p c bmap transId ∧
        q.cause = some acc.num ∧ off.src = p.dst ∧ off.dst = p.src ∧
        ∃ csetOff csetAcc maxDeliver, Accepts off acc csetOff csetAcc maxDeliver transId ∧
          c.id ∈ ChunkIDSet.ids csetOff ∧ q ∈ chunksFor sent off ∧ p ∈ acksFor sent off) ∧
    ∀ off ∈ sent, ∀ csetOff maxDeliver transId,
      off.body = .signal (.offer csetOff maxDeliver transId) →
        ((acksFor sent off).length : Int) ≤ maxDeliver := by
  have htraced := run_traced h
  refine ⟨fun p hp bmap transId hbody hne => ?_, fun off hoff cset maxDeliver transId hbody => ?_⟩
  · obtain ⟨q, hq, acc, hacc, off, hoff, c, hacks, hcause, hsrc, hdst, csetOff, csetAcc, maxDeliver,
      haccepts, hid⟩ := exists_ackedOffer htraced hp hbody hne
    have hqfor : q ∈ chunksFor sent off := by
      refine List.mem_filter.2 ⟨hq, decide_eq_true ⟨?_, acc, ?_, hcause⟩⟩
      · rw [hacks.chunk]
      · exact List.mem_filter.2 ⟨hacc, decide_eq_true haccepts.cause⟩
    exact ⟨q, hq, acc, hacc, off, hoff, c, hacks, hcause, hsrc, hdst, csetOff, csetAcc, maxDeliver,
      haccepts, hid, hqfor,
      List.mem_flatMap.2 ⟨q, hqfor, List.mem_filter.2 ⟨hp, decide_eq_true hacks.cause⟩⟩⟩
  · exact length_acksFor_le htraced hoff hbody

end Acks

/-! ## The open transactions -/

/-- The offers among messages: where they go, and their transactions. -/
def offersIn (out : List (N × Message N S)) : List (N × UInt16) :=
  out.filterMap fun
    | (dst, .signal (.offer _ _ transId)) => some (dst, transId)
    | _ => none

theorem offersIn_append (out more : List (N × Message N S)) :
    offersIn (out ++ more) = offersIn out ++ offersIn more := List.filterMap_append

theorem offersIn_eq_nil {out : List (N × Message N S)}
    (h : ∀ o ∈ out, ∀ cset maxDeliver transId,
      o.2 ≠ .signal (.offer cset maxDeliver transId)) : offersIn out = [] := by
  rw [offersIn, List.filterMap_eq_nil_iff]
  rintro ⟨dst, m⟩ ho
  cases m with
  | chunk c transId => rfl
  | signal sig =>
    cases sig with
    | offer cset maxDeliver transId => exact absurd rfl (h _ ho cset maxDeliver transId)
    | _ => rfl

/-- Transactions are closed or accepted, but none is opened. -/
structure Within (t t' : Transactions N) : Prop where
  last : t'.transId = t.transId
  live : ∀ st ∈ t'.stl, ∃ st₀ ∈ t.stl, st₀.id = st.id ∧ st₀.transId = st.transId

theorem Within.refl (t : Transactions N) : Within t t :=
  ⟨rfl, fun st hst => ⟨st, hst, rfl, rfl⟩⟩

theorem Within.of_eq {t t' : Transactions N} (h : t' = t) : Within t t' := h ▸ .refl t

theorem mem_regAccept {transId : UInt16} {time : ℚ} {stl : List (ServiceTime N)}
    {st : ServiceTime N} (h : st ∈ (regAccept transId time stl).2) :
    ∃ st₀ ∈ stl, st₀.id = st.id ∧ st₀.transId = st.transId := by
  induction stl with
  | nil => exact absurd h List.not_mem_nil
  | cons x stl ih =>
    rw [regAccept] at h
    split_ifs at h
    · rcases List.mem_cons.1 h with rfl | h
      · exact ⟨x, List.mem_cons_self .., rfl, rfl⟩
      · exact ⟨st, List.mem_cons_of_mem _ h, rfl, rfl⟩
    · rcases List.mem_cons.1 h with rfl | h
      · exact ⟨st, List.mem_cons_self .., rfl, rfl⟩
      · obtain ⟨st₀, hst₀, heq⟩ := ih h
        exact ⟨st₀, List.mem_cons_of_mem _ hst₀, heq⟩

theorem within_transactionRegAccept (transId : UInt16) (id : N) (now : Timeval)
    (t : Transactions N) : Within t (transactionRegAccept transId id now t).2 :=
  ⟨rfl, fun _ hst => mem_regAccept hst⟩

theorem within_transactionRemove (transId : UInt16) (t : Transactions N) :
    Within t (transactionRemove transId t).2 := by
  unfold transactionRemove
  split
  · exact .refl t
  · exact ⟨rfl, fun st hst => ⟨st, List.mem_of_mem_eraseP hst, rfl, rfl⟩⟩

/-- The transactions of a node and the messages it has sent: its offers are numbered one by one, and
the open transactions are ones it has offered. -/
structure Numbered (t : Transactions N) (out : List (N × Message N S)) : Prop where
  last : t.transId = transIdOf (offersIn out).length
  ids : (offersIn out).map Prod.snd =
    (List.range (offersIn out).length).map fun k => transIdOf (k + 1)
  live : ∀ st ∈ t.stl, (st.id, st.transId) ∈ offersIn out

namespace Numbered

variable {t t' : Transactions N} {out more : List (N × Message N S)}

theorem init : Numbered (.init : Transactions N) ([] : List (N × Message N S)) :=
  ⟨rfl, rfl, fun _ hst => absurd hst List.not_mem_nil⟩

theorem within (h : Numbered t out) (ht : Within t t') (hmore : offersIn more = []) :
    Numbered t' (out ++ more) := by
  have hsame : offersIn (out ++ more) = offersIn out := by
    rw [offersIn_append, hmore, List.append_nil]
  refine ⟨by rw [hsame, ht.last, h.last], by rw [hsame, h.ids], fun st hst => ?_⟩
  obtain ⟨st₀, hst₀, hid, htrans⟩ := ht.live st hst
  rw [hsame, ← hid, ← htrans]
  exact h.live st₀ hst₀

/-- A new transaction is offered under the next number. -/
theorem create (h : Numbered t out) (checked now : Timeval) (id : N) (cset : S)
    (maxDeliver : Int) :
    Numbered (transactionCreate checked now id t).2 (out ++ [(id,
      .signal (.offer cset maxDeliver (transactionCreate checked now id t).1))]) := by
  have hnext : nextTransId t.transId = transIdOf ((offersIn out).length + 1) := by
    rw [h.last, nextTransId_transIdOf]
  have hnew : offersIn (out ++ [(id,
      .signal (.offer cset maxDeliver (transactionCreate checked now id t).1))]) =
        offersIn out ++ [(id, nextTransId t.transId)] := offersIn_append ..
  refine ⟨?_, ?_, ?_⟩
  · rw [hnew, List.length_append]
    exact hnext
  · rw [hnew, List.length_append, List.length_singleton, List.range_succ, List.map_append,
      List.map_append, h.ids, hnext]
    rfl
  · intro st hst
    rw [hnew]
    rcases List.mem_cons.1 hst with rfl | hst
    · exact List.mem_append_right _ (List.mem_singleton_self _)
    · refine List.mem_append_left _ (h.live st ?_)
      exact (checkNeighborStatusList_sublist checked t.stl).subset hst

/-- Until the ids wrap around, no two offers have the same one. -/
theorem unique (h : Numbered t out) (hle : (offersIn out).length ≤ 65535) {n n' : N}
    {transId : UInt16} (hn : (n, transId) ∈ offersIn out) (hn' : (n', transId) ∈ offersIn out) :
    n = n' := by
  have hnodup : ((offersIn out).map Prod.snd).Nodup := by
    rw [h.ids]
    refine List.nodup_range.map_on ?_
    intro i hi j hj heq
    rw [List.mem_range] at hi hj
    have := transIdOf_inj (m := i + 1) (n := j + 1) (k := 65535) (by omega) (by omega) (by omega)
      (by omega) heq
    omega
  exact congrArg Prod.fst (List.inj_on_of_nodup_map hnodup hn hn' rfl)

theorem ne_zero (h : Numbered t out) {st : ServiceTime N} (hst : st ∈ t.stl) : st.transId ≠ 0 := by
  have hmem := List.mem_map_of_mem (f := Prod.snd) (h.live st hst)
  rw [h.ids] at hmem
  obtain ⟨k, -, heq⟩ := List.mem_map.1 hmem
  intro hzero
  exact transIdOf_ne_zero (k + 1) (heq.trans hzero)

end Numbered

section Node

variable [DecidableEq N] [ChunkIDSet S] [ChunkBuffer B] [PeerSet P N S] {cfg : Config}
  {clock : Clock} {s s' : State N B P} {out outs : List (N × Message N S)}

omit [DecidableEq N] [PeerSet P N S] in
theorem Numbered.offerLoop (ps : List (OfferPeer N)) (h : Numbered s.transactions out) :
    Numbered (offerLoop (S := S) cfg clock ps s).1.transactions
      (out ++ messages (offerLoop (S := S) cfg clock ps s).2) := by
  induction ps generalizing s out with
  | nil =>
    rw [show messages (Streaming.offerLoop (S := S) cfg clock [] s).2 = [] from rfl,
      List.append_nil]
    exact h
  | cons p ps ih =>
    have hone := h.create (clock.read s.reads) (clock.read (s.reads + 1)) p.id
      (composeOfferCset cfg p.rtt s.cb : S) (offerMaxDeliver cfg p.hopcount)
    have hrest := ih (s := (offerOne (S := S) cfg clock p s).1) hone
    rw [List.append_assoc] at hrest
    exact hrest

omit [DecidableEq N] in
theorem sendChunk_frame (pair : Option (N × Int)) (sent : Bool) (s : State N B P) :
    (sendChunk (S := S) pair sent s).1.transactions = s.transactions ∧
      ∀ o ∈ messages (sendChunk (S := S) pair sent s).2, ∃ c, o.2 = .chunk c 0 := by
  rcases sendChunk_cases (S := S) pair sent s with h | ⟨toid, cid, c, -, h⟩
  · rw [h]
    exact ⟨rfl, by simp [messages]⟩
  · rw [h, messages_transmit]
    refine ⟨(transmit_frame toid c 0 sent s).1, ?_⟩
    intro o ho
    split_ifs at ho
    · exact ⟨_, congrArg Prod.snd (List.mem_singleton.1 ho)⟩
    · exact absurd ho List.not_mem_nil

omit [DecidableEq N] in
/-- What a node does on its own keeps the numbering. -/
theorem numbered_act (self : N) (a : Action N P) (h : Numbered s.transactions out) :
    Numbered (act (S := S) cfg clock self a s).1.transactions
      (out ++ (act (S := S) cfg clock self a s).2) := by
  cases a with
  | sendChunk pair sent =>
    obtain ⟨hsame, hchunks⟩ := sendChunk_frame (S := S) pair sent s
    refine h.within (.of_eq hsame) (offersIn_eq_nil ?_)
    intro o ho cset maxDeliver transId
    obtain ⟨c, hc⟩ := hchunks o ho
    simp [hc]
  | sendOffer skipped selected =>
    show Numbered (sendOffer (S := S) cfg clock skipped selected s).1.transactions
      (out ++ messages (sendOffer (S := S) cfg clock skipped selected s).2)
    unfold sendOffer
    split_ifs
    · exact h.within (.refl _) rfl
    · exact h.offerLoop selected
  | addChunk c => exact h.within (.refl _) rfl
  | updatePeers pset => exact h.within (.refl _) rfl
  | sendBmap toid => exact h.within (.refl _) rfl

omit [DecidableEq N] [PeerSet P N S] in
theorem transactions_acceptLoop (peer : Option N) (myBmap csetOff : S) (maxDeliver : Int)
    (is : List ℕ) (a : Accepting N B P S) :
    (acceptLoop cfg clock peer myBmap csetOff maxDeliver is a).s.transactions =
      a.s.transactions := by
  induction is generalizing a with
  | nil => rfl
  | cons i is ih =>
    have hone : (acceptOne cfg clock peer myBmap (ChunkIDSet.getChunk csetOff i) a).s.transactions =
        a.s.transactions := by
      unfold acceptOne
      dsimp only
      split_ifs <;> rfl
    unfold acceptLoop
    split_ifs
    · exact (ih _).trans hone
    · rfl

/-- No handler opens a transaction. -/
theorem within_handle {b : Choices} {src : N} {m : Message N S}
    (h : handle cfg clock b src m s = .ok (s', outs)) : Within s.transactions s'.transactions := by
  cases m with
  | chunk c transId =>
    obtain ⟨rfl, -⟩ := Prod.mk.inj (Except.ok.inj h)
    refine .of_eq ?_
    unfold receivedChunk regSender
    dsimp only
    split <;> rfl
  | signal sig =>
    cases sig with
    | bufferMap ownerid cset cbSize transId =>
      obtain ⟨rfl, -⟩ := Prod.mk.inj (Except.ok.inj h)
      exact .of_eq (updatePeer_frame ..).1
    | offer cset maxDeliver transId =>
      obtain ⟨rfl, -⟩ := Prod.mk.inj (Except.ok.inj h)
      exact .of_eq ((transactions_acceptLoop ..).trans
        (updatePeer_frame clock src (resetBmap cset) s).1)
    | accept cset transId =>
      obtain ⟨rfl, -⟩ := Prod.mk.inj (Except.ok.inj h)
      show Within _ (acceptReceived cfg clock src cset _ transId b.sent s).1.transactions
      rw [(acceptReceived_frame ..).1]
      exact within_transactionRegAccept ..
    | ack cset transId =>
      rcases hr : ackReceived cfg clock src cset transId s with _ | ⟨s₁, events⟩
      · simp [handle, sigParseData, hr, Except.map] at h
      · simp only [handle, sigParseData, hr, Except.map] at h
        obtain ⟨rfl, -⟩ := Prod.mk.inj (Except.ok.inj h)
        obtain ⟨⟨t, r, n⟩, hrate, hs⟩ := bind_eq_ok.1 hr
        obtain ⟨rfl, -⟩ := Prod.mk.inj (Except.ok.inj hs)
        rw [(updatePeer_frame clock src (resetBmap cset) s).1] at hrate
        show Within s.transactions t
        rw [RateControl.rcRegAck_transactions hrate]
        exact within_transactionRemove ..
    | other =>
      obtain ⟨rfl, -⟩ := Prod.mk.inj (Except.ok.inj h)
      exact .refl _

variable [LawfulChunkIDSet S] [LawfulChunkBuffer B]

/-- A handler keeps the numbering, since no reply is an offer. -/
theorem numbered_handle {b : Choices} {src : N} {m : Message N S}
    (hs : handle cfg clock b src m s = .ok (s', outs)) (h : Numbered s.transactions out) :
    Numbered s'.transactions (out ++ outs) := by
  refine h.within (within_handle hs) (offersIn_eq_nil ?_)
  intro o ho cset maxDeliver transId heq
  rcases (reply_handle hs).mem ho with
    ⟨_, _, rfl⟩ | ⟨_, _, _, _, -, rfl, -⟩ | ⟨_, _, _, -, rfl, -⟩ <;>
    simp at heq

end Node

/-! ## Runs -/

section Runs

variable [DecidableEq N] [ChunkIDSet S] [ChunkBuffer B] [PeerSet P N S]
  [LawfulChunkIDSet S] [LawfulChunkBuffer B] {cfg : N → Config} {clock : N → Clock}
  {w : Net N (State N B P) (Message N S)} {sent : List (Packet N (Message N S))}
  {p : Packet N (Message N S)}

theorem history_nodes (cfg : N → Config) (clock : N → Clock) :
    History (nodes (B := B) (P := P) (S := S) cfg clock) fun _ s out =>
      Numbered s.transactions out where
  act n a s s' out outs h hact := by
    obtain ⟨rfl, rfl⟩ := Prod.mk.inj (Except.ok.inj hact)
    exact numbered_act n a h
  handle _ _ _ _ _ _ _ _ h hh := numbered_handle hh h

/-- The message answers the transaction. -/
def Answers (transId : UInt16) : Message N S → Prop
  | .signal (.accept _ t) | .signal (.ack _ t) => t = transId
  | _ => False

/-- An answer in a transaction comes from a node that was offered the transaction. -/
theorem offered_of_answers (h : Traced (nodes cfg clock) w sent) (hp : p ∈ sent) {transId : UInt16}
    (hans : Answers transId p.body) (hne : transId ≠ 0) :
    (p.src, transId) ∈ offersIn (outbox p.dst sent) := by
  have hoffer : ∀ off ∈ sent, ∀ acc csetOff csetAcc maxDeliver, off.src = p.dst → off.dst = p.src →
      Accepts off acc csetOff csetAcc maxDeliver transId →
        (p.src, transId) ∈ offersIn (outbox p.dst sent) := by
    intro off hoff acc csetOff csetAcc maxDeliver hsrc hdst haccepts
    refine List.mem_filterMap.2 ⟨(off.dst, off.body), mem_outbox.2 ⟨off, hoff, hsrc, rfl⟩, ?_⟩
    rw [haccepts.offer, hdst]
  cases hbody : p.body with
  | chunk c t =>
    rw [hbody] at hans
    exact absurd hans id
  | signal sig =>
    rw [hbody] at hans
    cases sig with
    | accept cset t =>
      obtain rfl : t = transId := hans
      obtain ⟨off, hoff, csetOff, maxDeliver, haccepts⟩ := exists_offer h hp hbody
      exact hoffer off hoff p csetOff cset maxDeliver haccepts.dst.symm haccepts.src.symm haccepts
    | ack bmap t =>
      obtain rfl : t = transId := hans
      obtain ⟨-, -, acc, -, off, hoff, -, -, -, hsrc, hdst, csetOff, csetAcc, maxDeliver, haccepts,
        -⟩ := exists_ackedOffer h hp hbody hne
      exact hoffer off hoff acc csetOff csetAcc maxDeliver hsrc hdst haccepts
    | _ => exact absurd hans id

/-- Among honest nodes that have made at most 65535 offers each, an accept or an acknowledgement
that names an open transaction comes from the peer that was offered it.  So an acknowledgement from
any other peer leaves the transactions and the rate control alone. -/
theorem answers_directed (cfg : N → Config) (clock : N → Clock)
    (moves : List (Move N (Action N P) Choices)) (states : N → State N B P)
    (hinit : ∀ n, (states n).transactions = .init)
    (w : Net N (State N B P) (Message N S)) (sent : List (Packet N (Message N S)))
    (h : Run.run (step (nodes cfg clock)) moves (Net.init states) = .ok (w, sent))
    (hoffers : ∀ n, (offersIn (outbox n sent)).length ≤ 65535) :
    ∀ p ∈ sent,
      (∀ transId, Answers transId p.body → ∀ st ∈ (w.states p.dst).transactions.stl,
        st.transId = transId → st.id = p.src) ∧
      ∀ bmap transId b, p.body = .signal (.ack bmap transId) →
        Untouched (cfg p.dst) (clock p.dst) (w.states p.dst)
          (.signal p.src (some (.ack bmap transId)) b) := by
  intro p hp
  have htraced := run_traced h
  have hnumbered : Numbered (w.states p.dst).transactions (outbox p.dst sent) :=
    run_history (history_nodes cfg clock) (fun n => by rw [hinit]; exact .init) h p.dst
  have hdirected : ∀ transId, Answers transId p.body →
      ∀ st ∈ (w.states p.dst).transactions.stl, st.transId = transId → st.id = p.src := by
    rintro transId hans st hst rfl
    have hmine := offered_of_answers htraced hp hans (hnumbered.ne_zero hst)
    exact hnumbered.unique (hoffers p.dst) (hnumbered.live st hst) hmine
  refine ⟨hdirected, fun bmap transId b hbody => ?_⟩
  rw [untouched_ack_iff]
  intro hmis st hst hid
  exact hmis st hst hid (hdirected transId (by rw [hbody]; rfl) st hst hid)

end Runs

/-- Node 0 offers a chunk to node 1, which accepts it, is sent it and acknowledges it. -/
def acknowledged : List (Move ℕ (Action ℕ (ListPeers ℕ ListIDSet)) Choices) :=
  offeredAndSent ++ [.deliver 0 ⟨false, fun _ => true⟩]

theorem acks_answerOffer_acknowledged :
    ∃ w sent, Run.run (step (nodes (fun _ => plainConfig) fun _ => stillClock)) acknowledged
      (Net.init pair) = .ok (w, sent) ∧
    (∃ p ∈ sent, p.body = .signal (.ack ⟨[6]⟩ 2)) ∧
    (∀ p ∈ sent, ∀ bmap transId, p.body = .signal (.ack bmap transId) → transId ≠ 0 →
      ∃ q ∈ sent, ∃ acc ∈ sent, ∃ off ∈ sent, ∃ c, Acks q p c bmap transId ∧
        q.cause = some acc.num ∧ off.src = p.dst ∧ off.dst = p.src ∧
        ∃ csetOff csetAcc maxDeliver, Accepts off acc csetOff csetAcc maxDeliver transId ∧
          c.id ∈ ChunkIDSet.ids csetOff ∧ q ∈ chunksFor sent off ∧ p ∈ acksFor sent off) ∧
    ∀ off ∈ sent, ∀ csetOff maxDeliver transId,
      off.body = .signal (.offer csetOff maxDeliver transId) →
        ((acksFor sent off).length : Int) ≤ maxDeliver := by
  have hack : (Run.run (step (nodes (fun _ => plainConfig) fun _ => stillClock)) acknowledged
      (Net.init pair)).toOption.any (fun r => r.2.any (·.body = .signal (.ack ⟨[6]⟩ 2))) := by
    decide +kernel
  obtain ⟨w, sent, hrun⟩ := run_total (nodes (fun _ => plainConfig) fun _ => stillClock)
    acknowledged (Net.init pair)
  rw [hrun] at hack
  obtain ⟨p, hp, hbody⟩ := List.any_eq_true.1 hack
  obtain ⟨hcause, hbound⟩ := acks_answerOffer _ _ acknowledged pair w sent hrun
  exact ⟨w, sent, hrun, ⟨p, hp, of_decide_eq_true hbody⟩, hcause, hbound⟩

theorem answers_directed_acknowledged :
    ∃ w sent, Run.run (step (nodes (fun _ => plainConfig) fun _ => stillClock)) acknowledged
      (Net.init pair) = .ok (w, sent) ∧ sent.length = 4 ∧
    ∀ p ∈ sent,
      (∀ transId, Answers transId p.body → ∀ st ∈ (w.states p.dst).transactions.stl,
        st.transId = transId → st.id = p.src) ∧
      ∀ bmap transId b, p.body = .signal (.ack bmap transId) →
        Untouched plainConfig stillClock (w.states p.dst)
          (.signal p.src (some (.ack bmap transId)) b) := by
  have hcount : (Run.run (step (nodes (fun _ => plainConfig) fun _ => stillClock)) acknowledged
      (Net.init pair)).toOption.map (fun r => r.2.length) = some 4 := by
    decide +kernel
  obtain ⟨w, sent, hrun⟩ := run_total (nodes (fun _ => plainConfig) fun _ => stillClock)
    acknowledged (Net.init pair)
  rw [hrun] at hcount
  have hlen : sent.length = 4 := Option.some_inj.1 hcount
  refine ⟨w, sent, hrun, hlen, answers_directed (fun _ => plainConfig) (fun _ => stillClock)
    acknowledged pair (fun _ => rfl) w sent hrun ?_⟩
  intro n
  have hout : (outbox n sent).length ≤ sent.length := by
    rw [outbox, List.length_map]
    exact List.length_filter_le ..
  have hle : (offersIn (outbox n sent)).length ≤ (outbox n sent).length := by
    exact List.length_filterMap_le ..
  omega

end PeerStreamer.Overlay
