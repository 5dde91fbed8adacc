import Mathlib.Data.Int.Interval
import PeerStreamer.Advertised
import PeerStreamer.ChunkTrail
import PeerStreamer.Lib.Dialogue
import PeerStreamer.PeerLoop

/-!
# A node catches up with its neighbour

An exchange is an offer and what follows from it: the neighbour accepts one chunk, gets it and
acknowledges it.  The acknowledgement tells the offering node what the neighbour has now, so that
the next exchange goes on from there.

Every exchange brings a chunk as long as one that is offered is wanted, and what the neighbour held
it holds.  After as many exchanges as there are chunks in the offer nothing of it is wanted
(`catches_up`), and each chunk was sent once at most.
-/

namespace PeerStreamer.Overlay

open Streaming PeerSet Network

variable {N B P S : Type} [ChunkIDSet S] [LawfulChunkIDSet S] [ChunkBuffer B]

/-! ## An offer -/

/-- Of the chunks `xs` the first wanted one is accepted and locked. -/
def AcceptsOne (wanted : Int → Prop) (xs acc locked : List Int) : Prop :=
  (acc = [] ∧ locked = [] ∧ ∀ x ∈ xs, ¬ wanted x) ∨
    ∃ x ∈ xs, wanted x ∧ acc = [x] ∧ locked = [x]

section Accept

variable {cfg : Config} (clock : Clock) (peer : Option N) (myBmap csetOff : S)
  {a : Accepting N B P S}

/-- The test of one chunk when nothing is locked. -/
theorem acceptOne_cases (hunlim : CB_SIZE_TIME_UNLIMITED ≤ cfg.cbSizeTime)
    (hlocks : a.s.locks.ids = []) (x : Int) :
    (¬ Wants (ChunkIDSet.ids myBmap) cfg.cbSize x ∧
        (acceptOne cfg clock peer myBmap x a).d = a.d ∧
        (acceptOne cfg clock peer myBmap x a).csetAcc = a.csetAcc ∧
        (acceptOne cfg clock peer myBmap x a).s.locks.ids = []) ∨
      (Wants (ChunkIDSet.ids myBmap) cfg.cbSize x ∧
        (acceptOne cfg clock peer myBmap x a).d = a.d + 1 ∧
        (acceptOne cfg clock peer myBmap x a).csetAcc = ChunkIDSet.add a.csetAcc x ∧
        (acceptOne cfg clock peer myBmap x a).s.locks.ids = [x]) := by
  have hunlocked : Unlocked clock x a.s := unlocked_of_not_mem (by simp [hlocks])
  have hcleaned : (ChunkLock.chunkIslocked clock x a.s.locks a.s.reads).2.1.ids = [] := by
    have hsub := ChunkLock.ids_chunkIslocked_sublist clock x a.s.locks a.s.reads
    rw [hlocks] at hsub
    exact List.sublist_nil.1 hsub
  have hneeds := _needs_iff hunlim clock a.s.cb myBmap cfg.cbSize x
    (ChunkLock.chunkIslocked clock x a.s.locks a.s.reads).2.2
  unfold acceptOne
  unfold Unlocked at hunlocked
  simp only [hunlocked, Bool.false_eq_true, if_false]
  split_ifs with hneed
  · refine .inr ⟨hneeds.1 hneed, rfl, rfl, ?_⟩
    rw [ChunkLock.ids_chunkLock, hcleaned, List.nil_append]
  · exact .inl ⟨fun hwants => hneed (hneeds.2 hwants), rfl, rfl, hcleaned⟩

theorem acceptLoop_one (hunlim : CB_SIZE_TIME_UNLIMITED ≤ cfg.cbSizeTime) (is : List ℕ)
    (hd : a.d = 0) (hacc : ChunkIDSet.ids a.csetAcc = []) (hlocks : a.s.locks.ids = []) :
    AcceptsOne (Wants (ChunkIDSet.ids myBmap) cfg.cbSize)
      (is.map (ChunkIDSet.getChunk csetOff))
      (ChunkIDSet.ids (acceptLoop cfg clock peer myBmap csetOff 1 is a).csetAcc)
      (acceptLoop cfg clock peer myBmap csetOff 1 is a).s.locks.ids := by
  induction is generalizing a with
  | nil => exact .inl ⟨hacc, hlocks, by simp⟩
  | cons i is ih =>
    unfold acceptLoop
    rw [if_pos (by omega), List.map_cons]
    rcases acceptOne_cases clock peer myBmap hunlim hlocks (ChunkIDSet.getChunk csetOff i) with
      ⟨hnot, hd', hacc', hlocks'⟩ | ⟨hwants, hd', hacc', hlocks'⟩
    · rcases ih (hd'.trans hd) (hacc'.symm ▸ hacc) hlocks' with ⟨hnil, hfree, hall⟩ | ⟨x, hx, hone⟩
      · exact .inl ⟨hnil, hfree, List.forall_mem_cons.2 ⟨hnot, hall⟩⟩
      · exact .inr ⟨x, List.mem_cons_of_mem _ hx, hone⟩
    · -- the bound is met, so the loop ends
      have hend (js : List ℕ) (a' : Accepting N B P S) (ha' : a'.d = 1) :
          acceptLoop cfg clock peer myBmap csetOff 1 js a' = a' := by
        cases js with
        | nil => rfl
        | cons j js => exact if_neg (by omega)
      rw [hend is _ (by omega)]
      refine .inr ⟨_, List.mem_cons_self .., hwants, ?_, hlocks'⟩
      rw [hacc', ← List.perm_singleton, List.perm_ext_iff_of_nodup
        (LawfulChunkIDSet.nodup_add _ _ (hacc.symm ▸ List.nodup_nil)) (List.nodup_singleton _)]
      intro y
      rw [LawfulChunkIDSet.mem_add, hacc, List.mem_singleton]
      simp

end Accept

section Offer

variable [LawfulChunkBuffer B]

omit [ChunkIDSet S] [LawfulChunkIDSet S] [ChunkBuffer B] [LawfulChunkBuffer B] in
theorem timestamp_updateAttributes (f : ChunkAttributes → ChunkAttributes) (c : Chunk) :
    (updateAttributes f c).timestamp = c.timestamp := by
  unfold updateAttributes
  split <;> rfl

omit [LawfulChunkIDSet S] in
/-- Sending a chunk does not change what is offered. -/
theorem composeOfferCset_update (cfg : Config) (rtt : Option ℚ) (cb : B) (x : Int) :
    (composeOfferCset cfg rtt (ChunkBuffer.update cb x chunkAttributesUpdateSending) : S) =
      composeOfferCset cfg rtt cb := by
  set f : Chunk → Chunk := fun c => if c.id = x then chunkAttributesUpdateSending c else c with hf
  have hchunks : ChunkBuffer.getChunks (ChunkBuffer.update cb x chunkAttributesUpdateSending) =
      (ChunkBuffer.getChunks cb).map f :=
    LawfulChunkBuffer.getChunks_update cb x _ chunkAttributesUpdateSending_id
  have hid (c : Chunk) : (f c).id = c.id := by
    simp only [hf]
    split_ifs
    · exact chunkAttributesUpdateSending_id c
    · rfl
  have htimestamp (c : Chunk) : (f c).timestamp = c.timestamp := by
    simp only [hf]
    split_ifs
    · exact timestamp_updateAttributes _ c
    · rfl
  have hhead (cs : List Chunk) :
      (cs.map f).head?.elim 0 Chunk.timestamp = cs.head?.elim 0 Chunk.timestamp := by
    cases cs with
    | nil => rfl
    | cons c cs => exact htimestamp c
  unfold composeOfferCset
  simp only [hchunks, hhead, List.length_map, ← List.map_take, ← List.map_reverse, List.filter_map,
    List.map_map, Function.comp_def, hid, htimestamp]

/-- What is offered is in the buffer. -/
theorem exists_getChunk_of_offered {cfg : Config} {rtt : Option ℚ} {cb : B} {x : Int}
    (hx : x ∈ ChunkIDSet.ids (composeOfferCset cfg rtt cb : S)) :
    ∃ c, ChunkBuffer.getChunk cb x = some c := by
  unfold composeOfferCset at hx
  rw [ChunkIDSet.mem_foldl_add, LawfulChunkIDSet.ids_initBitmap] at hx
  obtain ⟨c, hc, rfl⟩ := List.mem_map.1 (hx.resolve_right List.not_mem_nil)
  have hmem := List.mem_of_mem_take (List.mem_reverse.1 (List.mem_of_mem_filter hc))
  exact ChunkBuffer.exists_getChunk (List.mem_map_of_mem hmem)

variable [DecidableEq N] [PeerSet P N S] [LawfulPeerSet P N S] {cfg : Config} {clock : Clock}
  {s : State N B P} {p : Peer N S}

omit [LawfulChunkIDSet S] [LawfulChunkBuffer B] in
theorem act_sendOffer (clock : Clock) (hmax : cfg.heuristicsDistanceMaxdeliver = false) (self : N)
    {n : N} (hp : getPeer s.pset n = some p) (hcb : ChunkBuffer.getChunks s.cb ≠ [])
    (op : OfferPeer N) :
    ∃ s' transId, act (S := S) cfg clock self (.sendOffer false [op]) s =
        (s', [(op.id, .signal (.offer (composeOfferCset cfg op.rtt s.cb) 1 transId))]) ∧
      s'.cb = s.cb ∧ s'.pset = s.pset ∧ Unrated s s' := by
  have hpeers : PeerSet.peers s.pset ≠ [] :=
    List.ne_nil_of_mem (getPeer_eq_some_iff.1 hp).1
  have hrated : Unrated s (sendOffer (S := S) cfg clock false [op] s).1 :=
    unrated_sendOffer false [op] s
  have hsend : sendOffer (S := S) cfg clock false [op] s = offerLoop cfg clock [op] s :=
    if_neg (by simp [hpeers, hcb])
  rw [hsend] at hrated
  have hdeliver : offerMaxDeliver cfg op.hopcount = 1 := if_pos (by simp [hmax])
  refine ⟨(offerLoop (S := S) cfg clock [op] s).1, (Transaction.transactionCreate
    (clock.read s.reads) (clock.read (s.reads + 1)) op.id s.transactions).1, ?_, rfl, rfl, hrated⟩
  rw [act, hsend, ← hdeliver]
  rfl

end Offer

/-! ## The handlers -/

section Handlers

variable [DecidableEq N] [PeerSet P N S] [LawfulPeerSet P N S] [LawfulChunkBuffer B]
  {cfg : Config} {clock : Clock} {b : Choices} {s s' : State N B P} {src : N} {p : Peer N S}
  {outs : List (N × Message N S)} {transId : UInt16}

omit [LawfulChunkIDSet S] [LawfulPeerSet P N S] in
/-- What is handled leaves the rate control within its limits. -/
theorem rated_handle (hcfg : Tuned cfg.rate) (h : Rated clock s) {m : Message N S}
    (hhandle : handle cfg clock b src m s = .ok (s', outs)) : Rated clock s' := by
  cases m with
  | chunk c transId =>
    obtain ⟨s₁, events, hstep, hrated, -⟩ :=
      h.step hcfg (.chunk src (some (c, transId)) b.ackSkipped : Input N P S)
    obtain ⟨rfl, -⟩ := Prod.mk.inj (Except.ok.inj hstep)
    obtain ⟨rfl, -⟩ := Prod.mk.inj (Except.ok.inj hhandle)
    exact hrated
  | signal sig =>
    obtain ⟨s₁, events, hstep, hrated, -⟩ := h.step hcfg (.signal src (some sig) b.sent)
    obtain ⟨more, hr, -⟩ := handle_signal_ok hhandle
    obtain ⟨rfl, -⟩ := Prod.mk.inj (Except.ok.inj (hstep.symm.trans hr))
    exact hrated

omit [LawfulPeerSet P N S] in
theorem handle_offer (clock : Clock) (b : Choices) (src : N) (transId : UInt16)
    (hunlim : CB_SIZE_TIME_UNLIMITED ≤ cfg.cbSizeTime)
    (hlocks : s.locks.ids = []) (cset : S) :
    ∃ s' acc, handle cfg clock b src (.signal (.offer cset 1 transId)) s =
        .ok (s', [(src, .signal (.accept acc transId))]) ∧ s'.cb = s.cb ∧
      AcceptsOne (Wants (ChunkBuffer.ids s.cb) cfg.cbSize) (ChunkIDSet.ids cset)
        (ChunkIDSet.ids acc) s'.locks.ids := by
  set u := updatePeer clock src (resetBmap cset) s
  have hcb : u.cb = s.cb := updatePeer_cb ..
  have hspec := getChunksToAccept_spec cfg clock src cset 1 u
  have hwants : Wants (ChunkIDSet.ids (cbToBmap u.cb : S)) cfg.cbSize =
      Wants (ChunkBuffer.ids s.cb) cfg.cbSize := by
    funext x
    rw [hcb]
    exact propext (Wants.perm (ids_cbToBmap s.cb))
  have hone := acceptLoop_one clock ((getPeer u.pset src).map Peer.id) (cbToBmap u.cb) cset
    (a := ⟨u, ChunkIDSet.initList, 0, []⟩) hunlim (List.range (ChunkIDSet.size cset)) rfl
    LawfulChunkIDSet.ids_initList
    ((congrArg ChunkLock.Locks.ids (quiet_updatePeer clock src _ s).locks).trans hlocks)
  rw [hwants] at hone
  refine ⟨_, _, ?_, hspec.cb.trans hcb, hone⟩
  show Except.ok (post (offerReceived cfg clock src cset 1 transId s)) = _
  unfold post
  rw [show messages (offerReceived cfg clock src cset 1 transId s).2 = _ from messages_append ..,
    messages_locked hspec.locked]
  rfl

omit [LawfulChunkIDSet S] [LawfulPeerSet P N S] [LawfulChunkBuffer B] in
theorem handle_chunk (cfg : Config) (clock : Clock) (b : Choices) (src : N) (transId : UInt16)
    (hb : b.ackSkipped = false) (c : Chunk) (s : State N B P) :
    ∃ s', handle cfg clock b src (.chunk c transId) s =
        .ok (s', [(src, .signal (.ack (cbToBmap s'.cb) transId))]) ∧
      s'.cb = (ChunkBuffer.addChunk s.cb (chunkAttributesUpdateReceived c)).2 ∧
      s'.locks = ChunkLock.chunkUnlock c.id s.locks := by
  set u : State N B P := { s with
    locks := ChunkLock.chunkUnlock c.id s.locks
    cb := (ChunkBuffer.addChunk s.cb (chunkAttributesUpdateReceived c)).2 } with hu
  have hcb : (regSender (S := S) clock src c.id u).cb = u.cb := by
    unfold regSender
    split <;> rfl
  have hlocks := (quiet_regSender (S := S) clock src c.id u).locks
  refine ⟨regSender (S := S) clock src c.id u, ?_, hcb, hlocks⟩
  simp only [handle, post, receivedChunk, hb, chunkAttributesUpdateReceived_id]
  rfl

theorem handle_ack (b : Choices) (src : N) (transId : UInt16) (hcfg : Tuned cfg.rate)
    (h : Rated clock s) {cset : S} (hcset : (ChunkIDSet.ids cset).Nodup)
    (hp : getPeer s.pset src = some p) (hbmap : p.bmap.isSome) :
    ∃ s' q bmap, handle cfg clock b src (.signal (.ack cset transId)) s = .ok (s', []) ∧
      s'.cb = s.cb ∧ getPeer s'.pset src = some q ∧ q.bmap = some bmap ∧
      (ChunkIDSet.ids bmap).Perm (ChunkIDSet.ids cset) ∧ q.cbSize = p.cbSize := by
  obtain ⟨bmap, hbmap⟩ := Option.isSome_iff_exists.1 hbmap
  obtain ⟨bmap', hbmap', hids⟩ := resetBmap_bmap hbmap hcset (clock.read s.reads)
  obtain ⟨s', events, hstep, -⟩ :=
    h.step hcfg (.signal src (some (.ack cset transId)) b.sent : Input N P S)
  obtain ⟨t, r, n, -, rfl, rfl⟩ := ackReceived_ok hstep
  refine ⟨{ updatePeer clock src (resetBmap cset) s with transactions := t, rate := r, reads := n },
    resetBmap cset (clock.read s.reads) p, bmap', ?_, updatePeer_cb ..,
    getPeer_updatePeer (fun _ _ => rfl) hp, hbmap', hids, rfl⟩
  show (sigParseData cfg clock src (some (.ack cset transId)) b.sent s).map post = _
  rw [show sigParseData cfg clock src (some (.ack cset transId)) b.sent s = _ from hstep]
  rfl

omit [LawfulChunkBuffer B] in
theorem handle_bufferMap (cfg : Config) (clock : Clock) (b : Choices) (src : N)
    (transId : UInt16) {cset : S} (hcset : (ChunkIDSet.ids cset).Nodup) (cbSize : Int)
    (hp : getPeer s.pset src = some p) (hbmap : p.bmap.isSome) :
    ∃ s' q bmap, handle cfg clock b src (.signal (.bufferMap src cset cbSize transId)) s =
        .ok (s', []) ∧
      s'.cb = s.cb ∧ getPeer s'.pset src = some q ∧ q.bmap = some bmap ∧
      (ChunkIDSet.ids bmap).Perm (ChunkIDSet.ids cset) ∧ q.cbSize = cbSize := by
  obtain ⟨bmap, hbmap⟩ := Option.isSome_iff_exists.1 hbmap
  obtain ⟨bmap', hbmap', hids⟩ := resetBmap_bmap hbmap hcset (clock.read s.reads)
  set f : Timeval → Peer N S → Peer N S := fun now p =>
    { resetBmap cset now p with cbSize := cbSize }
  refine ⟨updatePeer clock src f s, f (clock.read s.reads) p, bmap', ?_, updatePeer_cb ..,
    getPeer_updatePeer (fun _ _ => rfl) hp, hbmap', hids, rfl⟩
  simp only [handle, sigParseData, bmapReceived, if_true]
  rfl

omit [LawfulChunkIDSet S] [LawfulChunkBuffer B] in
/-- The state in which the accepted chunks are sent. -/
theorem exists_acceptReceived (cfg : Config) (clock : Clock) (acc : S) (maxDeliver : Int)
    (transId : UInt16) (sent : ℕ → Bool) (hp : getPeer s.pset src = some p) :
    ∃ u q, u.cb = s.cb ∧ getPeer u.pset src = some q ∧ q.bmap = p.bmap ∧ q.cbSize = p.cbSize ∧
      acceptReceived cfg clock src acc maxDeliver transId sent s =
        ((sendAcceptedLoop cfg clock src acc maxDeliver transId sent
            (List.range (ChunkIDSet.size acc)) ⟨u, 0, []⟩).s,
          (sendAcceptedLoop cfg clock src acc maxDeliver transId sent
            (List.range (ChunkIDSet.size acc)) ⟨u, 0, []⟩).events) := by
  set f : Timeval → Peer N S → Peer N S := fun now p => { p with bmapTimestamp := now }
  set v := updatePeer clock src f s
  refine ⟨{ v with
    rate := RateControl.rcRegAccept cfg.rate transId (ChunkIDSet.size acc) v.rate
    transactions := (Transaction.transactionRegAccept transId src (clock.read v.reads)
      v.transactions).2
    reads := v.reads + 1 }, f (clock.read s.reads) p, updatePeer_cb ..,
    getPeer_updatePeer (fun _ _ => rfl) hp, rfl, rfl, rfl⟩

omit [LawfulChunkIDSet S] [LawfulChunkBuffer B] in
theorem handle_accept_nil (cfg : Config) (clock : Clock) (b : Choices) (src : N)
    (transId : UInt16) {acc : S} (hacc : ChunkIDSet.ids acc = [])
    (hp : getPeer s.pset src = some p) :
    ∃ s' q, handle cfg clock b src (.signal (.accept acc transId)) s = .ok (s', []) ∧
      s'.cb = s.cb ∧ getPeer s'.pset src = some q ∧ q.bmap = p.bmap ∧ q.cbSize = p.cbSize := by
  have hsize : ChunkIDSet.size acc = 0 := by rw [← ChunkIDSet.length_ids, hacc, List.length_nil]
  obtain ⟨u, q, hcb, hq, hbmap, hcbSize, heq⟩ :=
    exists_acceptReceived cfg clock acc (ChunkIDSet.size acc) transId b.sent hp
  rw [hsize, List.range_zero] at heq
  refine ⟨u, q, ?_, hcb, hq, hbmap, hcbSize⟩
  show Except.ok (post (acceptReceived cfg clock src acc (ChunkIDSet.size acc) transId b.sent s))
    = _
  rw [hsize, heq]
  rfl

/-- The chunk is sent when it is wanted as far as the record of the neighbour tells. -/
theorem handle_accept_one (clock : Clock) (b : Choices) (src : N) (transId : UInt16)
    (hunlim : CB_SIZE_TIME_UNLIMITED ≤ cfg.cbSizeTime) (hb : b.sent 0 = true) {acc bmap : S}
    {x : Int} (hacc : ChunkIDSet.ids acc = [x])
    (hp : getPeer s.pset src = some p) (hbmap : p.bmap = some bmap)
    (hwants : Wants (ChunkIDSet.ids bmap) p.cbSize x) {c : Chunk}
    (hc : ChunkBuffer.getChunk s.cb x = some c) :
    ∃ s' q, handle cfg clock b src (.signal (.accept acc transId)) s =
        .ok (s', [(src, .chunk (chunkAttributesUpdateSending c) transId)]) ∧
      s'.cb = ChunkBuffer.update s.cb x chunkAttributesUpdateSending ∧
      getPeer s'.pset src = some q ∧ q.bmap.isSome ∧ q.cbSize = p.cbSize := by
  have hsize : ChunkIDSet.size acc = 1 := by
    rw [← ChunkIDSet.length_ids, hacc, List.length_singleton]
  have hget : ChunkIDSet.getChunk acc 0 = x := by
    rw [ChunkIDSet.ids, hsize] at hacc
    exact List.singleton_inj.1 hacc
  obtain ⟨u, q, hcb, hq, hbmap', hcbSize, heq⟩ :=
    exists_acceptReceived cfg clock acc (ChunkIDSet.size acc) transId b.sent hp
  have hneed : (mayNeed cfg clock src x u).1 = true := by
    unfold mayNeed
    rw [hq]
    exact (needs_iff hunlim clock u.cb (hbmap'.trans hbmap) x u.reads).2 (hcbSize ▸ hwants)
  obtain ⟨rfl, -⟩ := ChunkBuffer.getChunk_some hc
  rw [← hcb] at hc
  rw [hsize] at heq
  simp only [List.range_one, sendAcceptedLoop, Nat.cast_one, zero_lt_one, if_true, hget,
    sendAcceptedOne, hc, hneed, hb] at heq
  set v : State N B P := { u with reads := (mayNeed cfg clock src c.id u).2 }
  refine ⟨(transmit (S := S) src c transId true v).1, addToBmap c.id q, ?_, ?_, ?_, ?_, hcbSize⟩
  · show Except.ok (post (acceptReceived cfg clock src acc (ChunkIDSet.size acc) transId b.sent s))
      = _
    rw [hsize, Nat.cast_one, heq, post, List.nil_append, messages_transmit]
    rfl
  · exact congrArg (ChunkBuffer.update · c.id chunkAttributesUpdateSending) hcb
  · show getPeer (PeerSet.update u.pset src (addToBmap c.id)) src = _
    rw [getPeer_update (f := addToBmap c.id) _ _ _ fun _ => rfl, hq, Option.map_some, if_pos rfl]
  · rw [show (addToBmap c.id q).bmap = q.bmap.map fun bmap => ChunkIDSet.add bmap c.id from rfl,
      hbmap', hbmap]
    rfl

end Handlers

/-! ## Exchanges -/

/-- Every send succeeds, and no acknowledgement is left out. -/
def lossless : Choices := ⟨false, fun _ => true⟩

/-- An offer to one neighbour, and what follows from it. -/
def exchange (n : N) (op : OfferPeer N) : List (Move N (Action N P) Choices) :=
  .act n (.sendOffer false [op]) :: List.replicate 4 (.deliver 0 lossless)

/-- The chunks among the messages. -/
def chunkIds (ls : List (N × N × Message N S)) : List Int :=
  ls.filterMap fun l =>
    match l.2.2 with
    | .chunk c _ => some c.id
    | .signal _ => none

omit [ChunkIDSet S] [LawfulChunkIDSet S] in
theorem chunkIds_append (ls more : List (N × N × Message N S)) :
    chunkIds (ls ++ more) = chunkIds ls ++ chunkIds more := List.filterMap_append

/-- Neither node has a playout limit, and one chunk is asked for at a time. -/
structure Plain (cfg cfgTo : Config) : Prop where
  unlimited : CB_SIZE_TIME_UNLIMITED ≤ cfg.cbSizeTime
  unlimitedTo : CB_SIZE_TIME_UNLIMITED ≤ cfgTo.cbSizeTime
  one : cfg.heuristicsDistanceMaxdeliver = false
  tuned : Tuned cfg.rate

/-- Between two exchanges the node in state `s` knows what its neighbour `m` in state `t` has. -/
structure InStep [PeerSet P N S] (cfgTo : Config) (clock : Clock) (m : N) (s t : State N B P) :
    Prop where
  record : ∃ p bmap, getPeer s.pset m = some p ∧ p.bmap = some bmap ∧
    (ChunkIDSet.ids bmap).Perm (ChunkBuffer.ids t.cb) ∧ p.cbSize = cfgTo.cbSize
  rated : Rated clock s
  nonneg : ∀ x ∈ ChunkBuffer.ids s.cb, 0 ≤ x
  unlocked : t.locks.ids = []
  size : ChunkBuffer.size t.cb = cfgTo.cbSize

/-- What an exchange does to the buffer `cb` of the neighbour: nothing when nothing of the offer is
wanted, and else it brings a wanted chunk. -/
inductive Outcome (cbSize : Int) (offer : List Int) (cb cb' : B) (sent : List Int) : Prop where
  | settled (hcb : cb' = cb) (hnot : ∀ x ∈ offer, ¬ Wants (ChunkBuffer.ids cb) cbSize x)
    (hsent : sent = [])
  | pulled (x : Int) (hx : x ∈ offer) (hwants : Wants (ChunkBuffer.ids cb) cbSize x)
    (hnot : ¬ ChunkBuffer.Held cb x) (hheld : ChunkBuffer.Held cb' x)
    (hkeep : ∀ y, ChunkBuffer.Held cb y → ChunkBuffer.Held cb' y)
    (hids : ∀ y ∈ ChunkBuffer.ids cb', y = x ∨ y ∈ ChunkBuffer.ids cb) (hsent : sent = [x])

section Exchange

variable [DecidableEq N] [PeerSet P N S] [LawfulPeerSet P N S] [LawfulChunkBuffer B]
  {cfg : N → Config} {clock : N → Clock} {n m : N} {s t : State N B P} {op : OfferPeer N}
  {w : Net N (State N B P) (Message N S)}

omit [ChunkIDSet S] [LawfulChunkIDSet S] [DecidableEq N] [PeerSet P N S] [LawfulPeerSet P N S]
  [LawfulChunkBuffer B] in
/-- A chunk that is held is not wanted. -/
theorem not_held_of_wants {cb : B} {cbSize : ℕ} (hsize : ChunkBuffer.size cb = cbSize) {x : Int}
    (h : Wants (ChunkBuffer.ids cb) cbSize x) : ¬ ChunkBuffer.Held cb x := by
  obtain ⟨hzero, hmem, hbelow⟩ := h
  rintro (hin | ⟨hfull, habove⟩)
  · exact hmem hin
  · have hne : ChunkBuffer.getChunks cb ≠ [] := by
      rintro hnil
      rw [hnil, hsize] at hfull
      simp_all
    obtain ⟨c, hc, hmin⟩ := ChunkBuffer.exists_earliest hne
    have hid : c.id ∈ ChunkBuffer.ids cb := List.mem_map_of_mem hc
    refine hbelow ⟨c.id, hid, List.forall_mem_map.2 hmin, ?_⟩
    have hlt := habove c.id hid
    rw [ChunkBuffer.length_ids]
    omega

omit [ChunkIDSet S] [LawfulChunkIDSet S] [DecidableEq N] [PeerSet P N S] [LawfulPeerSet P N S] in
theorem pulled_addChunk {cb : B} {cbSize : ℕ} (hsize : ChunkBuffer.size cb = cbSize)
    {offer : List Int} {c : Chunk} (hc : 0 ≤ c.id) (hx : c.id ∈ offer)
    (h : Wants (ChunkBuffer.ids cb) cbSize c.id) :
    Outcome cbSize offer cb (ChunkBuffer.addChunk cb c).2 [c.id] := by
  refine .pulled c.id hx h (not_held_of_wants hsize h) (ChunkBuffer.held_addChunk_self cb hc)
    (fun y hy => hy.addChunk hc) (fun y hy => ?_) rfl
  rcases ChunkBuffer.ids_addChunk cb hc with ⟨hids, -⟩ | ⟨hperm, -⟩ | ⟨z, -, -, -, -, hperm⟩
  · exact .inr (hids ▸ hy)
  · exact List.mem_cons.1 (hperm.mem_iff.1 hy)
  · exact (List.mem_cons.1 (hperm.mem_iff.1 hy)).imp id List.mem_of_mem_erase

/-- An offer and its answer. -/
theorem exists_accept_said (hplain : Plain (cfg n) (cfg m)) (hne : n ≠ m) (hop : op.id = m)
    (hw : Between w n m s t []) (h : InStep (cfg m) (clock n) m s t)
    (hcb : ChunkBuffer.getChunks s.cb ≠ []) :
    ∃ w' s' t' acc transId offer, Said (nodes cfg clock)
        [.act n (.sendOffer false [op]), .deliver 0 lossless] w w'
        [(n, m, .signal offer), (m, n, .signal (.accept acc transId))] ∧
      Between w' m n t' s' [(m, n, .signal (.accept acc transId))] ∧
      s'.cb = s.cb ∧ s'.pset = s.pset ∧ Rated (clock n) s' ∧ t'.cb = t.cb ∧
      AcceptsOne (Wants (ChunkBuffer.ids t.cb) (cfg m).cbSize)
        (ChunkIDSet.ids (composeOfferCset (cfg n) op.rtt s.cb : S)) (ChunkIDSet.ids acc)
        t'.locks.ids := by
  obtain ⟨p, bmap, hp, -⟩ := h.record
  obtain ⟨s', transId, hact, hcbs, hpset, hrated⟩ :=
    act_sendOffer (S := S) (clock n) hplain.one n hp hcb op
  rw [hop] at hact
  obtain ⟨w₁, hsaid₁, hw₁⟩ := hw.act (nodes cfg clock) hne (congrArg Except.ok hact)
  obtain ⟨t', acc, hoffer, hcbt, hone⟩ := handle_offer (clock m) lossless n transId
    hplain.unlimitedTo h.unlocked
    (composeOfferCset (cfg n) op.rtt s.cb : S)
  obtain ⟨w', hsaid', hw'⟩ := hw₁.deliver (nodes cfg clock) lossless hne hoffer
  exact ⟨w', s', t', acc, transId, _, hsaid₁.append hsaid', hw'.symm, hcbs, hpset,
    h.rated.unrated hrated, hcbt, hone⟩

/-- An accepted chunk is sent, stored and acknowledged. -/
theorem exists_chunk_said (hplain : Plain (cfg n) (cfg m)) (hne : n ≠ m) {acc : S}
    {transId : UInt16} (hw : Between w m n t s [(m, n, .signal (.accept acc transId))])
    {x : Int} (hacc : ChunkIDSet.ids acc = [x]) (hrated : Rated (clock n) s) {p : Peer N S}
    {bmap : S} (hp : getPeer s.pset m = some p) (hbmap : p.bmap = some bmap)
    (hwants : Wants (ChunkIDSet.ids bmap) p.cbSize x) {c : Chunk}
    (hc : ChunkBuffer.getChunk s.cb x = some c) :
    ∃ w' s' t' d sig, Said (nodes cfg clock) (List.replicate 3 (.deliver 0 lossless)) w w'
        [(n, m, .chunk d transId), (m, n, .signal sig)] ∧ Between w' n m s' t' [] ∧
      d.id = x ∧ t'.cb = (ChunkBuffer.addChunk t.cb (chunkAttributesUpdateReceived d)).2 ∧
      t'.locks = ChunkLock.chunkUnlock x t.locks ∧
      s'.cb = ChunkBuffer.update s.cb x chunkAttributesUpdateSending ∧ Rated (clock n) s' ∧
      ∃ q bmap', getPeer s'.pset m = some q ∧ q.bmap = some bmap' ∧
        (ChunkIDSet.ids bmap').Perm (ChunkBuffer.ids t'.cb) ∧ q.cbSize = p.cbSize := by
  obtain ⟨s₁, p₁, hhandle₁, hcb₁, hp₁, hbmap₁, hsize₁⟩ := handle_accept_one (clock n)
    lossless m transId hplain.unlimited rfl hacc hp hbmap hwants hc
  have hrated₁ := rated_handle hplain.tuned hrated hhandle₁
  obtain ⟨w₁, hsaid₁, hw₁⟩ := hw.deliver (nodes cfg clock) lossless hne.symm hhandle₁
  obtain ⟨t', hhandle₂, hcbt, hlocks⟩ := handle_chunk (S := S) (cfg m) (clock m) lossless n
    transId rfl (chunkAttributesUpdateSending c) t
  obtain ⟨w₂, hsaid₂, hw₂⟩ := hw₁.symm.deliver (nodes cfg clock) lossless hne hhandle₂
  obtain ⟨s', q, bmap', hhandle₃, hcb', hq, hbmap', hids, hsize⟩ := handle_ack lossless m transId
    hplain.tuned hrated₁ (nodup_cbToBmap (S := S) t'.cb) hp₁ hbmap₁
  have hrated' := rated_handle hplain.tuned hrated₁ hhandle₃
  obtain ⟨w', hsaid₃, hw'⟩ := hw₂.symm.deliver (nodes cfg clock) lossless hne.symm hhandle₃
  rw [chunkAttributesUpdateSending_id, (ChunkBuffer.getChunk_some hc).1] at hlocks
  refine ⟨w', s', t', _, _, hsaid₁.append (hsaid₂.append hsaid₃), hw'.symm, ?_, hcbt, hlocks,
    hcb'.trans hcb₁, hrated', q, bmap', hq, hbmap', hids.trans (ids_cbToBmap t'.cb),
    hsize.trans hsize₁⟩
  rw [chunkAttributesUpdateSending_id, (ChunkBuffer.getChunk_some hc).1]

/-- An exchange keeps the nodes in step, and brings a wanted chunk if there is one. -/
theorem exchange_outcome (hplain : Plain (cfg n) (cfg m)) (hne : n ≠ m) (hop : op.id = m)
    (hw : Between w n m s t []) (h : InStep (cfg m) (clock n) m s t) :
    ∃ w' s' t' said, Said (nodes cfg clock) (exchange n op) w w' said ∧ Between w' n m s' t' [] ∧
      InStep (cfg m) (clock n) m s' t' ∧
      (composeOfferCset (cfg n) op.rtt s'.cb : S) = composeOfferCset (cfg n) op.rtt s.cb ∧
      Outcome (cfg m).cbSize (ChunkIDSet.ids (composeOfferCset (cfg n) op.rtt s.cb : S)) t.cb t'.cb
        (chunkIds said) := by
  by_cases hcb : ChunkBuffer.getChunks s.cb = []
  · -- there is nothing to offer
    have hact : act (S := S) (cfg n) (clock n) n (.sendOffer false [op]) s = (s, []) := by
      rw [act, sendOffer, if_pos (by simp [hcb])]
      rfl
    obtain ⟨w₁, hsaid, hw₁⟩ := hw.act (nodes cfg clock) hne (congrArg Except.ok hact)
    have hempty : ∀ x, x ∉ ChunkIDSet.ids (composeOfferCset (cfg n) op.rtt s.cb : S) := by
      intro x hx
      obtain ⟨c, hc⟩ := exists_getChunk_of_offered hx
      exact absurd (hcb ▸ (ChunkBuffer.getChunk_some hc).2) List.not_mem_nil
    exact ⟨w₁, s, t, [], hsaid.append (hw₁.nothings (nodes cfg clock) lossless 4), hw₁, h, rfl,
      .settled rfl (fun x hx => absurd hx (hempty x)) rfl⟩
  obtain ⟨w₂, s₂, t₂, acc, transId, offer, hsaid₂, hw₂, hcb₂, hpset₂, hrated₂, hcbt₂, hone⟩ :=
    exists_accept_said hplain hne hop hw h hcb
  obtain ⟨p, bmap, hp, hbmap, hids, hcbSize⟩ := h.record
  rw [← hpset₂] at hp
  rcases hone with ⟨hacc, hlocks, hnot⟩ | ⟨x, hx, hwants, hacc, hlocks⟩
  · obtain ⟨s₃, q, hhandle, hcb₃, hq, hqbmap, hqsize⟩ := handle_accept_nil (cfg n) (clock n)
      lossless m transId hacc hp
    obtain ⟨w₃, hsaid₃, hw₃⟩ := hw₂.deliver (nodes cfg clock) lossless hne.symm hhandle
    refine ⟨w₃, s₃, t₂, _, hsaid₂.append (hsaid₃.append
      (hw₃.nothings (nodes cfg clock) lossless 2)), hw₃.symm, ?_, ?_, ?_⟩
    · exact
        { record := ⟨q, bmap, hq, hqbmap.trans hbmap, hcbt₂.symm ▸ hids, hqsize.trans hcbSize⟩
          rated := rated_handle hplain.tuned hrated₂ hhandle
          nonneg := by rw [hcb₃, hcb₂]; exact h.nonneg
          unlocked := hlocks
          size := hcbt₂.symm ▸ h.size }
    · rw [hcb₃, hcb₂]
    · exact .settled hcbt₂ hnot rfl
  · obtain ⟨c, hc⟩ := exists_getChunk_of_offered hx
    have hnonneg : 0 ≤ x := h.nonneg x (by
      obtain ⟨rfl, hmem⟩ := ChunkBuffer.getChunk_some hc
      exact List.mem_map_of_mem hmem)
    have hwants' : Wants (ChunkIDSet.ids bmap) p.cbSize x := by
      rw [hcbSize]
      exact (Wants.perm hids).2 hwants
    rw [← hcb₂] at hc
    obtain ⟨w₃, s₃, t₃, d, sig, hsaid₃, hw₃, rfl, hcbt₃, hlocks₃, hcb₃, hrated₃, q, bmap', hq,
      hqbmap, hqids, hqsize⟩ := exists_chunk_said hplain hne hw₂ hacc hrated₂ hp hbmap hwants' hc
    rw [hcb₂] at hcb₃
    rw [hcbt₂] at hcbt₃
    refine ⟨w₃, s₃, t₃, _, hsaid₂.append hsaid₃, hw₃, ?_, ?_, ?_⟩
    · exact
        { record := ⟨q, bmap', hq, hqbmap, hqids, hqsize.trans hcbSize⟩
          rated := hrated₃
          nonneg := by
            rw [hcb₃, ChunkBuffer.ids_update _ _ chunkAttributesUpdateSending_id]
            exact h.nonneg
          unlocked := by
            have hnodup : t₂.locks.ids.Nodup := hlocks ▸ List.nodup_singleton _
            have hsub := ChunkLock.ids_chunkUnlock_sublist d.id t₂.locks
            have hnot := ChunkLock.not_mem_ids_chunkUnlock (x := d.id) hnodup
            rw [← hlocks₃] at hsub hnot
            rw [hlocks, List.sublist_singleton] at hsub
            exact hsub.resolve_right fun heq => hnot (heq ▸ List.mem_singleton_self _)
          size := by rw [hcbt₃, LawfulChunkBuffer.size_addChunk, h.size] }
    · rw [hcb₃, composeOfferCset_update]
    · have hid := chunkAttributesUpdateReceived_id d
      rw [hcbt₃]
      rw [← hid] at hnonneg hx hwants
      have hpulled := pulled_addChunk h.size hnonneg hx hwants
      rwa [hid] at hpulled

end Exchange

/-! ## As many exchanges as chunks -/

instance (cb : B) : DecidablePred (ChunkBuffer.Held cb) :=
  fun _ => inferInstanceAs (Decidable (_ ∨ _ ∧ _))

/-- How much of an offer a buffer has never held. -/
def missing (offer : List Int) (cb : B) : ℕ :=
  (offer.filter fun x => ¬ ChunkBuffer.Held cb x).length

omit [ChunkIDSet S] [LawfulChunkIDSet S] in
theorem missing_le (offer : List Int) (cb : B) : missing offer cb ≤ offer.length :=
  List.length_filter_le ..

omit [ChunkIDSet S] [LawfulChunkIDSet S] in
theorem held_of_missing {offer : List Int} {cb : B} (h : missing offer cb ≤ 0) {x : Int}
    (hx : x ∈ offer) : ChunkBuffer.Held cb x := by
  have hnil := List.filter_eq_nil_iff.1 (List.length_eq_zero_iff.1 (Nat.le_zero.1 h)) x hx
  simpa using hnil

omit [ChunkIDSet S] [LawfulChunkIDSet S] in
theorem missing_lt {offer : List Int} {cb cb' : B} {x : Int} (hx : x ∈ offer)
    (hnot : ¬ ChunkBuffer.Held cb x) (hheld : ChunkBuffer.Held cb' x)
    (hkeep : ∀ y, ChunkBuffer.Held cb y → ChunkBuffer.Held cb' y) :
    missing offer cb' < missing offer cb := by
  have hsub : (offer.filter fun y => ¬ ChunkBuffer.Held cb' y) =
      (offer.filter fun y => ¬ ChunkBuffer.Held cb y).filter fun y => ¬ ChunkBuffer.Held cb' y := by
    rw [List.filter_filter]
    apply List.filter_congr
    intro y _
    by_cases hy : ChunkBuffer.Held cb y
    · simp [hy, hkeep y hy]
    · simp [hy]
  rw [missing, hsub, missing, List.length_filter_lt_length_iff_exists]
  exact ⟨x, List.mem_filter.2 ⟨hx, by simpa using hnot⟩, by simpa using hheld⟩

/-- Exchanges one after the other. -/
def exchanges (n : N) (op : OfferPeer N) : ℕ → List (Move N (Action N P) Choices)
  | 0 => []
  | k + 1 => exchange n op ++ exchanges n op k

/-- What exchanges have done to the buffer of the neighbour by sending the chunks `sent`. -/
structure CaughtUp (cbSize : Int) (offer : List Int) (cb cb' : B) (sent : List Int) : Prop where
  unwanted : ∀ x ∈ offer, ¬ Wants (ChunkBuffer.ids cb') cbSize x
  keeps : ∀ y, ChunkBuffer.Held cb y → ChunkBuffer.Held cb' y
  ids : ∀ y ∈ ChunkBuffer.ids cb', y ∈ offer ∨ y ∈ ChunkBuffer.ids cb
  once : sent.Nodup
  new : ∀ x ∈ sent, x ∈ offer ∧ ¬ ChunkBuffer.Held cb x

omit [ChunkIDSet S] [LawfulChunkIDSet S] in
/-- One exchange before the others. -/
theorem CaughtUp.cons {cbSize : Int} {offer sent more : List Int} {cb cb₁ cb' : B}
    (h : CaughtUp cbSize offer cb₁ cb' more) (hone : Outcome cbSize offer cb cb₁ sent) :
    CaughtUp cbSize offer cb cb' (sent ++ more) := by
  cases hone with
  | settled hcb hnot hsent =>
    subst hcb hsent
    exact h
  | pulled x hx hwants hnot hheld hkeep hids hsent =>
    subst hsent
    exact
      { unwanted := h.unwanted
        keeps := fun y hy => h.keeps y (hkeep y hy)
        ids := by
          intro y hy
          rcases h.ids y hy with hy | hy
          · exact .inl hy
          · exact (hids y hy).imp (by rintro rfl; exact hx) id
        once := List.nodup_cons.2 ⟨fun hmem => (h.new x hmem).2 hheld, h.once⟩
        new := by
          refine List.forall_mem_cons.2 ⟨⟨hx, hnot⟩, fun y hy => ?_⟩
          exact ⟨(h.new y hy).1, fun hy' => (h.new y hy).2 (hkeep y hy')⟩ }

omit [ChunkIDSet S] [LawfulChunkIDSet S] in
/-- When nothing is farther from a chunk of the offer than the buffer is wide, no such chunk is too
old for the buffer. -/
theorem CaughtUp.mem_ids [LawfulChunkBuffer B] {cbSize : ℕ} {offer sent : List Int} {cb cb' : B}
    (h : CaughtUp cbSize offer cb cb' sent)
    (hspan : ∀ x ∈ offer, ∀ y, y ∈ offer ∨ y ∈ ChunkBuffer.ids cb → y - x < cbSize) {x : Int}
    (hx : x ∈ offer) : x ∈ ChunkBuffer.ids cb' := by
  by_contra hnot
  have hzero : (cbSize : Int) ≠ 0 := by
    have hself := hspan x hx x (.inl hx)
    omega
  have hbelow : BelowWindow (ChunkBuffer.ids cb') cbSize x := by
    by_contra habove
    exact h.unwanted x hx ⟨hzero, hnot, habove⟩
  obtain ⟨z, hz, hmin, hlt⟩ := hbelow
  have hup : ∀ y ∈ ChunkBuffer.ids cb', y - x < cbSize := fun y hy => hspan x hx y (h.ids y hy)
  have hin : (ChunkBuffer.ids cb').toFinset ⊆ Finset.Icc z (x + cbSize - 1) := by
    intro y hy
    have hy := List.mem_toFinset.1 hy
    have hle := hmin y hy
    have hlt := hup y hy
    exact Finset.mem_Icc.2 ⟨hle, by omega⟩
  have hcard := Finset.card_le_card hin
  rw [List.toFinset_card_of_nodup (LawfulChunkBuffer.nodup_ids cb'), Int.card_Icc] at hcard
  have hwide := hup z hz
  omega

section Exchanges

variable [DecidableEq N] [PeerSet P N S] [LawfulPeerSet P N S] [LawfulChunkBuffer B]
  {cfg : N → Config} {clock : N → Clock} {n m : N} {s t : State N B P} {op : OfferPeer N}
  {w : Net N (State N B P) (Message N S)}

/-- The exchanges go on until nothing of the offer is wanted, and then change nothing. -/
theorem exchanges_caughtUp (hplain : Plain (cfg n) (cfg m)) (hne : n ≠ m) (hop : op.id = m) (k : ℕ)
    (hw : Between w n m s t []) (h : InStep (cfg m) (clock n) m s t) {offer : S}
    (hoffer : composeOfferCset (cfg n) op.rtt s.cb = offer)
    (hk : (∀ x ∈ ChunkIDSet.ids offer, ¬ Wants (ChunkBuffer.ids t.cb) (cfg m).cbSize x) ∨
      missing (ChunkIDSet.ids offer) t.cb ≤ k) :
    ∃ w' s' t' said, Said (nodes cfg clock) (exchanges n op k) w w' said ∧
      Between w' n m s' t' [] ∧
      CaughtUp (cfg m).cbSize (ChunkIDSet.ids offer) t.cb t'.cb (chunkIds said) := by
  induction k generalizing w s t with
  | zero =>
    refine ⟨w, s, t, [], .refl _ w, hw, ?_, fun _ hy => hy, fun _ hy => .inr hy, List.nodup_nil,
      by simp [chunkIds]⟩
    rcases hk with hnot | hk
    · exact hnot
    · intro x hx hwants
      exact not_held_of_wants h.size hwants (held_of_missing hk hx)
  | succ k ih =>
    obtain ⟨w₁, s₁, t₁, said₁, hsaid₁, hw₁, h₁, hoffer₁, hone⟩ :=
      exchange_outcome hplain hne hop hw h
    rw [hoffer] at hoffer₁ hone
    have hk₁ : (∀ x ∈ ChunkIDSet.ids offer, ¬ Wants (ChunkBuffer.ids t₁.cb) (cfg m).cbSize x) ∨
        missing (ChunkIDSet.ids offer) t₁.cb ≤ k := by
      cases hone with
      | settled hcb hnot hsent => exact .inl (hcb ▸ hnot)
      | pulled x hx hwants hnot hheld hkeep hids hsent =>
        have hlt := missing_lt hx hnot hheld hkeep
        have hle := hk.resolve_left fun hall => hall x hx hwants
        exact .inr (by omega)
    obtain ⟨w', s', t', said', hsaid', hw', hcaught⟩ := ih hw₁ h₁ hoffer₁ hk₁
    refine ⟨w', s', t', said₁ ++ said', hsaid₁.append hsaid', hw', ?_⟩
    rw [chunkIds_append]
    exact hcaught.cons hone

/-- The neighbour tells what it has, and the exchanges follow. -/
def advertised (n m : N) (op : OfferPeer N) (k : ℕ) : List (Move N (Action N P) Choices) :=
  [.act m (.sendBmap n), .deliver 0 lossless] ++ exchanges n op k

/-- What a node knows of a neighbour that has sent its buffer map. -/
theorem exists_inStep (cfg : N → Config) (clock : N → Clock) (hsource : (cfg m).source = false)
    (hne : n ≠ m) (hw : Between w n m s t []) {p : Peer N S} (hp : getPeer s.pset m = some p)
    (hbmap : p.bmap.isSome) (htuned : Tuned (cfg n).rate) (hrated : Rated (clock n) s)
    (hnonneg : ∀ x ∈ ChunkBuffer.ids s.cb, 0 ≤ x) (hunlocked : t.locks.ids = [])
    (hsize : ChunkBuffer.size t.cb = (cfg m).cbSize) :
    ∃ w' s' said, Said (nodes cfg clock) [.act m (.sendBmap n), .deliver 0 lossless] w w' said ∧
      Between w' n m s' t [] ∧ s'.cb = s.cb ∧ chunkIds said = [] ∧
      InStep (cfg m) (clock n) m s' t := by
  obtain ⟨w₁, hsaid₁, hw₁⟩ := hw.symm.act (nodes cfg clock) hne.symm (a := .sendBmap n) rfl
  obtain ⟨s', q, bmap, hhandle, hcb, hq, hqbmap, hids, hcbSize⟩ := handle_bufferMap (cfg n)
    (clock n) lossless m 0 (nodup_cbToBmap (S := S) t.cb) (cfg m).cbSize hp hbmap
  have hhandle' : (nodes cfg clock).handle n lossless m (sendBmap (S := S) (cfg m) m n t).2 s =
      .ok (s', []) := by
    simp only [sendBmap, hsource]
    exact hhandle
  obtain ⟨w', hsaid', hw'⟩ := hw₁.deliver (nodes cfg clock) lossless hne.symm hhandle'
  refine ⟨w', s', _, hsaid₁.append hsaid', hw'.symm, hcb, rfl, ?_⟩
  exact
    { record := ⟨q, bmap, hq, hqbmap, hids.trans (ids_cbToBmap t.cb), hcbSize⟩
      rated := rated_handle htuned hrated hhandle
      nonneg := hcb.symm ▸ hnonneg
      unlocked := hunlocked
      size := hsize }

/-- A node that has told a neighbour what it has gets, in exchanges without losses, everything the
neighbour offers that its buffer has room for: after as many exchanges as the offer has chunks it
needs none of them.  It keeps or gives up for later chunks what it had, and is sent no chunk twice
and none that it had.  When the chunks are closer to each other than the buffer is wide, it has them
all. -/
theorem catches_up (cfg : N → Config) (clock : N → Clock) {n m : N} (hne : n ≠ m)
    (hplain : Plain (cfg n) (cfg m)) (hsource : (cfg m).source = false) (op : OfferPeer N)
    (hop : op.id = m) (w : Net N (State N B P) (Message N S)) (hflight : w.flight = [])
    {p : Peer N S} (hp : getPeer (w.states n).pset m = some p) (hbmap : p.bmap.isSome)
    (hrated : Rated (clock n) (w.states n))
    (hnonneg : ∀ x ∈ ChunkBuffer.ids (w.states n).cb, 0 ≤ x)
    (hunlocked : (w.states m).locks.ids = [])
    (hsize : ChunkBuffer.size (w.states m).cb = (cfg m).cbSize) {offer : S}
    (hoffer : composeOfferCset (cfg n) op.rtt (w.states n).cb = offer) (k : ℕ)
    (hk : ChunkIDSet.size offer ≤ k) :
    ∃ w' sent, Run.run (Network.step (nodes cfg clock)) (advertised n m op k) w = .ok (w', sent) ∧
      w'.flight = [] ∧
      (∀ x ∈ ChunkIDSet.ids offer, ∀ j, (_needs (cfg m) (clock m) (w'.states m).cb
        (cbToBmap (w'.states m).cb : S) (cfg m).cbSize x j).1 = false) ∧
      (∀ x, ChunkBuffer.Held (w.states m).cb x → ChunkBuffer.Held (w'.states m).cb x) ∧
      (chunkIds (letters sent)).Nodup ∧
      (∀ x ∈ chunkIds (letters sent),
        x ∈ ChunkIDSet.ids offer ∧ ¬ ChunkBuffer.Held (w.states m).cb x) ∧
      ((∀ x ∈ ChunkIDSet.ids offer, ∀ y,
          y ∈ ChunkIDSet.ids offer ∨ y ∈ ChunkBuffer.ids (w.states m).cb →
            y - x < (cfg m).cbSize) →
        ∀ x ∈ ChunkIDSet.ids offer, x ∈ ChunkBuffer.ids (w'.states m).cb) := by
  have hw : Between w n m (w.states n) (w.states m) [] := ⟨rfl, rfl, by rw [hflight]; rfl⟩
  obtain ⟨w₁, s₁, said₁, hsaid₁, hw₁, hcb₁, hnone, h₁⟩ :=
    exists_inStep cfg clock hsource hne hw hp hbmap hplain.tuned hrated hnonneg hunlocked hsize
  have hmissing : missing (ChunkIDSet.ids offer) (w.states m).cb ≤ k := by
    have hle := missing_le (ChunkIDSet.ids offer) (w.states m).cb
    rw [ChunkIDSet.length_ids] at hle
    exact hle.trans hk
  rw [← hcb₁] at hoffer
  obtain ⟨w', s', t', said', hsaid', hw', hcaught⟩ :=
    exchanges_caughtUp hplain hne hop k hw₁ h₁ hoffer (.inr hmissing)
  obtain ⟨sent, hrun, hsent⟩ := hsaid₁.append hsaid'
  have hids : chunkIds (letters sent) = chunkIds said' := by
    rw [hsent, chunkIds_append, hnone, List.nil_append]
  rw [← hw'.right, ← hids] at hcaught
  refine ⟨w', sent, hrun, List.map_eq_nil_iff.1 hw'.flight, ?_, hcaught.keeps, hcaught.once,
    hcaught.new, fun hspan x hx => hcaught.mem_ids hspan hx⟩
  intro x hx j
  rw [← Bool.not_eq_true, _needs_iff hplain.unlimitedTo, Wants.perm (ids_cbToBmap _)]
  exact hcaught.unwanted x hx

end Exchanges

/-- Three chunks a second apart; the first one is not offered. -/
def spaced : ListBuffer :=
  ⟨[⟨1, 1000, [], []⟩, ⟨2, 1001000, [], []⟩, ⟨3, 2001000, [], []⟩], 10, by decide, by decide⟩

/-- The node 0 has chunks and knows the node 1, which has none. -/
def staged : Net ℕ (State ℕ ListBuffer (ListPeers ℕ ListIDSet)) (Message ℕ ListIDSet) :=
  .init fun n => if n = 0 then { observer with cb := spaced } else starting plainConfig

theorem catches_up_staged :
    ∃ w' sent, Run.run (Network.step (nodes (fun _ => plainConfig) fun _ => stillClock))
        (advertised 0 1 ⟨1, some (1 / 10), 0⟩ 2) staged = .ok (w', sent) ∧
      (chunkIds (letters sent)).Nodup ∧ 2 ∈ ChunkBuffer.ids (w'.states 1).cb ∧
      3 ∈ ChunkBuffer.ids (w'.states 1).cb := by
  have hoffer : composeOfferCset plainConfig (some (1 / 10)) spaced =
      (⟨[3, 2]⟩ : ListIDSet) := by decide +kernel
  have hplain : Plain plainConfig plainConfig := by
    refine ⟨by decide, by decide, rfl, ?_⟩
    constructor <;> norm_num [plainConfig]
  have hrated : Rated stillClock (staged.states 0) :=
    ⟨forward_stillClock, ⟨by decide, by decide⟩, by decide, zero_le_one, le_refl 1⟩
  obtain ⟨w', sent, hrun, -, -, -, hnodup, -, hall⟩ := catches_up (fun _ => plainConfig)
    (fun _ => stillClock) zero_ne_one hplain rfl ⟨1, some (1 / 10), 0⟩ rfl staged rfl rfl rfl hrated
    (by decide) rfl rfl hoffer 2 (by decide)
  have hspan : ∀ x ∈ ChunkIDSet.ids (⟨[3, 2]⟩ : ListIDSet), ∀ y,
      y ∈ ChunkIDSet.ids (⟨[3, 2]⟩ : ListIDSet) ∨
        y ∈ ChunkBuffer.ids (staged.states 1).cb → y - x < (plainConfig.cbSize : Int) := by
    have hempty : ChunkBuffer.ids (staged.states 1).cb = [] := rfl
    simp only [ListIDSet.ids_eq, hempty, List.not_mem_nil, or_false]
    decide
  exact ⟨w', sent, hrun, hnodup, hall hspan 2 (by decide), hall hspan 3 (by decide)⟩

end PeerStreamer.Overlay
