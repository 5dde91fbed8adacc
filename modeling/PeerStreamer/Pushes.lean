import PeerStreamer.Lib.Run
import PeerStreamer.StreamingProof

/-!
# Each chunk is sent to a peer once

A node records in a peer's buffer map what it has sent to it, and sends what the map does not have.
So between two messages that replace the map no chunk goes to the peer twice, neither as a push nor
as the answer to an accept (`sent_once`).  The invariant is that the map has everything that was
sent since it was replaced (`SentOnce`).
-/

namespace PeerStreamer.Streaming

variable {N B P S : Type} [DecidableEq N] {cfg : Config} {clock : Clock} {q : N}
  {s s' : State N B P} {events more : List (Event N S)}

/-- The ids of the chunks that were successfully sent to `q`, in order. -/
def sentTo (q : N) (events : List (Event N S)) : List Int :=
  events.filterMap fun e => match e with
    | .sendChunk toid c _ true => if toid = q then some c.id else none
    | _ => none

theorem sentTo_append (q : N) (events more : List (Event N S)) :
    sentTo q (events ++ more) = sentTo q events ++ sentTo q more :=
  List.filterMap_append

theorem sentTo_locked (q : N) {events : List (Event N S)}
    (h : ∀ e ∈ events, ∃ x t, e = .locked x t) : sentTo q events = [] := by
  rw [sentTo, List.filterMap_eq_nil_iff]
  intro e he
  obtain ⟨x, t, rfl⟩ := h e he
  rfl

theorem sentTo_offerLoop [ChunkIDSet S] [ChunkBuffer B] (q : N) (ps : List (OfferPeer N))
    (s : State N B P) :
    sentTo q (offerLoop (S := S) cfg clock ps s).2 = [] := by
  induction ps generalizing s with
  | nil => rfl
  | cons p ps ih => exact (sentTo_append q _ _).trans (ih _)

variable [PeerSet P N S]

/-- The buffer map recorded for `q`. -/
def bmapOf (pset : P) (q : N) : Option S := (PeerSet.getPeer pset q).bind Peer.bmap

/-! ## The invariant -/

section Invariant

variable [ChunkIDSet S]

/-- The buffer map of `q` has all chunks that were sent to it, and none was sent twice. -/
structure SentOnce (q : N) (s : State N B P) (events : List (Event N S)) : Prop where
  recorded : ∃ bmap, bmapOf s.pset q = some bmap ∧
    ∀ x ∈ sentTo q events, x ∈ ChunkIDSet.ids bmap
  nodup : (sentTo q events).Nodup

/-- Nothing is sent to `q`, and its buffer map loses nothing. -/
structure Keeps (q : N) (s s' : State N B P) (events : List (Event N S)) : Prop where
  bmap : ∀ b, bmapOf s.pset q = some b →
    ∃ b', bmapOf s'.pset q = some b' ∧ ∀ x ∈ ChunkIDSet.ids b, x ∈ ChunkIDSet.ids b'
  silent : sentTo q events = []

theorem Keeps.of_bmapOf (hb : bmapOf s'.pset q = bmapOf s.pset q) (he : sentTo q events = []) :
    Keeps q s s' events :=
  ⟨fun b h => ⟨b, hb.trans h, fun _ hx => hx⟩, he⟩

theorem Keeps.refl (q : N) (s : State N B P) : Keeps q s s ([] : List (Event N S)) :=
  .of_bmapOf rfl rfl

theorem SentOnce.keeps (h : SentOnce q s events) (hk : Keeps q s s' more) :
    SentOnce q s' (events ++ more) := by
  obtain ⟨b, hb, hsent⟩ := h.recorded
  obtain ⟨b', hb', hsub⟩ := hk.bmap b hb
  have hsame : sentTo q (events ++ more) = sentTo q events := by
    rw [sentTo_append, hk.silent, List.append_nil]
  exact ⟨⟨b', hb', fun x hx => hsub x (hsent x (hsame ▸ hx))⟩, hsame ▸ h.nodup⟩

theorem keeps_sendOffer [ChunkBuffer B] (q : N) (skipped : Bool) (selected : List (OfferPeer N))
    (s : State N B P) : Keeps q s (sendOffer cfg clock skipped selected s).1
      (sendOffer cfg clock skipped selected s).2 := by
  unfold sendOffer
  split_ifs
  · exact .refl q s
  · exact .of_bmapOf (by rw [pset_offerLoop]) (sentTo_offerLoop q selected s)

end Invariant

/-! ## Stores to the peers' records -/

variable [LawfulPeerSet P N S]

/-- A store to another peer's record leaves the buffer map of `q` alone. -/
theorem bmapOf_update_of_ne (pset : P) {n : N} {f : Peer N S → Peer N S}
    (hf : ∀ p, (f p).id = p.id) (hne : q ≠ n) :
    bmapOf (PeerSet.update pset n f) q = bmapOf pset q := by
  rw [bmapOf, bmapOf, PeerSet.getPeer_update pset n q hf]
  cases PeerSet.getPeer pset q with
  | none => rfl
  | some p => simp [hne]

/-- A store that changes the buffer map of `q` by `g`. -/
theorem bmapOf_update_self (pset : P) {f : Peer N S → Peer N S} {g : S → S}
    (hf : ∀ p, (f p).id = p.id) (hg : ∀ p, (f p).bmap = p.bmap.map g) :
    bmapOf (PeerSet.update pset q f) q = (bmapOf pset q).map g := by
  rw [bmapOf, bmapOf, PeerSet.getPeer_update pset q q hf]
  cases PeerSet.getPeer pset q with
  | none => rfl
  | some p => simp [hg]

section Stores

variable [ChunkIDSet S]

/-- A store that neither touches the buffer maps nor the node IDs, or goes to another peer. -/
theorem keeps_updatePeer (clock : Clock) {n : N} {f : Timeval → Peer N S → Peer N S}
    (hid : ∀ t p, (f t p).id = p.id)
    (hf : q ≠ n ∨ ∀ t p, (f t p).bmap = p.bmap) (s : State N B P) :
    Keeps q s (updatePeer clock n f s) ([] : List (Event N S)) := by
  unfold updatePeer
  split
  · exact .refl q s
  · refine .of_bmapOf ?_ rfl
    by_cases hn : q = n
    · subst hn
      have hsame := hf.resolve_left fun h => h rfl
      have := bmapOf_update_self (q := q) (g := id) s.pset (hid (clock.read s.reads)) fun p => by
        rw [hsame, Option.map_id_fun, id]
      rwa [Option.map_id_fun, id] at this
    · exact bmapOf_update_of_ne s.pset (hid (clock.read s.reads)) hn

theorem keeps_ackReceived {fromid : N} (hne : q ≠ fromid) {cset : S} {transId : UInt16}
    (h : ackReceived cfg clock fromid cset transId s = .ok (s', more)) : Keeps q s s' more := by
  have hpeer := keeps_updatePeer clock (n := fromid) (f := resetBmap cset)
    (fun _ _ => rfl) (Or.inl hne) s
  obtain ⟨t, r, n, -, rfl, rfl⟩ := ackReceived_ok h
  exact ⟨hpeer.bmap, rfl⟩

variable [LawfulChunkIDSet S]

/-- A store that adds a chunk to some peer's buffer map takes nothing away from `q`. -/
theorem bmapOf_update_add (pset : P) {n : N} {x : Int} {f : Peer N S → Peer N S}
    (hf : ∀ p, (f p).id = p.id)
    (hg : ∀ p, (f p).bmap = p.bmap.map fun bmap => ChunkIDSet.add bmap x) {b : S}
    (hb : bmapOf pset q = some b) : ∃ b', bmapOf (PeerSet.update pset n f) q = some b' ∧
      ∀ y ∈ ChunkIDSet.ids b, y ∈ ChunkIDSet.ids b' := by
  by_cases hn : q = n
  · subst hn
    refine ⟨ChunkIDSet.add b x, ?_, fun y hy => ChunkIDSet.mem_add_of_mem x hy⟩
    rw [bmapOf_update_self pset hf hg, hb, Option.map_some]
  · exact ⟨b, (bmapOf_update_of_ne pset hf hn).trans hb, fun _ hy => hy⟩

theorem keeps_regSender (clock : Clock) (q fromid : N) (cid : Int) (s : State N B P) :
    Keeps q s (regSender clock fromid cid s) ([] : List (Event N S)) := by
  unfold regSender
  split
  · exact .refl q s
  · refine ⟨fun b hb => ?_, rfl⟩
    exact bmapOf_update_add (x := cid) s.pset (by intro p; rfl) (by intro p; rfl) hb

/-! ## Sending -/

variable [ChunkBuffer B]

/-- Sending a chunk that the peer does not have, as far as its buffer map is known. -/
theorem SentOnce.transmit (h : SentOnce q s events) {toid : N} {c : Chunk} (transId : UInt16)
    (sent : Bool) (hneed : ∀ b, bmapOf s.pset toid = some b → c.id ∉ ChunkIDSet.ids b) :
    SentOnce q (transmit toid c transId sent s).1
      (events ++ (transmit toid c transId sent s).2) := by
  cases sent with
  | false => exact h.keeps (.of_bmapOf rfl rfl)
  | true =>
    obtain ⟨b, hb, hsent⟩ := h.recorded
    by_cases hto : toid = q
    · subst hto
      have hone : sentTo toid (Streaming.transmit toid c transId true s).2 = [c.id] := by
        simp [sentTo, Streaming.transmit]
      have hb' : bmapOf (Streaming.transmit toid c transId true s).1.pset toid =
          some (ChunkIDSet.add b c.id) := by
        have := bmapOf_update_self (q := toid) (f := addToBmap c.id) s.pset
          (fun _ => rfl) fun _ => rfl
        exact this.trans (by rw [hb, Option.map_some])
      have hnew := hneed b hb
      constructor
      · refine ⟨_, hb', fun x hx => ?_⟩
        rw [sentTo_append, hone, List.mem_append, List.mem_singleton] at hx
        rcases hx with hx | rfl
        · exact ChunkIDSet.mem_add_of_mem _ (hsent x hx)
        · exact ChunkIDSet.mem_add_self b c.id
      · rw [sentTo_append, hone, List.nodup_append]
        refine ⟨h.nodup, List.nodup_singleton _, ?_⟩
        intro x hx y hy hxy
        rw [List.mem_singleton] at hy
        exact hnew (hy ▸ hxy ▸ hsent x hx)
    · refine h.keeps ⟨fun b hb => ?_, ?_⟩
      · exact bmapOf_update_add (x := c.id) s.pset (by intro p; rfl) (by intro p; rfl) hb
      · simp [sentTo, Streaming.transmit, hto]

/-- One round of the loop that answers an accept: it tests what the peer has in every round. -/
theorem SentOnce.sendAcceptedOne [LawfulChunkBuffer B] (toid : N) (transId : UInt16) (x : Int)
    (sent : Bool) {a : Sending N B P S} (h : SentOnce q a.s (events ++ a.events)) :
    SentOnce q (sendAcceptedOne cfg clock toid transId x sent a).s
      (events ++ (sendAcceptedOne cfg clock toid transId x sent a).events) := by
  obtain ⟨n, -, hone | ⟨c, d, hget, hneed, hone⟩⟩ :=
    sendAcceptedOne_cases cfg clock toid transId x sent a
  all_goals
    have hread : SentOnce q { a.s with reads := n } (events ++ a.events) :=
      ⟨h.recorded, h.nodup⟩
    rw [hone]
  · exact hread
  · have hid : c.id = x := (ChunkBuffer.getChunk_some hget).1
    rw [← List.append_assoc]
    apply hread.transmit transId sent
    intro b hb
    obtain ⟨p, hp, hpb⟩ := Option.bind_eq_some_iff.1 hb
    have hp' : PeerSet.getPeer a.s.pset toid = some p := hp
    rw [mayNeed, hp'] at hneed
    exact hid ▸ needs_spec hneed hpb

theorem SentOnce.acceptReceived [LawfulChunkBuffer B] (h : SentOnce q s events) (fromid : N)
    (cset : S) (maxDeliver : Int) (transId : UInt16) (sent : ℕ → Bool) :
    SentOnce q (acceptReceived cfg clock fromid cset maxDeliver transId sent s).1
      (events ++ (acceptReceived cfg clock fromid cset maxDeliver transId sent s).2) := by
  have hpeer := h.keeps (keeps_updatePeer clock (n := fromid)
    (f := fun now p => { p with bmapTimestamp := now }) (fun _ _ => rfl)
    (Or.inr fun _ _ => rfl) s)
  exact sendAcceptedLoop_invariant (I := fun a => SentOnce q a.s (events ++ a.events))
    (fun x sent _ h => h.sendAcceptedOne fromid transId x sent) cset maxDeliver sent _
    ⟨hpeer.recorded, hpeer.nodup⟩

/-- The scheduler returns a peer and a chunk for which the filter `needs` said yes. -/
def Scheduled (cfg : Config) (clock : Clock) (s : State N B P) : Input N P S → Prop
  | .sendChunk (some (n, cid)) _ => ∃ p k, PeerSet.getPeer s.pset n = some p ∧
      (needs cfg clock s.cb p cid k).1 = true
  | _ => True

theorem SentOnce.sendChunk [LawfulChunkBuffer B] (h : SentOnce q s events)
    {pair : Option (N × Int)} {sent : Bool}
    (hsched : Scheduled cfg clock s (.sendChunk pair sent)) :
    SentOnce q (sendChunk pair sent s).1 (events ++ (sendChunk pair sent s).2) := by
  have hkeep := h.keeps (.refl q s)
  unfold Streaming.sendChunk
  split_ifs
  · exact hkeep
  · rcases pair with _ | ⟨n, cid⟩
    · exact hkeep
    · dsimp only
      split
      · exact hkeep
      · rename_i c hget
        have hid : c.id = cid := (ChunkBuffer.getChunk_some hget).1
        obtain ⟨p, k, hp, hneed⟩ := hsched
        apply h.transmit 0 sent
        intro b hb
        obtain ⟨p', hp', hpb⟩ := Option.bind_eq_some_iff.1 hb
        obtain rfl : p = p' := Option.some_inj.1 (hp.symm.trans hp')
        exact hid ▸ needs_spec hneed hpb

/-! ## Functions that send no chunk -/

theorem keeps_receivedChunk (q fromid : N) (msg : Option (Chunk × UInt16)) (ackSkipped : Bool)
    (s : State N B P) : Keeps q s (receivedChunk clock fromid msg ackSkipped s).1
      (receivedChunk clock fromid msg ackSkipped s).2 := by
  rcases msg with _ | ⟨c, transId⟩
  · exact .refl q s
  · have hreg := keeps_regSender clock q fromid (chunkAttributesUpdateReceived c).id
      { s with
        locks := ChunkLock.chunkUnlock (chunkAttributesUpdateReceived c).id s.locks
        cb := (ChunkBuffer.addChunk s.cb (chunkAttributesUpdateReceived c)).2 }
    exact ⟨hreg.bmap, by cases ackSkipped <;> rfl⟩

theorem keeps_offerReceived {fromid : N} (hne : q ≠ fromid) (cset : S) (maxDeliver : Int)
    (transId : UInt16) (s : State N B P) :
    Keeps q s (offerReceived cfg clock fromid cset maxDeliver transId s).1
      (offerReceived cfg clock fromid cset maxDeliver transId s).2 := by
  have hpeer := keeps_updatePeer clock (n := fromid) (f := resetBmap cset)
    (fun _ _ => rfl) (Or.inl hne) s
  have hacc := getChunksToAccept_spec cfg clock fromid cset maxDeliver
    (updatePeer clock fromid (resetBmap cset) s)
  refine ⟨fun b hb => ?_, ?_⟩
  · show ∃ b', bmapOf (getChunksToAccept _ _ _ _ _ _).s.pset q = some b' ∧ _
    rw [hacc.pset]
    exact hpeer.bmap b hb
  · exact (sentTo_append q _ _).trans (by rw [sentTo_locked q hacc.locked]; rfl)

/-! ## Runs -/

/-- A message from `q` that replaces its buffer map. -/
def Input.Resets (q : N) : Input N P S → Prop
  | .signal fromid (some (.bufferMap _ _ _ _)) _ => fromid = q
  | .signal fromid (some (.offer _ _ _)) _ => fromid = q
  | .signal fromid (some (.ack _ _)) _ => fromid = q
  | _ => False

/-- The topology manager leaves `q` with its buffer map among the peers. -/
def Stays (q : N) (s : State N B P) : Input N P S → Prop
  | .updatePeers pset => bmapOf pset q = bmapOf s.pset q
  | _ => True

/-- Every reaction keeps the invariant until the buffer map of `q` is replaced. -/
theorem SentOnce.step [LawfulChunkBuffer B] (h : SentOnce q s events) {input : Input N P S}
    (hsched : Scheduled cfg clock s input) (hreset : ¬ input.Resets q) (hstay : Stays q s input)
    (hstep : step cfg clock input s = .ok (s', more)) : SentOnce q s' (events ++ more) := by
  cases input with
  | chunk fromid msg ackSkipped =>
    obtain ⟨rfl, rfl⟩ := Prod.mk.inj (Except.ok.inj hstep)
    exact h.keeps (keeps_receivedChunk q fromid msg ackSkipped s)
  | signal fromid msg sent =>
    rcases msg with _ | msg
    · obtain ⟨rfl, rfl⟩ := Prod.mk.inj (Except.ok.inj hstep)
      exact h.keeps (.refl q s)
    cases msg with
    | bufferMap ownerid cset cbSize transId =>
      obtain ⟨rfl, rfl⟩ := Prod.mk.inj (Except.ok.inj hstep)
      have howner : (if fromid = ownerid then ownerid else fromid) = fromid := by
        split_ifs with heq
        · exact heq.symm
        · rfl
      refine h.keeps (keeps_updatePeer clock (by intro t p; rfl) (Or.inl ?_) s)
      rw [howner]
      exact fun heq => hreset heq.symm
    | offer cset maxDeliver transId =>
      obtain ⟨rfl, rfl⟩ := Prod.mk.inj (Except.ok.inj hstep)
      exact h.keeps (keeps_offerReceived (fun heq => hreset heq.symm) cset maxDeliver transId s)
    | accept cset transId =>
      obtain ⟨rfl, rfl⟩ := Prod.mk.inj (Except.ok.inj hstep)
      exact h.acceptReceived fromid cset _ transId sent
    | ack cset transId =>
      exact h.keeps (keeps_ackReceived (fun heq => hreset heq.symm) hstep)
    | other =>
      obtain ⟨rfl, rfl⟩ := Prod.mk.inj (Except.ok.inj hstep)
      exact h.keeps (.refl q s)
  | sendChunk pair sent =>
    obtain ⟨rfl, rfl⟩ := Prod.mk.inj (Except.ok.inj hstep)
    exact h.sendChunk hsched
  | sendOffer skipped selected =>
    obtain ⟨rfl, rfl⟩ := Prod.mk.inj (Except.ok.inj hstep)
    exact h.keeps (keeps_sendOffer q skipped selected s)
  | addChunk c =>
    obtain ⟨rfl, rfl⟩ := Prod.mk.inj (Except.ok.inj hstep)
    exact h.keeps (.of_bmapOf rfl rfl)
  | updatePeers pset =>
    obtain ⟨rfl, rfl⟩ := Prod.mk.inj (Except.ok.inj hstep)
    exact h.keeps (.of_bmapOf hstay rfl)

/-- Between two messages that replace the buffer map of a peer that stays, no chunk is sent to it
twice. -/
theorem sent_once [LawfulChunkBuffer B] (cfg : Config) (clock : Clock) (q : N)
    (inputs : List (Input N P S)) (s₀ s : State N B P) (events : List (Event N S))
    (hbmap : (bmapOf s₀.pset q).isSome)
    (hsched : Run.Along (step cfg clock) (Scheduled cfg clock) inputs s₀)
    (hreset : ∀ i ∈ inputs, ¬ i.Resets q)
    (hstay : Run.Along (step cfg clock) (Stays q) inputs s₀)
    (h : Run.run (step cfg clock) inputs s₀ = .ok (s, events)) : (sentTo q events).Nodup := by
  have hquiet : Run.Along (step cfg clock) (fun _ i => ¬ i.Resets q) inputs s₀ :=
    .of_forall fun i hi _ => hreset i hi
  have hinv := Run.invariant (fun _ s events => SentOnce q s events) ?_ ?_
    ((hsched.and hquiet).and hstay) h
  · exact hinv.nodup
  · obtain ⟨b, hb⟩ := Option.isSome_iff_exists.1 hbmap
    exact ⟨⟨b, hb, nofun⟩, List.nodup_nil⟩
  · intro pre i s out s' more hs hi hstep
    exact hs.step hi.1.1 hi.1.2 hi.2 hstep

end Stores

/-- A node with one peer. -/
def onePeer : ListPeers ℕ ListIDSet := ListPeers.empty.add 1 (.ofUsec 0)

/-- Chunk 5 is pushed to the peer, which then accepts it and chunk 6, each of them twice over. -/
def pushedAndAccepted : List (Input ℕ (ListPeers ℕ ListIDSet) ListIDSet) :=
  [.addChunk ⟨5, 0, [1], []⟩, .addChunk ⟨6, 0, [1], []⟩, .sendChunk (some (1, 5)) true,
    .signal 1 (some (.accept ⟨[6, 5, 6, 5]⟩ 7)) fun _ => true,
    .signal 1 (some (.accept five 7)) fun _ => true]

theorem sent_once_pushedAndAccepted : ∃ s events,
    Run.run (step plainConfig stillClock) pushedAndAccepted
      (State.init plainConfig onePeer (.ofUsec 500000) : State ℕ ListBuffer _) =
        .ok (s, events) ∧ (sentTo 1 events).Nodup := by
  obtain ⟨s, events, hrun⟩ := run_total (B := ListBuffer) plainConfig stillClock pushedAndAccepted
    (by simp [pushedAndAccepted, Input.IsAck]) (State.init plainConfig onePeer (.ofUsec 500000))
  refine ⟨s, events, hrun, sent_once plainConfig stillClock 1 pushedAndAccepted _ s events rfl ?_
    (by simp [pushedAndAccepted, Input.Resets]) ?_ hrun⟩
  · refine Run.along_cons.2 ⟨trivial, fun s₁ out h => ?_⟩
    obtain ⟨rfl, rfl⟩ := Prod.mk.inj (Except.ok.inj h)
    refine Run.along_cons.2 ⟨trivial, fun s₂ out h => ?_⟩
    obtain ⟨rfl, rfl⟩ := Prod.mk.inj (Except.ok.inj h)
    refine Run.along_cons.2 ⟨⟨_, 0, rfl, by decide⟩, fun s₃ out h => ?_⟩
    exact Run.along_cons.2 ⟨trivial, fun _ _ _ => Run.along_cons.2 ⟨trivial, fun _ _ _ =>
      Run.along_nil⟩⟩
  · refine Run.along_cons.2 ⟨trivial, fun _ _ _ => Run.along_cons.2 ⟨trivial, fun _ _ _ => ?_⟩⟩
    refine Run.along_cons.2 ⟨trivial, fun _ _ _ => ?_⟩
    exact Run.along_cons.2 ⟨trivial, fun _ _ _ => Run.along_cons.2 ⟨trivial, fun _ _ _ =>
      Run.along_nil⟩⟩

end PeerStreamer.Streaming
