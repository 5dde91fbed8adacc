import PeerStreamer.Lib.Knowledge
import PeerStreamer.Playback
import PeerStreamer.Pushes
import PeerStreamer.Topology

/-!
# What nodes believe of each other

A node records of each of its peers the chunks that the peer has, as the peer's buffer maps, offers
and acknowledgements report them, and the chunks that it has sent to the peer itself.  It neither
sends nor pushes a chunk that is recorded.

Messages are delayed, reordered and lost, so that the record may be of any age.  It is not wrong
for that: a chunk that is recorded was not needed by the peer from then on, unless the message that
has it was not received (`beliefs_sound`).
-/

namespace PeerStreamer.Overlay

open Streaming Network

variable {N B P S : Type} [DecidableEq N]

/-- By its records, the node has a peer `q` with the chunk. -/
def Believes [PeerSet P N S] [ChunkIDSet S] (pset : P) (q : N) (x : Int) : Prop :=
  ∃ bmap, bmapOf pset q = some bmap ∧ x ∈ ChunkIDSet.ids bmap

/-- The chunks that the sender of a message has. -/
def Reports [ChunkIDSet S] : Message N S → Int → Prop
  | .chunk c _, x => x = c.id
  | .signal (.bufferMap _ cset _ _), x => x ∈ ChunkIDSet.ids cset
  | .signal (.offer cset _ _), x => x ∈ ChunkIDSet.ids cset
  | .signal (.ack cset _), x => x ∈ ChunkIDSet.ids cset
  | .signal (.accept _ _), _ => False
  | .signal .other, _ => False

/-- The chunk that a message brings. -/
def Brings : Message N S → Int → Prop
  | .chunk c _, x => x = c.id
  | .signal _, _ => False

/-- A node holds the chunks in its buffer and those that it has given up for later ones. -/
def chunkFacts [PeerSet P N S] [ChunkIDSet S] [ChunkBuffer B] :
    Facts N (State N B P) (Message N S) Int where
  holds s x := ChunkBuffer.Held s.cb x
  believes s q x := Believes s.pset q x
  reports := Reports
  tells := Brings

section Functions

variable [PeerSet P N S] [ChunkIDSet S] [ChunkBuffer B] {cfg : Config} {clock : Clock}
  {s s' : State N B P} {heard : N → Int → Prop} {q n : N} {x : Int}

omit [DecidableEq N] in
/-- Neither the chunks nor the records change, and nothing is reported. -/
theorem learns_same (hcb : s'.cb = s.cb) (hpset : s'.pset = s.pset)
    {outs : List (N × Message N S)} (houts : ∀ o ∈ outs, ∀ f, Reports o.2 f →
      ChunkBuffer.Held s.cb f) :
    chunkFacts.Learns s s' outs heard where
  holds f hf := by
    show ChunkBuffer.Held s'.cb f
    rw [hcb]
    exact hf
  reports o ho f hf := by
    show ChunkBuffer.Held s'.cb f
    rw [hcb]
    exact houts o ho f hf
  believes q f hf := by
    left
    show Believes s.pset q f
    rw [← hpset]
    exact hf

omit [DecidableEq N] in
theorem learns_silent (hcb : s'.cb = s.cb) (hpset : s'.pset = s.pset) :
    chunkFacts.Learns s s' ([] : List (N × Message N S)) heard :=
  learns_same hcb hpset fun _ ho => absurd ho List.not_mem_nil

variable [LawfulPeerSet P N S]

/-- A store to the record of `n` that adds the chunks `T` at most. -/
theorem Believes.of_update {pset : P} {f : Peer N S → Peer N S} {g : S → S} {T : Int → Prop}
    (hid : ∀ p, (f p).id = p.id) (hg : ∀ p, (f p).bmap = p.bmap.map g)
    (hadd : ∀ bmap y, y ∈ ChunkIDSet.ids (g bmap) → y ∈ ChunkIDSet.ids bmap ∨ T y)
    (h : Believes (PeerSet.update pset n f) q x) : Believes pset q x ∨ q = n ∧ T x := by
  obtain ⟨bmap, hbmap, hx⟩ := h
  by_cases hq : q = n
  · subst hq
    rw [bmapOf_update_self pset hid hg] at hbmap
    obtain ⟨old, hold, rfl⟩ := Option.map_eq_some_iff.1 hbmap
    rcases hadd old x hx with hx | hT
    · exact .inl ⟨old, hold, hx⟩
    · exact .inr ⟨rfl, hT⟩
  · rw [bmapOf_update_of_ne pset hid hq] at hbmap
    exact .inl ⟨bmap, hbmap, hx⟩

/-- A store to a record, if there is one. -/
theorem learns_updatePeer (clock : Clock) {f : Timeval → Peer N S → Peer N S} {g : S → S}
    (hid : ∀ t p, (f t p).id = p.id) (hg : ∀ t p, (f t p).bmap = p.bmap.map g)
    (hadd : ∀ bmap y, y ∈ ChunkIDSet.ids (g bmap) → y ∈ ChunkIDSet.ids bmap ∨ heard n y)
    (s : State N B P) : chunkFacts.Learns s (updatePeer clock n f s) [] heard where
  holds x hx := by
    show ChunkBuffer.Held (updatePeer clock n f s).cb x
    rw [updatePeer_cb]
    exact hx
  reports o ho := absurd ho List.not_mem_nil
  believes q x hx := by
    have hstate : Believes (updatePeer clock n f s).pset q x := hx
    unfold updatePeer at hstate
    split at hstate
    · exact .inl hstate
    · rcases hstate.of_update (hid _) (hg _) hadd with hold | ⟨rfl, hnew⟩
      · exact .inl hold
      · exact .inr (.inl hnew)

variable [LawfulChunkIDSet S]

/-- The record is replaced by what was heard. -/
theorem learns_resetBmap (clock : Clock) (cset : S) {f : Timeval → Peer N S → Peer N S}
    (hid : ∀ t p, (f t p).id = p.id) (hf : ∀ t p, (f t p).bmap = (resetBmap cset t p).bmap)
    (s : State N B P) :
    chunkFacts.Learns s (updatePeer clock n f s) [] fun q x => q = n ∧ x ∈ ChunkIDSet.ids cset := by
  refine learns_updatePeer clock (g := fun bmap => ChunkIDSet.union (ChunkIDSet.clear bmap) cset)
    hid hf ?_ s
  intro bmap y hy
  rcases (LawfulChunkIDSet.mem_union _ _ _).1 hy with hy | hy
  · rw [LawfulChunkIDSet.ids_clear] at hy
    exact absurd hy List.not_mem_nil
  · exact .inr ⟨rfl, hy⟩

variable [LawfulChunkBuffer B]

omit [DecidableEq N] [LawfulPeerSet P N S] [LawfulChunkIDSet S] in
theorem held_transmit (toid : N) (c : Chunk) (transId : UInt16) (sent : Bool)
    (h : ChunkBuffer.Held s.cb x) :
    ChunkBuffer.Held (transmit (S := S) toid c transId sent s).1.cb x := by
  have hupdate : ChunkBuffer.Held (ChunkBuffer.update s.cb c.id chunkAttributesUpdateSending) x :=
    h.update c.id chunkAttributesUpdateSending_id
  cases sent <;> exact hupdate

/-- A chunk that is sent is recorded. -/
theorem learns_transmit (toid : N) (transId : UInt16) (sent : Bool) (s : State N B P) {y : Int}
    {c : Chunk} (hc : ChunkBuffer.getChunk s.cb y = some c) :
    chunkFacts.Learns s (transmit (S := S) toid c transId sent s).1
      (messages (transmit (S := S) toid c transId sent s).2) heard where
  holds x hx := held_transmit toid c transId sent hx
  reports o ho x hx := by
    rw [messages_transmit] at ho
    split_ifs at ho
    · rw [List.mem_singleton.1 ho] at hx
      have hid : x = c.id := hx.trans (chunkAttributesUpdateSending_id c)
      have hmem : x ∈ ChunkBuffer.ids s.cb :=
        hid ▸ List.mem_map_of_mem (ChunkBuffer.getChunk_some hc).2
      exact held_transmit toid c transId sent (.inl hmem)
    · exact absurd ho List.not_mem_nil
  believes q x hx := by
    rw [messages_transmit]
    cases sent with
    | false => exact .inl hx
    | true =>
      have hupdate : Believes (PeerSet.update s.pset toid (addToBmap c.id)) q x := hx
      have hadd : ∀ (bmap : S) y, y ∈ ChunkIDSet.ids (ChunkIDSet.add bmap c.id) →
          y ∈ ChunkIDSet.ids bmap ∨ y = c.id :=
        fun bmap y hy => ((LawfulChunkIDSet.mem_add _ _ _).1 hy).symm
      rcases hupdate.of_update (T := fun y => y = c.id) (by intro p; rfl) (by intro p; rfl) hadd
        with hold | ⟨rfl, rfl⟩
      · exact .inl hold
      · refine .inr (.inr ⟨_, List.mem_singleton_self _, rfl, ?_⟩)
        exact (chunkAttributesUpdateSending_id c).symm

theorem learns_sendChunk (pair : Option (N × Int)) (sent : Bool) (s : State N B P) :
    chunkFacts.Learns s (sendChunk (S := S) pair sent s).1
      (messages (sendChunk (S := S) pair sent s).2) heard := by
  rcases sendChunk_cases (S := S) pair sent s with h | ⟨toid, cid, c, hc, h⟩
  · rw [h]
    exact .refl s
  · rw [h]
    exact learns_transmit toid 0 sent s hc

theorem learns_sendAcceptedChunks (cfg : Config) (clock : Clock) (toid : N) (csetAcc : S)
    (maxDeliver : Int) (transId : UInt16) (sent : ℕ → Bool) (s : State N B P) :
    chunkFacts.Learns s (sendAcceptedChunks cfg clock toid csetAcc maxDeliver transId sent s).1
      (messages (sendAcceptedChunks cfg clock toid csetAcc maxDeliver transId sent s).2)
      heard := by
  have hcreated : chunkFacts.Learns s { s with
      transactions := (Transaction.transactionRegAccept transId toid (clock.read s.reads)
        s.transactions).2
      reads := s.reads + 1 } ([] : List (N × Message N S)) heard := learns_silent rfl rfl
  refine sendAcceptedLoop_invariant
    (I := fun a => chunkFacts.Learns s a.s (messages a.events) heard)
    (fun chunkid sent a h => ?_) csetAcc maxDeliver sent _ hcreated
  obtain ⟨n, -, hone | ⟨c, d, hc, -, hone⟩⟩ :=
    sendAcceptedOne_cases cfg clock toid transId chunkid sent a
  all_goals
    have hread : chunkFacts.Learns a.s { a.s with reads := n } ([] : List (N × Message N S))
        heard := learns_silent rfl rfl
    rw [hone]
  · simpa only [List.append_nil] using h.append hread
  · rw [messages_append]
    exact h.append (hread.append (learns_transmit toid transId sent _ hc))

omit [LawfulPeerSet P N S] [LawfulChunkBuffer B] in
/-- What is offered is in the buffer. -/
theorem mem_ids_of_offered (cfg : Config) (rtt : Option ℚ) (cb : B)
    (hx : x ∈ ChunkIDSet.ids (composeOfferCset cfg rtt cb : S)) : x ∈ ChunkBuffer.ids cb := by
  unfold composeOfferCset at hx
  rcases (ChunkIDSet.mem_foldl_add _ _ _).1 hx with hx | hx
  · obtain ⟨c, hc, rfl⟩ := List.mem_map.1 hx
    exact List.mem_map_of_mem
      (List.mem_of_mem_take (List.mem_reverse.1 (List.mem_of_mem_filter hc)))
  · rw [LawfulChunkIDSet.ids_initBitmap] at hx
    exact absurd hx List.not_mem_nil

omit [DecidableEq N] [LawfulPeerSet P N S] [LawfulChunkBuffer B] in
theorem learns_offerLoop (cfg : Config) (clock : Clock) (ps : List (OfferPeer N))
    (s : State N B P) :
    chunkFacts.Learns s (offerLoop (S := S) cfg clock ps s).1
      (messages (offerLoop (S := S) cfg clock ps s).2) heard := by
  induction ps generalizing s with
  | nil => exact .refl s
  | cons p ps ih =>
    have hone : chunkFacts.Learns s (offerOne (S := S) cfg clock p s).1
        (messages (offerOne (S := S) cfg clock p s).2) heard := by
      apply learns_same
      · rfl
      · rfl
      · intro o ho f hf
        rw [List.mem_singleton.1 ho] at hf
        have hoffered : f ∈ ChunkIDSet.ids (composeOfferCset cfg p.rtt s.cb : S) := hf
        exact .inl (mem_ids_of_offered cfg p.rtt s.cb hoffered)
    have hloop := hone.append (ih (offerOne (S := S) cfg clock p s).1)
    rw [← messages_append] at hloop
    exact hloop

omit [DecidableEq N] [LawfulPeerSet P N S] [LawfulChunkBuffer B] in
theorem learns_sendOffer (cfg : Config) (clock : Clock) (skipped : Bool)
    (selected : List (OfferPeer N)) (s : State N B P) :
    chunkFacts.Learns s (sendOffer (S := S) cfg clock skipped selected s).1
      (messages (sendOffer (S := S) cfg clock skipped selected s).2) heard := by
  unfold sendOffer
  split_ifs
  · exact .refl s
  · exact learns_offerLoop cfg clock selected s

omit [LawfulPeerSet P N S] [LawfulChunkBuffer B] in
/-- The buffer map of the own buffer. -/
theorem held_of_cbToBmap {cb : B} (hx : x ∈ ChunkIDSet.ids (cbToBmap cb : S)) :
    ChunkBuffer.Held cb x := .inl ((mem_cbToBmap cb x).1 hx)

/-! ## One step of a node -/

/-- The ids of the stream are not negative, and changes of the peers make up no records. -/
def NothingMadeUp (_ : N) (s : State N B P) : Action N P → Prop
  | .updatePeers pset => ∀ q x, Believes pset q x → Believes s.pset q x
  | .sendChunk .. | .sendOffer .. | .sendBmap _ => True
  | .addChunk c => 0 ≤ c.id

theorem learns_act (cfg : Config) (clock : Clock) (self : N) {a : Action N P}
    (ha : NothingMadeUp self s a) :
    chunkFacts.Learns s (act (S := S) cfg clock self a s).1 (act (S := S) cfg clock self a s).2
      heard := by
  cases a with
  | sendChunk pair sent => exact learns_sendChunk pair sent s
  | sendOffer skipped selected => exact learns_sendOffer cfg clock skipped selected s
  | addChunk c =>
    exact ⟨fun _ hx => ChunkBuffer.Held.addChunk ha hx, fun _ ho => absurd ho List.not_mem_nil,
      fun _ _ hx => .inl hx⟩
  | updatePeers pset =>
    exact ⟨fun _ hx => hx, fun _ ho => absurd ho List.not_mem_nil, fun q x hx => .inl (ha q x hx)⟩
  | sendBmap toid =>
    refine learns_same rfl rfl fun o ho f hf => ?_
    rw [List.mem_singleton.1 ho] at hf
    exact held_of_cbToBmap hf

/-- A chunk that arrives is held, and its sender is known to have it. -/
theorem learns_receivedChunk (clock : Clock) (src : N) {c : Chunk} (hc : 0 ≤ c.id)
    (transId : UInt16) (skipped : Bool) (s : State N B P) :
    chunkFacts.Learns s (receivedChunk (S := S) clock src (some (c, transId)) skipped s).1
      (messages (receivedChunk (S := S) clock src (some (c, transId)) skipped s).2)
      fun q x => q = src ∧ x = c.id := by
  have hid := chunkAttributesUpdateReceived_id c
  set stored : State N B P := { s with
    locks := ChunkLock.chunkUnlock (chunkAttributesUpdateReceived c).id s.locks
    cb := (ChunkBuffer.addChunk s.cb (chunkAttributesUpdateReceived c)).2 } with hstored
  have hadded : chunkFacts.Learns s stored ([] : List (N × Message N S))
      fun q x => q = src ∧ x = c.id :=
    ⟨fun x hx => ChunkBuffer.Held.addChunk (hid.symm ▸ hc) hx, fun _ ho =>
      absurd ho List.not_mem_nil, fun _ _ hx => .inl hx⟩
  have hknown : chunkFacts.Learns stored
      (regSender clock src (chunkAttributesUpdateReceived c).id stored)
      ([] : List (N × Message N S)) fun q x => q = src ∧ x = c.id := by
    refine learns_updatePeer clock
      (f := fun now p => { addToBmap (chunkAttributesUpdateReceived c).id p with
        bmapTimestamp := now })
      (g := fun bmap => ChunkIDSet.add bmap (chunkAttributesUpdateReceived c).id)
      (fun _ _ => rfl) (fun _ _ => rfl) ?_ stored
    intro bmap y hy
    rcases (LawfulChunkIDSet.mem_add _ _ _).1 hy with hy | hy
    · exact .inr ⟨rfl, hy.trans hid⟩
    · exact .inl hy
  have hack : chunkFacts.Learns (regSender clock src (chunkAttributesUpdateReceived c).id stored)
      (receivedChunk (S := S) clock src (some (c, transId)) skipped s).1
      (messages (receivedChunk (S := S) clock src (some (c, transId)) skipped s).2)
      fun q x => q = src ∧ x = c.id := by
    refine learns_same rfl rfl fun o ho f hf => ?_
    cases skipped with
    | true => exact absurd ho List.not_mem_nil
    | false =>
      rw [List.mem_singleton.1 ho] at hf
      exact held_of_cbToBmap hf
  exact hadded.append (hknown.append hack)

omit [DecidableEq N] [LawfulPeerSet P N S] [LawfulChunkIDSet S] in
theorem held_receivedChunk (clock : Clock) (src : N) {c : Chunk} (hc : 0 ≤ c.id)
    (transId : UInt16) (skipped : Bool) (s : State N B P) :
    ChunkBuffer.Held (receivedChunk (S := S) clock src (some (c, transId)) skipped s).1.cb
      c.id := by
  rw [receivedChunk_cb]
  have hid := chunkAttributesUpdateReceived_id c
  exact hid ▸ ChunkBuffer.held_addChunk_self s.cb (hid.symm ▸ hc)

theorem learns_acceptReceived (cfg : Config) (clock : Clock) (fromid : N) (cset : S)
    (maxDeliver : Int) (transId : UInt16) (sent : ℕ → Bool) (s : State N B P) :
    chunkFacts.Learns s (acceptReceived cfg clock fromid cset maxDeliver transId sent s).1
      (messages (acceptReceived cfg clock fromid cset maxDeliver transId sent s).2) heard := by
  have hpeer : chunkFacts.Learns s
      (updatePeer clock fromid (fun now p => { p with bmapTimestamp := now }) s) [] heard := by
    refine learns_updatePeer clock (f := fun now p => { p with bmapTimestamp := now }) (g := id)
      (fun _ _ => rfl) (fun _ p => ?_) (fun _ _ hy => .inl hy) s
    exact Option.map_id_apply.symm
  have hrate : chunkFacts.Learns
      (updatePeer clock fromid (fun now p => { p with bmapTimestamp := now }) s)
      { updatePeer clock fromid (fun now p => { p with bmapTimestamp := now }) s with
        rate := RateControl.rcRegAccept cfg.rate transId (ChunkIDSet.size cset)
          (updatePeer clock fromid (fun now p => { p with bmapTimestamp := now }) s).rate }
      ([] : List (N × Message N S)) heard := learns_silent rfl rfl
  exact hpeer.append (hrate.append
    (learns_sendAcceptedChunks cfg clock fromid cset maxDeliver transId sent _))

/-- The handlers of signalling messages. -/
theorem learns_sigParseData (src : N) {sig : Signal N S} {sent : ℕ → Bool}
    {events : List (Event N S)}
    (h : sigParseData cfg clock src (some sig) sent s = .ok (s', events)) :
    chunkFacts.Learns s s' (messages events) fun q x => q = src ∧ Reports (.signal sig) x := by
  cases sig with
  | bufferMap ownerid cset cbSize transId =>
    obtain ⟨rfl, rfl⟩ := Prod.mk.inj (Except.ok.inj h)
    have howner : (if src = ownerid then ownerid else src) = src := by
      split_ifs with heq
      · exact heq.symm
      · rfl
    rw [howner]
    exact learns_resetBmap clock cset
      (f := fun now p => { resetBmap cset now p with cbSize := cbSize })
      (fun _ _ => rfl) (fun _ _ => rfl) s
  | offer cset maxDeliver transId =>
    obtain ⟨rfl, rfl⟩ := Prod.mk.inj (Except.ok.inj h)
    have hspec := getChunksToAccept_spec cfg clock src cset maxDeliver
      (updatePeer clock src (resetBmap cset) s)
    have hreset := learns_resetBmap (n := src) clock cset (f := resetBmap cset)
      (fun _ _ => rfl) (fun _ _ => rfl) s
    refine hreset.append (learns_same hspec.cb hspec.pset fun o ho f hf => ?_)
    have haccept : o ∈ messages (_ ++ [.acceptChunks src _ transId]) := ho
    rw [messages_append, messages_locked hspec.locked] at haccept
    rw [List.mem_singleton.1 haccept] at hf
    exact hf.elim
  | accept cset transId =>
    obtain ⟨rfl, rfl⟩ := Prod.mk.inj (Except.ok.inj h)
    exact learns_acceptReceived cfg clock src cset _ transId sent s
  | ack cset transId =>
    have hreset := learns_resetBmap (n := src) clock cset (f := resetBmap cset)
      (fun _ _ => rfl) (fun _ _ => rfl) s
    obtain ⟨t, r, n, -, rfl, rfl⟩ := ackReceived_ok h
    exact hreset.append (learns_silent rfl rfl)
  | other =>
    obtain ⟨rfl, rfl⟩ := Prod.mk.inj (Except.ok.inj h)
    exact .refl s

end Functions

/-! ## The topology manager -/

section Topology

variable [PeerSet P N S] [LawfulPeerSet P N S] [ChunkIDSet S] {s : Topology.State N P} {q : N}
  {x : Int}

/-- No records are made up: a new peer has none, and the others keep theirs. -/
def Forgets (pset pset' : P) : Prop := ∀ q x, Believes pset' q x → Believes pset q x

omit [DecidableEq N] [LawfulPeerSet P N S] in
theorem Forgets.trans {pset pset' pset'' : P} (h : Forgets pset pset') (h' : Forgets pset' pset'') :
    Forgets pset pset'' := fun q x hx => h q x (h' q x hx)

theorem forgets_setMetadata (pset : P) (n : N) (m : Topology.Metadata) :
    Forgets pset (PeerSet.update pset n (Topology.setMetadata m)) := by
  intro q x hx
  have hold := hx.of_update (f := Topology.setMetadata m) (g := id) (T := fun _ => False)
    (fun _ => rfl) (fun _ => Option.map_id_apply.symm) fun _ _ hy => .inl hy
  exact hold.resolve_right fun h => h.2

theorem forgets_removePeer (n : N) (isLocal isRemote : Bool) (s : Topology.State N P) :
    Forgets s.pset (Topology.removePeer n isLocal isRemote s).1.pset := by
  unfold Topology.removePeer
  cases isLocal with
  | false => exact fun _ _ hx => hx
  | true =>
    rintro q x ⟨bmap, hbmap, hx⟩
    have hget : (PeerSet.getPeer (PeerSet.removePeer s.pset n) q).bind Peer.bmap = some bmap :=
      hbmap
    by_cases hq : q = n
    · subst hq
      rw [PeerSet.getPeer_removePeer_self] at hget
      cases hget
    · rw [PeerSet.getPeer_removePeer_of_ne s.pset hq] at hget
      exact ⟨bmap, hget, hx⟩

omit [DecidableEq N] [LawfulPeerSet P N S] in
theorem forgets_forIds {f : N → Topology.State N P → Topology.State N P × List (Topology.Event N)}
    (hf : ∀ id s, Forgets s.pset (f id s).1.pset) (ids : List N) (s : Topology.State N P) :
    Forgets s.pset (Topology.forIds f ids s).1.pset := by
  induction ids generalizing s with
  | nil => exact fun _ _ hx => hx
  | cons id ids ih => exact (hf id s).trans (ih _)

variable [FreshPeerSet P N S]

theorem forgets_add (pset : P) (n : N) (now : Timeval) :
    Forgets pset (PeerSet.addPeer pset n now) := by
  rintro q x ⟨bmap, hbmap, hx⟩
  by_cases hq : q = n
  · subst hq
    by_cases hmem : q ∈ PeerSet.ids pset
    · rw [LawfulPeerSet.addPeer_mem pset q now hmem] at hbmap
      exact ⟨bmap, hbmap, hx⟩
    · obtain ⟨p, hp, hpb⟩ := Option.bind_eq_some_iff.1 hbmap
      obtain ⟨hp, hid⟩ := PeerSet.getPeer_eq_some_iff.1 hp
      rw [FreshPeerSet.bmap_addPeer pset q now hmem p hp hid bmap hpb] at hx
      exact absurd hx List.not_mem_nil
  · rw [bmapOf, PeerSet.getPeer_addPeer_of_ne pset now hq] at hbmap
    exact ⟨bmap, hbmap, hx⟩

theorem forgets_addPeer (clock : ℕ → Timeval) (id : N) (m : Option Topology.Metadata)
    (isLocal isRemote : Bool) (s : Topology.State N P) :
    Forgets s.pset (Topology.addPeer clock id m isLocal isRemote s).1.pset := by
  unfold Topology.addPeer
  cases isLocal with
  | false => exact fun _ _ hx => hx
  | true =>
    have hadd := forgets_add s.pset id (clock s.reads)
    cases m with
    | none => exact hadd
    | some m => exact hadd.trans (forgets_setMetadata _ id m)

omit [FreshPeerSet P N S] in
theorem forgets_dropInactive (clock : ℕ → Timeval) (s : Topology.State N P) :
    Forgets s.pset (Topology.dropInactive clock s).1.pset := by
  unfold Topology.dropInactive
  split_ifs
  · have hdrop (id : N) (s : Topology.State N P) :
        Forgets s.pset (Topology.dropPeer id s).1.pset := forgets_removePeer id true true s
    exact forgets_forIds hdrop (Topology.inactiveIds (clock s.reads) s.pset)
      { s with reads := s.reads + 1 }
  · exact fun _ _ hx => hx

theorem forgets_addNew (cfg : Topology.Config) (clock : ℕ → Timeval)
    (newids : List (N × Topology.Metadata)) (id : N) (s : Topology.State N P) :
    Forgets s.pset (Topology.addNew cfg clock newids id s).1.pset := by
  unfold Topology.addNew
  split
  · exact forgets_addPeer clock _ _ cfg.topoOut cfg.topoIn s
  · exact fun _ _ hx => hx

theorem forgets_reselect (cfg : Topology.Config) (clock : ℕ → Timeval) (c : Topology.Choices N)
    (s : Topology.State N P) : Forgets s.pset (Topology.reselect cfg clock c s).1.pset :=
  (forgets_forIds (forgets_addNew cfg clock c.newids) _ s).trans
    (forgets_forIds (fun id s => forgets_removePeer id cfg.topoOut cfg.topoIn s) _ _)

theorem forgets_explicit (clock : ℕ → Timeval) (fromid : N) (buff : List UInt8)
    (s : Topology.State N P) : Forgets s.pset (Topology.explicit clock fromid buff s).1.pset := by
  unfold Topology.explicit
  split_ifs
  · exact fun _ _ hx => hx
  · exact forgets_addPeer clock fromid none true false s
  · exact fun _ _ hx => hx
  · exact forgets_removePeer fromid true false s
  · exact fun _ _ hx => hx

theorem forgets_updatePeers (cfg : Topology.Config) (clock : ℕ → Timeval)
    (msg : Option (N × List UInt8)) (c : Topology.Choices N) (s : Topology.State N P) :
    Forgets s.pset (Topology.updatePeers cfg clock msg c s).1.pset := by
  have hdrop := forgets_dropInactive clock s
  unfold Topology.updatePeers
  rcases msg with _ | ⟨fromid, buff⟩
  · exact hdrop
  · dsimp only
    split_ifs
    · exact hdrop.trans (forgets_explicit clock fromid buff _)
    · exact hdrop.trans (forgets_reselect cfg clock c _)

/-- The topology manager leaves this peer set. -/
def Managed (pset pset' : P) : Prop :=
  ∃ (cfg : Topology.Config) (clock : ℕ → Timeval) (msg : Option (N × List UInt8))
    (c : Topology.Choices N) (s : Topology.State N P), s.pset = pset ∧
      (Topology.updatePeers cfg clock msg c s).1.pset = pset'

theorem Managed.forgets {pset pset' : P} (h : Managed pset pset') : Forgets pset pset' := by
  obtain ⟨cfg, clock, msg, c, s, rfl, rfl⟩ := h
  exact forgets_updatePeers cfg clock msg c s

end Topology

/-! ## Runs -/

section Runs

variable [PeerSet P N S] [LawfulPeerSet P N S] [ChunkIDSet S] [LawfulChunkIDSet S] [ChunkBuffer B]
  [LawfulChunkBuffer B]

/-- The ids of a stream. -/
def Streamed (c : Chunk) : Prop := 0 ≤ c.id

theorem knowing_nodes (cfg : N → Config) (clock : N → Clock) :
    Knowing (nodes (B := B) (P := P) (S := S) cfg clock) NothingMadeUp
      (fun _ s => ∀ c ∈ ChunkBuffer.getChunks s.cb, Genuine Streamed c)
      (fun _ _ m => Bears Streamed m) chunkFacts where
  act n a s s' outs ha _ h := by
    obtain ⟨rfl, rfl⟩ := Prod.mk.inj (Except.ok.inj h)
    exact learns_act (cfg n) (clock n) n ha
  handle n b src m s s' outs _ hm h := by
    cases m with
    | chunk c transId =>
      obtain ⟨rfl, rfl⟩ := Prod.mk.inj (Except.ok.inj h)
      exact learns_receivedChunk (clock n) src (hm.nonneg fun _ hg => hg) transId b.ackSkipped s
    | signal sig =>
      obtain ⟨events, hr, rfl⟩ := handle_signal_ok h
      exact learns_sigParseData src hr
  heeds n b src m s x _ hm htells := by
    cases m with
    | chunk c transId =>
      obtain rfl : x = c.id := htells
      exact ⟨_, _, rfl,
        held_receivedChunk (clock n) src (hm.nonneg fun _ hg => hg) transId b.ackSkipped s⟩
    | signal sig => exact htells.elim

variable [FreshPeerSet P N S]

/-- In every run, a chunk that a node believes a peer to have is held by the peer, or the node has
sent it to the peer; and if no message is lost, it is still on its way then. -/
theorem beliefs_sound (cfg : N → Config) (clock : N → Clock)
    (moves : List (Move N (Action N P) Choices)) (states : N → State N B P)
    (hids : ∀ n c, .act n (.addChunk c) ∈ moves → 0 ≤ c.id)
    (hpeers : Run.Along (step (nodes cfg clock)) (fun w m => ∀ n pset,
      m = .act n (.updatePeers pset) → Managed (w.states n).pset pset) moves (Net.init states))
    (hempty : ∀ n, ChunkBuffer.getChunks (states n).cb = [])
    (hnone : ∀ n q x, ¬ Believes (states n).pset q x)
    (w : Net N (State N B P) (Message N S)) (sent : List (Packet N (Message N S)))
    (h : Run.run (step (nodes cfg clock)) moves (Net.init states) = .ok (w, sent)) :
    ∀ n q x, Believes (w.states n).pset q x → ChunkBuffer.Held (w.states q).cb x ∨
      ∃ p ∈ sent, p.src = n ∧ p.dst = q ∧
        (∃ c transId, p.body = .chunk c transId ∧ c.id = x) ∧
        ((∀ k, .lose k ∉ moves) → p ∈ w.flight) := by
  have hallowed : ∀ m ∈ moves, m.Allowed fun _ a => ∀ c, a = .addChunk c → Streamed c := by
    intro m hm
    cases m with
    | act n a =>
      rintro c rfl
      exact hids n c hm
    | deliver | lose => exact trivial
  have hnothing : Run.Along (step (nodes cfg clock))
      (fun w m => m.Allowed fun n a => NothingMadeUp n (w.states n) a) moves (Net.init states) := by
    intro pre m hpre w' sent' hrun
    have hmanaged := hpeers pre m hpre w' sent' hrun
    have hmem : m ∈ moves := hpre.subset (by simp)
    cases m with
    | act n a =>
      cases a with
      | updatePeers pset => exact (hmanaged n pset rfl).forgets
      | addChunk c => exact hids n c hmem
      | _ => exact trivial
    | deliver | lose => exact trivial
  have hsound := run_knowing (localOn_nodes (fun _ hg => hg) cfg clock) (knowing_nodes cfg clock)
    hallowed hnothing (fun n => by rw [hempty]; simp)
    (fun n q x hx => absurd hx (hnone n q x)) h
  intro n q x hx
  rcases hsound.believes n q x hx with hheld | ⟨p, hp, hsrc, hdst, hbrings, hflight⟩
  · exact .inl hheld
  · refine .inr ⟨p, hp, hsrc, hdst, ?_, hflight⟩
    cases hbody : p.body with
    | chunk c transId =>
      rw [hbody] at hbrings
      exact ⟨c, transId, rfl, hbrings.symm⟩
    | signal sig =>
      rw [hbody] at hbrings
      exact hbrings.elim

end Runs

/-- Node 0 pushes a chunk to node 1. -/
def pushedOnce : List (Move ℕ (Action ℕ (ListPeers ℕ ListIDSet)) Choices) :=
  [.act 0 (.addChunk ⟨5, 0, [1], []⟩), .act 0 (.sendChunk (some (1, 5)) true)]

theorem not_believes_pair (n q : ℕ) (x : Int) : ¬ Believes (pair n).pset q x := by
  intro hx
  obtain ⟨bmap, hbmap, -⟩ := forgets_add ListPeers.empty (1 - n) (.ofUsec 0) q x hx
  cases hbmap

/-- The chunk is on its way to node 1, and node 0 records it already. -/
theorem beliefs_sound_pushedOnce :
    ∃ w : Net ℕ (State ℕ ListBuffer (ListPeers ℕ ListIDSet)) (Message ℕ ListIDSet),
      Believes (w.states 0).pset 1 5 ∧ (ChunkBuffer.Held (w.states 1).cb 5 ∨
        ∃ p ∈ w.flight, p.src = 0 ∧ p.dst = 1 ∧
          ∃ c transId, p.body = .chunk c transId ∧ c.id = 5) := by
  have hrun : (Run.run (step (nodes (fun _ => plainConfig) fun _ => stillClock)) pushedOnce
      (Net.init pair)).toOption.any (fun r =>
        (bmapOf (r.1.states 0).pset 1).any fun bmap => 5 ∈ ChunkIDSet.ids bmap) = true := by
    decide +kernel
  obtain ⟨⟨w, sent⟩, hw, hany⟩ := eq_ok_of_any hrun
  have hbelieves : Believes (w.states 0).pset 1 5 := by
    obtain ⟨bmap, hbmap, hmem⟩ := (Option.any_eq_true _ _).1 hany
    exact ⟨bmap, hbmap, of_decide_eq_true hmem⟩
  refine ⟨w, hbelieves, ?_⟩
  have hsound := beliefs_sound (fun _ => plainConfig) (fun _ => stillClock) pushedOnce pair
    (by simp [pushedOnce]) (.of_forall (by simp [pushedOnce])) (fun _ => rfl) not_believes_pair
    w sent hw 0 1 5 hbelieves
  rcases hsound with hheld | ⟨p, -, hsrc, hdst, hbody, hflight⟩
  · exact .inl hheld
  · exact .inr ⟨p, hflight (by simp [pushedOnce]), hsrc, hdst, hbody⟩

end PeerStreamer.Overlay
