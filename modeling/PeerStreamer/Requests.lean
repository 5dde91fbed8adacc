import PeerStreamer.Lib.Run
import PeerStreamer.StreamingProof

/-!
# Each chunk is requested once

A chunk is requested when an offer of it is accepted.  It is not requested again while its lock
holds, and never once it was received (`requested_once`).  The invariant `Requests` joins the three
mechanisms: the locks are distinct, a request is locked, has expired or was answered, and a received
chunk is in the buffer or below everything in the full buffer.
-/

namespace PeerStreamer.Streaming

open ChunkLock

variable {N B P S : Type} {cfg : Config} {clock : Clock} {s s' : State N B P}
  {events more : List (Event N S)}

/-- A chunk message with this id was received. -/
def Received (x : Int) (events : List (Event N S)) : Prop :=
  ∃ c, .outputDeliver c ∈ events ∧ c.id = x

/-- When a chunk is requested, every earlier request of it is more than two seconds old, and the
chunk was not received before. -/
def RequestedOnce (events : List (Event N S)) : Prop :=
  ∀ pre post x t', events = pre ++ .locked x t' :: post →
    (∀ t, .locked x t ∈ pre → t.toUsec + 2000000 < t'.toUsec) ∧ ¬ Received x pre

/-- A request is locked, has expired or was answered. -/
def Pending (clock : Clock) (s : State N B P) (events : List (Event N S)) (x : Int)
    (t : Timeval) : Prop :=
  (∃ l ∈ s.locks.locks, l.chunkid = x ∧ l.timestamp = t) ∨ Expired clock s.reads t ∨
    Received x events

/-! ## Histories -/

theorem Received.append {x : Int} (h : Received x events) : Received x (events ++ more) := by
  obtain ⟨c, hc, hid⟩ := h
  exact ⟨c, List.mem_append_left _ hc, hid⟩

theorem received_append_of_not {x : Int} (hmore : ∀ c, .outputDeliver c ∉ more)
    (h : Received x (events ++ more)) : Received x events := by
  obtain ⟨c, hc, hid⟩ := h
  exact ⟨c, (List.mem_append.1 hc).resolve_right (hmore c), hid⟩

/-- Events that request nothing do not matter. -/
theorem RequestedOnce.append (h : RequestedOnce events) (hmore : ∀ x t, .locked x t ∉ more) :
    RequestedOnce (events ++ more) := by
  intro pre post x t' heq
  rcases List.append_eq_append_iff.1 heq with ⟨mid, rfl, hmid⟩ | ⟨mid, rfl, hmid⟩
  · have hin : .locked x t' ∈ more := by
      rw [hmid]
      simp
    exact absurd hin (hmore x t')
  · cases mid with
    | nil =>
      have hin : .locked x t' ∈ more := by
        rw [show more = .locked x t' :: post from hmid.symm]
        exact List.mem_cons_self ..
      exact absurd hin (hmore x t')
    | cons e mid =>
      obtain ⟨rfl, -⟩ := List.cons.inj hmid
      exact h pre mid x t' rfl

/-- A further request. -/
theorem RequestedOnce.concat {x : Int} {t' : Timeval} (h : RequestedOnce events)
    (hold : ∀ t, .locked x t ∈ events → t.toUsec + 2000000 < t'.toUsec)
    (hrec : ¬ Received x events) : RequestedOnce (events ++ [.locked x t']) := by
  intro pre post y u heq
  rcases List.eq_nil_or_concat post with rfl | ⟨post, e, rfl⟩
  · obtain ⟨rfl, he⟩ := List.append_inj' heq rfl
    obtain ⟨rfl, rfl⟩ : x = y ∧ t' = u := by simpa using he
    exact ⟨hold, hrec⟩
  · have heq' : events ++ [.locked x t'] = (pre ++ .locked y u :: post) ++ [e] := by
      rw [heq]
      simp
    exact h pre post y u (List.append_inj' heq' rfl).1

theorem Pending.mono {x : Int} {t : Timeval} (h : Pending clock s events x t)
    (hlocks : s'.locks = s.locks) (hreads : s.reads ≤ s'.reads) :
    Pending clock s' (events ++ more) x t := by
  rcases h with hl | he | hr
  · exact Or.inl (hlocks ▸ hl)
  · exact Or.inr (Or.inl (he.mono hreads))
  · exact Or.inr (Or.inr hr.append)

/-! ## The invariant -/

variable [ChunkBuffer B]

/-- The invariant of the runs of a node. -/
structure Requests (cfg : Config) (clock : Clock) (s : State N B P) (events : List (Event N S)) :
    Prop where
  nodup : s.locks.ids.Nodup
  size : ChunkBuffer.size s.cb = cfg.cbSize
  held : ∀ x, Received x events → ChunkBuffer.Held s.cb x
  pending : ∀ x t, .locked x t ∈ events → Pending clock s events x t
  once : RequestedOnce events

/-! ## The steps -/

/-- Functions that neither accept nor receive keep the invariant. -/
theorem Requests.quiet (h : Requests cfg clock s events) (hq : Quiet s s' more) :
    Requests cfg clock s' (events ++ more) where
  nodup := hq.locks ▸ h.nodup
  size := hq.size.trans h.size
  held x hx := hq.held x (h.held x (received_append_of_not hq.notReceived hx))
  pending x t ht := (h.pending x t
    ((List.mem_append.1 ht).resolve_right (hq.notLocked x t))).mono hq.locks hq.reads
  once := h.once.append hq.notLocked

/-- The cleanup of the locks keeps the invariant. -/
theorem Requests.cleanup (h : Requests cfg clock s events) (x : Int) :
    Requests cfg clock { s with
      locks := (chunkIslocked clock x s.locks s.reads).2.1
      reads := (chunkIslocked clock x s.locks s.reads).2.2 } events where
  nodup := h.nodup.sublist (ids_chunkIslocked_sublist clock x s.locks s.reads)
  size := h.size
  held := h.held
  pending y t ht := by
    rcases h.pending y t ht with ⟨l, hl, hid, rfl⟩ | he | hr
    · rcases mem_cleanup_or_expired clock s.reads hl with hl | he
      · exact Or.inl ⟨l, hl, hid, rfl⟩
      · exact Or.inr (Or.inl he)
    · exact Or.inr (Or.inl (he.mono (le_cleanup clock s.locks.locks s.reads)))
    · exact Or.inr (Or.inr hr)
  once := h.once

/-- More clock readings keep the invariant. -/
theorem Requests.later (h : Requests cfg clock s events) {n : ℕ} (hn : s.reads ≤ n) :
    Requests cfg clock { s with reads := n } events := by
  have hlater : Quiet s { s with reads := n } ([] : List (Event N S)) := .of_cb rfl rfl hn
  have hquiet := h.quiet hlater
  rwa [List.append_nil] at hquiet

/-- A chunk that is neither locked nor held can be requested. -/
theorem Requests.request (hclock : clock.Forward) (h : Requests cfg clock s events) {x : Int}
    (peer : Option N) (hlock : x ∉ s.locks.ids) (hheld : ¬ ChunkBuffer.Held s.cb x) :
    Requests cfg clock { s with
      locks := chunkLock x peer (clock.read s.reads) s.locks
      reads := s.reads + 1 } (events ++ [.locked x (clock.read s.reads)]) where
  nodup := by
    rw [ids_chunkLock]
    exact List.nodup_append.2 ⟨h.nodup, List.nodup_singleton x, by
      intro a ha b hb hab
      obtain rfl := List.mem_singleton.1 hb
      exact hlock (hab ▸ ha)⟩
  size := h.size
  held y hy := h.held y (received_append_of_not (by simp) hy)
  pending y t ht := by
    rcases List.mem_append.1 ht with ht | ht
    · rcases h.pending y t ht with ⟨l, hl, hid, rfl⟩ | he | hr
      · exact Or.inl ⟨l, List.mem_append_left _ hl, hid, rfl⟩
      · exact Or.inr (Or.inl (he.mono (Nat.le_succ _)))
      · exact Or.inr (Or.inr hr.append)
    · obtain ⟨rfl, rfl⟩ : y = x ∧ t = clock.read s.reads := by simpa using ht
      exact Or.inl ⟨⟨y, peer, clock.read s.reads⟩, List.mem_append_right _ (by simp), rfl, rfl⟩
  once := by
    refine h.once.concat ?_ fun hr => hheld (h.held x hr)
    intro t ht
    rcases h.pending x t ht with ⟨l, hl, hid, -⟩ | he | hr
    · exact absurd (List.mem_map.2 ⟨l, hl, hid⟩) hlock
    · exact he.lt_read hclock (Nat.le_refl _)
    · exact absurd (h.held x hr) hheld

section Accept

variable [ChunkIDSet S] [LawfulChunkIDSet S] [LawfulChunkBuffer B]

/-- One round of the loop over an offer keeps the invariant and the buffer. -/
theorem Requests.acceptOne (hclock : clock.Forward) (peer : Option N) (x : Int) {cb : B}
    {a : Accepting N B P S} (hcb : a.s.cb = cb) (h : Requests cfg clock a.s (events ++ a.events)) :
    (acceptOne cfg clock peer (cbToBmap cb) x a).s.cb = cb ∧
      Requests cfg clock (acceptOne cfg clock peer (cbToBmap cb) x a).s
        (events ++ (acceptOne cfg clock peer (cbToBmap cb) x a).events) := by
  subst hcb
  have hclean := h.cleanup x
  unfold Streaming.acceptOne
  by_cases hlocked : (chunkIslocked clock x a.s.locks a.s.reads).1 = true
  · simp only [if_pos hlocked]
    exact ⟨trivial, hclean⟩
  · have hnot := chunkIslocked_eq_false (Bool.eq_false_iff.2 hlocked)
    simp only [if_neg hlocked]
    have hlater := hclean.later (le_needs cfg clock a.s.cb
      (cbToBmap a.s.cb : S) cfg.cbSize x _)
    split_ifs with hneed
    · refine ⟨rfl, ?_⟩
      rw [← List.append_assoc]
      exact hlater.request hclock peer hnot (not_held_of_needs h.size hneed)
    · exact ⟨rfl, hlater⟩

theorem Requests.acceptLoop (hclock : clock.Forward) (peer : Option N) (csetOff : S)
    (maxDeliver : Int) {cb : B} (is : List ℕ) {a : Accepting N B P S} (hcb : a.s.cb = cb)
    (h : Requests cfg clock a.s (events ++ a.events)) :
    Requests cfg clock (acceptLoop cfg clock peer (cbToBmap cb) csetOff maxDeliver is a).s
      (events ++ (acceptLoop cfg clock peer (cbToBmap cb) csetOff maxDeliver is a).events) := by
  induction is generalizing a with
  | nil => exact h
  | cons i is ih =>
    unfold Streaming.acceptLoop
    split_ifs
    · obtain ⟨hcb', h'⟩ := h.acceptOne hclock peer (ChunkIDSet.getChunk csetOff i) hcb
      exact ih hcb' h'
    · exact h

variable [PeerSet P N S]

theorem Requests.offerReceived (hclock : clock.Forward) (h : Requests cfg clock s events)
    (fromid : N) (cset : S) (maxDeliver : Int) (transId : UInt16) :
    Requests cfg clock (offerReceived cfg clock fromid cset maxDeliver transId s).1
      (events ++ (offerReceived cfg clock fromid cset maxDeliver transId s).2) := by
  have hpeer := h.quiet (quiet_updatePeer clock fromid (resetBmap cset) s)
  let start : Accepting N B P S :=
    ⟨updatePeer clock fromid (resetBmap cset) s, ChunkIDSet.initList, 0, []⟩
  have hstart : Requests cfg clock start.s (events ++ start.events) := hpeer
  have hacc := hstart.acceptLoop hclock ((PeerSet.getPeer start.s.pset fromid).map Peer.id) cset
    maxDeliver (List.range (ChunkIDSet.size cset)) rfl
  have hsend := hacc.quiet ((Quiet.refl _).concat (e := .acceptChunks fromid
    (getChunksToAccept cfg clock fromid cset maxDeliver
      (updatePeer clock fromid (resetBmap cset) s)).csetAcc transId) (by simp) (by simp))
  rw [List.append_assoc] at hsend
  exact hsend

end Accept

section Receive

variable [LawfulChunkBuffer B]

/-- The arrival of a chunk keeps the invariant: its requests are answered. -/
theorem Requests.receive (h : Requests cfg clock s events) {c : Chunk} (hc : 0 ≤ c.id) :
    Requests cfg clock { s with
      locks := chunkUnlock c.id s.locks
      cb := (ChunkBuffer.addChunk s.cb c).2 } (events ++ [.outputDeliver c]) where
  nodup := h.nodup.sublist (ids_chunkUnlock_sublist c.id s.locks)
  size := (LawfulChunkBuffer.size_addChunk s.cb c).trans h.size
  held x hx := by
    obtain ⟨d, hd, rfl⟩ := hx
    rcases List.mem_append.1 hd with hd | hd
    · exact (h.held d.id ⟨d, hd, rfl⟩).addChunk hc
    · obtain rfl : d = c := by simpa using hd
      exact ChunkBuffer.held_addChunk_self s.cb hc
  pending x t ht := by
    have hin : Event.locked x t ∈ events := by simpa using ht
    rcases h.pending x t hin with ⟨l, hl, hid, rfl⟩ | he | hr
    · by_cases hx : x = c.id
      · exact Or.inr (Or.inr ⟨c, by simp, hx.symm⟩)
      · exact Or.inl ⟨l, mem_chunkUnlock hl (hid ▸ hx), hid, rfl⟩
    · exact Or.inr (Or.inl he)
    · exact Or.inr (Or.inr hr.append)
  once := h.once.append (by simp)

variable [ChunkIDSet S] [PeerSet P N S]

theorem Requests.receivedChunk (h : Requests cfg clock s events) (fromid : N) {c : Chunk}
    (hc : 0 ≤ c.id) (transId : UInt16) (ackSkipped : Bool) :
    Requests cfg clock (receivedChunk clock fromid (some (c, transId)) ackSkipped s).1
      (events ++ (receivedChunk clock fromid (some (c, transId)) ackSkipped s).2) := by
  have hid := chunkAttributesUpdateReceived_id c
  have hrec := (h.receive (c := chunkAttributesUpdateReceived c) (hid ▸ hc)).quiet
    (quiet_regSender clock fromid (chunkAttributesUpdateReceived c).id _)
  rw [List.append_nil] at hrec
  cases ackSkipped with
  | true => exact hrec
  | false =>
    have hack := hrec.quiet ((Quiet.refl _).concat (e := .sendAck fromid
      (cbToBmap (regSender clock fromid (chunkAttributesUpdateReceived c).id { s with
        locks := chunkUnlock (chunkAttributesUpdateReceived c).id s.locks
        cb := (ChunkBuffer.addChunk s.cb (chunkAttributesUpdateReceived c)).2 }).cb) transId)
      (by simp) (by simp))
    rw [List.append_assoc] at hack
    exact hack

/-- Chunks have ids that are not negative. -/
def Input.NonnegIds : Input N P S → Prop
  | .chunk _ (some (c, _)) _ => 0 ≤ c.id
  | .addChunk c => 0 ≤ c.id
  | _ => True

end Receive

theorem requests_init [LawfulChunkBuffer B] (cfg : Config) (clock : Clock) (pset : P)
    (period : Timeval) :
    Requests cfg clock (.init cfg pset period : State N B P) ([] : List (Event N S)) where
  nodup := List.nodup_nil
  size := LawfulChunkBuffer.size_init cfg.cbSize
  held x hx := by
    obtain ⟨c, hc, -⟩ := hx
    cases hc
  pending x t ht := by cases ht
  once pre post x t' heq := by simp at heq

section Run

variable [DecidableEq N] [ChunkIDSet S] [LawfulChunkIDSet S] [PeerSet P N S] [LawfulChunkBuffer B]

/-- Every reaction of a node keeps the invariant. -/
theorem Requests.step (hclock : clock.Forward) (h : Requests cfg clock s events)
    {input : Input N P S} (hin : input.NonnegIds) (hstep : step cfg clock input s = .ok (s', more)) :
    Requests cfg clock s' (events ++ more) := by
  cases input with
  | chunk fromid msg ackSkipped =>
    obtain ⟨rfl, rfl⟩ := Prod.mk.inj (Except.ok.inj hstep)
    rcases msg with _ | ⟨c, transId⟩
    · exact h.quiet (.refl s)
    · exact h.receivedChunk fromid hin transId ackSkipped
  | signal fromid msg sent =>
    rcases msg with _ | msg
    · obtain ⟨rfl, rfl⟩ := Prod.mk.inj (Except.ok.inj hstep)
      exact h.quiet (.refl s)
    cases msg with
    | bufferMap ownerid cset cbSize transId =>
      obtain ⟨rfl, rfl⟩ := Prod.mk.inj (Except.ok.inj hstep)
      exact h.quiet (quiet_updatePeer ..)
    | offer cset maxDeliver transId =>
      obtain ⟨rfl, rfl⟩ := Prod.mk.inj (Except.ok.inj hstep)
      exact h.offerReceived hclock fromid cset maxDeliver transId
    | accept cset transId =>
      obtain ⟨rfl, rfl⟩ := Prod.mk.inj (Except.ok.inj hstep)
      exact h.quiet (quiet_acceptReceived ..)
    | ack cset transId => exact h.quiet (quiet_ackReceived hstep)
    | other =>
      obtain ⟨rfl, rfl⟩ := Prod.mk.inj (Except.ok.inj hstep)
      exact h.quiet (.refl s)
  | sendChunk pair sent =>
    obtain ⟨rfl, rfl⟩ := Prod.mk.inj (Except.ok.inj hstep)
    exact h.quiet (quiet_sendChunk ..)
  | sendOffer skipped selected =>
    obtain ⟨rfl, rfl⟩ := Prod.mk.inj (Except.ok.inj hstep)
    exact h.quiet (quiet_sendOffer ..)
  | addChunk c =>
    obtain ⟨rfl, rfl⟩ := Prod.mk.inj (Except.ok.inj hstep)
    exact h.quiet
      { locks := rfl
        size := LawfulChunkBuffer.size_addChunk s.cb c
        held := fun x hx => hx.addChunk hin
        reads := Nat.le_refl _
        notLocked := by simp
        notReceived := by simp }
  | updatePeers pset =>
    obtain ⟨rfl, rfl⟩ := Prod.mk.inj (Except.ok.inj hstep)
    exact h.quiet (.of_cb rfl rfl (Nat.le_refl _))

/-- In every run of a node whose clock is not set back, no chunk is requested again while a request
of it is pending or once it was received; there is at most one lock for each chunk, and none after
the chunk was received. -/
theorem requested_once (cfg : Config) (clock : Clock) (hclock : clock.Forward) (pset : P)
    (period : Timeval) (inputs : List (Input N P S)) (hin : ∀ i ∈ inputs, i.NonnegIds)
    (s : State N B P) (events : List (Event N S))
    (h : Run.run (step cfg clock) inputs (.init cfg pset period) = .ok (s, events)) :
    RequestedOnce events ∧ s.locks.ids.Nodup ∧
      ∀ fromid c transId ackSkipped,
        c.id ∉ (receivedChunk clock fromid (some (c, transId)) ackSkipped s).1.locks.ids := by
  have hids : Run.Along (step cfg clock) (fun _ i => i.NonnegIds) inputs
      (.init cfg pset period : State N B P) := .of_forall fun i hi _ => hin i hi
  have hinv : Requests cfg clock s events := by
    apply Run.invariant (fun _ s events => Requests cfg clock s events)
      (requests_init cfg clock pset period) ?_ hids h
    intro pre i s out s' more hinv hi hstep
    exact hinv.step hclock hi hstep
  refine ⟨hinv.once, hinv.nodup, ?_⟩
  intro fromid c transId ackSkipped
  have hlocks := (quiet_regSender (N := N) (S := S) clock fromid
    (chunkAttributesUpdateReceived c).id { s with
      locks := chunkUnlock (chunkAttributesUpdateReceived c).id s.locks
      cb := (ChunkBuffer.addChunk s.cb (chunkAttributesUpdateReceived c)).2 }).locks
  show c.id ∉ (regSender clock fromid _ _).locks.ids
  rw [hlocks, chunkAttributesUpdateReceived_id]
  exact not_mem_ids_chunkUnlock hinv.nodup

end Run

/-- An offer of chunk 5, another one, the chunk, and a third offer. -/
def repeatedOffers : List (Input ℕ (ListPeers ℕ ListIDSet) ListIDSet) :=
  [.signal 1 (some (.offer five 1 7)) fun _ => true,
    .signal 2 (some (.offer five 1 7)) fun _ => true,
    .chunk 1 (some (⟨5, 0, [1], []⟩, 7)) false,
    .signal 2 (some (.offer five 1 8)) fun _ => true]

theorem requested_once_repeatedOffers : ∃ s events,
    Run.run (step plainConfig stillClock) repeatedOffers
      (State.init plainConfig (.empty : ListPeers ℕ ListIDSet) (.ofUsec 500000)) =
        .ok (s, events) ∧
    RequestedOnce events ∧ s.locks.ids.Nodup ∧
      ∀ fromid c transId ackSkipped, c.id ∉ (receivedChunk (B := ListBuffer) stillClock fromid
        (some (c, transId)) ackSkipped s).1.locks.ids := by
  obtain ⟨s, events, hrun⟩ := run_total (B := ListBuffer) plainConfig stillClock repeatedOffers
    (by simp [repeatedOffers, Input.IsAck])
    (State.init plainConfig (.empty : ListPeers ℕ ListIDSet) (.ofUsec 500000))
  exact ⟨s, events, hrun, requested_once (B := ListBuffer) (P := ListPeers ℕ ListIDSet)
    plainConfig stillClock forward_stillClock .empty (.ofUsec 500000) repeatedOffers
    (by simp [repeatedOffers, Input.NonnegIds]) s events hrun⟩

end PeerStreamer.Streaming
