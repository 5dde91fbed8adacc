import PeerStreamer.Loop
import PeerStreamer.Misdirected
import PeerStreamer.PeriodLimits
import PeerStreamer.SourceSchedule

/-!
# The main loop of a peer (`loop.c`)

`loop` handles a message or, when none has come by the time `tnext`, makes a round of offers, now
and then gossips, and puts `tnext` off by the offer period.  The period is the one that the rate
control of the node has set meanwhile.

A peer that gets behind makes up for it by rounds without waiting, but it has never made more of
them than the shortest period allows (`loop_paced`): `tnext` moves by the periods alone, and a round
is not made before it.
-/

namespace PeerStreamer.Streaming

open RateControl Transaction

variable {N B P S : Type} {cfg : Config} {clock : Clock} {s s' : State N B P}

/-- The parameters of the rate control are in their ranges. -/
structure Tuned (cfg : RateControl.Config ℚ) : Prop where
  up : 0 < cfg.periodChangeRateUp
  down : 0 < cfg.periodChangeRateDown
  accToAckMax : 0 < cfg.accToAckMax
  smoothing_nonneg : 0 ≤ cfg.offerAcceptSmoothing
  smoothing_le : cfg.offerAcceptSmoothing ≤ 1

/-- The rate control is within its limits, and its last update is in the past, on a clock that is
not set back. -/
structure Rated (clock : Clock) (s : State N B P) : Prop where
  forward : clock.Forward
  limits : InLimits s.rate
  updated : s.rate.periodLastUpdated.toUsec ≤ (clock.read s.reads).toUsec
  accept_nonneg : 0 ≤ s.rate.offerAccept
  accept_le : s.rate.offerAccept ≤ 1

/-- The rate stays, and time goes on. -/
structure Unrated (s s' : State N B P) : Prop where
  rate : s'.rate = s.rate
  reads : s.reads ≤ s'.reads

theorem Unrated.refl (s : State N B P) : Unrated s s := ⟨rfl, Nat.le_refl _⟩

theorem Unrated.trans {s'' : State N B P} (h : Unrated s s') (h' : Unrated s' s'') :
    Unrated s s'' :=
  ⟨h'.rate.trans h.rate, Nat.le_trans h.reads h'.reads⟩

theorem Rated.unrated (h : Rated clock s) (hs : Unrated s s') : Rated clock s' where
  forward := h.forward
  limits := hs.rate ▸ h.limits
  updated := by
    rw [hs.rate]
    exact h.updated.trans (h.forward _ _ hs.reads)
  accept_nonneg := hs.rate ▸ h.accept_nonneg
  accept_le := hs.rate ▸ h.accept_le

/-! ## What leaves the rate alone -/

section Unrated

variable [ChunkIDSet S] [ChunkBuffer B]

omit [ChunkIDSet S] in
theorem unrated_updatePeer [PeerSet P N S] (clock : Clock) (n : N)
    (f : Timeval → Peer N S → Peer N S) (s : State N B P) : Unrated s (updatePeer clock n f s) :=
  ⟨(updatePeer_frame clock n f s).2, (quiet_updatePeer clock n f s).reads⟩

theorem unrated_offerLoop (ps : List (OfferPeer N)) (s : State N B P) :
    Unrated s (offerLoop (S := S) cfg clock ps s).1 := by
  induction ps generalizing s with
  | nil => exact .refl s
  | cons p ps ih =>
    have hone : Unrated s (offerOne (S := S) cfg clock p s).1 := ⟨rfl, Nat.le_add_right ..⟩
    exact hone.trans (ih _)

theorem unrated_acceptLoop (cfg : Config) (clock : Clock) (peer : Option N) (myBmap csetOff : S)
    (maxDeliver : Int) (is : List ℕ) (a : Accepting N B P S) :
    Unrated a.s (acceptLoop cfg clock peer myBmap csetOff maxDeliver is a).s := by
  induction is generalizing a with
  | nil => exact .refl a.s
  | cons i is ih =>
    have hone : Unrated a.s
        (acceptOne cfg clock peer myBmap (ChunkIDSet.getChunk csetOff i) a).s := by
      have hlock : a.s.reads ≤
          (ChunkLock.chunkIslocked clock (ChunkIDSet.getChunk csetOff i) a.s.locks a.s.reads).2.2 :=
        ChunkLock.le_cleanup clock a.s.locks.locks a.s.reads
      have hneed := le_needs cfg clock a.s.cb myBmap cfg.cbSize (ChunkIDSet.getChunk csetOff i)
        (ChunkLock.chunkIslocked clock (ChunkIDSet.getChunk csetOff i) a.s.locks a.s.reads).2.2
      unfold acceptOne
      dsimp only
      split_ifs
      · exact ⟨rfl, hlock⟩
      · exact ⟨rfl, (hlock.trans hneed).trans (Nat.le_succ _)⟩
      · exact ⟨rfl, hlock.trans hneed⟩
    unfold acceptLoop
    split_ifs
    · exact hone.trans (ih _)
    · exact .refl a.s

variable [PeerSet P N S]

theorem unrated_offerReceived (fromid : N) (cset : S) (maxDeliver : Int) (transId : UInt16)
    (s : State N B P) :
    Unrated s (offerReceived cfg clock fromid cset maxDeliver transId s).1 := by
  have hpeer := unrated_updatePeer clock fromid (resetBmap cset) s
  have hloop := unrated_acceptLoop cfg clock
    ((PeerSet.getPeer (updatePeer clock fromid (resetBmap cset) s).pset fromid).map Peer.id)
    (cbToBmap (updatePeer clock fromid (resetBmap cset) s).cb) cset maxDeliver
    (List.range (ChunkIDSet.size cset))
    ⟨updatePeer clock fromid (resetBmap cset) s, ChunkIDSet.initList, 0, []⟩
  exact hpeer.trans hloop

theorem unrated_receivedChunk (fromid : N) (msg : Option (Chunk × UInt16)) (ackSkipped : Bool)
    (s : State N B P) : Unrated s (receivedChunk (S := S) clock fromid msg ackSkipped s).1 := by
  rcases msg with _ | ⟨c, transId⟩
  · exact .refl s
  · unfold receivedChunk regSender
    dsimp only
    split
    · exact ⟨rfl, Nat.le_refl _⟩
    · exact ⟨rfl, Nat.le_succ _⟩

theorem unrated_sendOffer (skipped : Bool) (selected : List (OfferPeer N)) (s : State N B P) :
    Unrated s (sendOffer (S := S) cfg clock skipped selected s).1 := by
  unfold sendOffer
  split_ifs
  · exact .refl s
  · exact unrated_offerLoop selected s

theorem unrated_sendChunk [LawfulChunkBuffer B] (pair : Option (N × Int)) (sent : Bool)
    (s : State N B P) : Unrated s (sendChunk (S := S) pair sent s).1 := by
  refine ⟨?_, (quiet_sendChunk (S := S) pair sent s).reads⟩
  rcases sendChunk_cases (S := S) pair sent s with h | ⟨toid, cid, c, -, h⟩
  · rw [h]
  · rw [h]
    exact (transmit_frame toid c 0 sent s).2

theorem unrated_sendAcceptedChunks [LawfulChunkBuffer B] (cfg : Config) (clock : Clock) (toid : N)
    (csetAcc : S) (maxDeliver : Int) (transId : UInt16) (sent : ℕ → Bool) (s : State N B P) :
    Unrated s (sendAcceptedChunks cfg clock toid csetAcc maxDeliver transId sent s).1 :=
  ⟨(sendAcceptedLoop_frame ..).2,
    (quiet_sendAcceptedChunks toid csetAcc maxDeliver transId sent s).reads⟩

end Unrated

/-! ## Accepts and acknowledgements -/

/-- The mean of the accepts is a ratio. -/
theorem Rated.rcRegAccept (hcfg : Tuned cfg.rate) (h : Rated clock s) (transId : UInt16)
    (accepted : ℕ) :
    Rated clock { s with rate := RateControl.rcRegAccept cfg.rate transId accepted s.rate } where
  forward := h.forward
  limits := h.limits
  updated := h.updated
  accept_nonneg := by
    have h0 := mul_nonneg h.accept_nonneg hcfg.smoothing_nonneg
    have h1 := hcfg.smoothing_le
    show 0 ≤ s.rate.offerAccept * cfg.rate.offerAcceptSmoothing + _
    split_ifs <;> linarith
  accept_le := by
    have h0 := mul_le_mul_of_nonneg_right h.accept_le hcfg.smoothing_nonneg
    have h1 := hcfg.smoothing_le
    show s.rate.offerAccept * cfg.rate.offerAcceptSmoothing + _ ≤ 1
    split_ifs <;> linarith

/-- `update_acc_to_ack` does what the sample of an acknowledgement does. -/
theorem updateAccToAck_eq (cfg : RateControl.Config ℚ) (read : ℕ → Timeval) (t : ℚ)
    (r : RateControl.State ℚ) (n : ℕ) : updateAccToAck cfg read t r n =
      (react cfg (.ack t (read n)) r).map fun x =>
        (x.1, if cfg.autotunePeriod then n + 1 else n) := by
  unfold react updateAccToAck
  by_cases htune : cfg.autotunePeriod = true
  · simp only [htune, if_true]
    cases updatePeriod cfg (read n) { r with accToAck := t } <;> rfl
  · simp only [if_neg htune]
    rfl

theorem offerAccept_setPeriod {x : ℚ} {r r' : RateControl.State ℚ} (h : setPeriod x r = .ok r') :
    r'.offerAccept = r.offerAccept := by
  obtain ⟨p, -, h⟩ := bind_eq_ok.1 h
  rw [← Except.ok.inj h]

theorem offerAccept_updatePeriod {cfg : RateControl.Config ℚ} (hmax : cfg.accToAckMax ≠ 0)
    {tnow : Timeval} {r r' : RateControl.State ℚ} (h : updatePeriod cfg tnow r = .ok r') :
    r'.offerAccept = r.offerAccept := by
  rw [updatePeriod_eq hmax] at h
  split_ifs at h
  · obtain ⟨p, -, h⟩ := bind_eq_ok.1 h
    have hsame := offerAccept_setPeriod h
    exact hsame
  · have hsame := offerAccept_setPeriod h
    exact hsame

/-- An acknowledgement does not count as an accept. -/
theorem offerAccept_react {cfg : RateControl.Config ℚ} (hmax : cfg.accToAckMax ≠ 0) {delay : ℚ}
    {tnow : Timeval} {r r' : RateControl.State ℚ} {out : List Int}
    (h : react cfg (.ack delay tnow) r = .ok (r', out)) : r'.offerAccept = r.offerAccept := by
  unfold react updateAccToAck at h
  dsimp only at h
  split_ifs at h with htune
  · cases hu : updatePeriod cfg tnow { r with accToAck := delay } with
    | error e =>
      rw [hu] at h
      cases h
    | ok u =>
      rw [hu] at h
      cases h
      have hsame := offerAccept_updatePeriod hmax hu
      exact hsame
  · cases h
    rfl

/-- An acknowledgement is handled without a failure: time has gone on since the last update. -/
theorem rcRegAck_ok {cfg : RateControl.Config ℚ} (hcfg : Tuned cfg) (hclock : clock.Forward)
    {r : RateControl.State ℚ} {n : ℕ} (hlimits : InLimits r)
    (hupdated : r.periodLastUpdated.toUsec ≤ (clock.read n).toUsec) (transId : UInt16)
    (t : Transactions N) :
    ∃ t' r' n', rcRegAck cfg clock.read transId t r n = .ok (t', r', n') ∧ n ≤ n' ∧
      InLimits r' ∧ r'.periodLastUpdated.toUsec ≤ (clock.read n').toUsec ∧
      r'.offerAccept = r.offerAccept := by
  obtain ⟨⟨tAcc, t'⟩, hremove⟩ : ∃ x, transactionRemove transId t = x := ⟨_, rfl⟩
  by_cases htAcc : tAcc < 0
  · exact ⟨t', r, n, by rw [rcRegAck, hremove]; exact if_pos htAcc, Nat.le_refl n, hlimits,
      hupdated, rfl⟩
  set delay := Double.sub (seconds (clock.read n)) tAcc
  have hforward : r.periodLastUpdated.toUsec ≤ (clock.read (n + 1)).toUsec :=
    hupdated.trans (hclock n (n + 1) (Nat.le_succ n))
  have hsteady : Steady cfg r (.ack delay (clock.read (n + 1))) := by
    refine steady_of_forward hcfg.up hcfg.down hlimits ?_
    intro tnow htnow
    rw [List.mem_singleton.1 htnow]
    exact hforward
  obtain ⟨r', out, hr', hlimits', -⟩ :=
    (kept_iff hcfg.up hcfg.down hcfg.accToAckMax hlimits _).2 hsteady
  refine ⟨t', r', if cfg.autotunePeriod then n + 1 + 1 else n + 1, ?_, ?_, hlimits', ?_, ?_⟩
  · rw [rcRegAck, hremove]
    dsimp only
    rw [if_neg htAcc, updateAccToAck_eq, hr']
    rfl
  · split_ifs <;> omega
  · rcases periodLastUpdated_react hcfg.accToAckMax.ne' hr' with heq | hmem
    · rw [heq]
      refine hupdated.trans (hclock _ _ ?_)
      split_ifs <;> omega
    · rw [List.mem_singleton.1 hmem]
      refine hclock _ _ ?_
      split_ifs <;> omega
  · exact offerAccept_react hcfg.accToAckMax.ne' hr'

variable [DecidableEq N] [ChunkIDSet S] [ChunkBuffer B] [LawfulChunkBuffer B] [PeerSet P N S]

/-- Every reaction of a node succeeds and keeps the rate control within its limits. -/
theorem Rated.step (hcfg : Tuned cfg.rate) (h : Rated clock s) (input : Input N P S) :
    ∃ s' events, step cfg clock input s = .ok (s', events) ∧ Rated clock s' ∧
      s.reads ≤ s'.reads := by
  have hunrated : ∀ s' : State N B P, Unrated s s' → Rated clock s' ∧ s.reads ≤ s'.reads :=
    fun s' hs => ⟨h.unrated hs, hs.reads⟩
  cases input with
  | chunk fromid msg ackSkipped =>
    exact ⟨_, _, rfl, hunrated _ (unrated_receivedChunk fromid msg ackSkipped s)⟩
  | signal fromid msg sent =>
    rcases msg with _ | sig
    · exact ⟨_, _, rfl, hunrated s (.refl s)⟩
    cases sig with
    | bufferMap ownerid cset cbSize transId =>
      exact ⟨_, _, rfl, hunrated _ (unrated_updatePeer clock _ _ s)⟩
    | offer cset maxDeliver transId =>
      exact ⟨_, _, rfl, hunrated _ (unrated_offerReceived fromid cset maxDeliver transId s)⟩
    | accept cset transId =>
      have hpeer := unrated_updatePeer clock fromid (fun now p => { p with bmapTimestamp := now }) s
      have hacc := (h.unrated hpeer).rcRegAccept hcfg transId (ChunkIDSet.size cset)
      have hsent := unrated_sendAcceptedChunks cfg clock fromid cset
        (ChunkIDSet.size cset) transId sent
        { updatePeer clock fromid (fun now p => { p with bmapTimestamp := now }) s with
          rate := RateControl.rcRegAccept cfg.rate transId (ChunkIDSet.size cset)
            (updatePeer clock fromid (fun now p => { p with bmapTimestamp := now }) s).rate }
      exact ⟨_, _, rfl, hacc.unrated hsent, hpeer.reads.trans hsent.reads⟩
    | ack cset transId =>
      have hpeer := unrated_updatePeer clock fromid (resetBmap cset) s
      have hrated := h.unrated hpeer
      obtain ⟨t, r, n, hack, hn, hlimits, hupdated, haccept⟩ :=
        rcRegAck_ok hcfg h.forward hrated.limits hrated.updated transId
          (updatePeer clock fromid (resetBmap cset) s).transactions
      refine ⟨{ updatePeer clock fromid (resetBmap cset) s with
        transactions := t, rate := r, reads := n }, [], ?_,
        ⟨h.forward, hlimits, hupdated, haccept ▸ hrated.accept_nonneg, haccept ▸ hrated.accept_le⟩,
        hpeer.reads.trans hn⟩
      show ackReceived cfg clock fromid cset transId s = _
      simp only [ackReceived, hack]
      rfl
    | other => exact ⟨_, _, rfl, hunrated s (.refl s)⟩
  | sendChunk pair sent => exact ⟨_, _, rfl, hunrated _ (unrated_sendChunk pair sent s)⟩
  | sendOffer skipped selected =>
    exact ⟨_, _, rfl, hunrated _ (unrated_sendOffer skipped selected s)⟩
  | addChunk c => exact ⟨_, _, rfl, hunrated _ ⟨rfl, Nat.le_refl _⟩⟩
  | updatePeers pset => exact ⟨_, _, rfl, hunrated _ ⟨rfl, Nat.le_refl _⟩⟩

end PeerStreamer.Streaming

namespace PeerStreamer.PeerLoop

open Streaming RateControl Timeval

/-- The local variables of `loop`, and the node. -/
structure State (N B P : Type) where
  tnext : Timeval
  cnt : ℕ
  node : Streaming.State N B P

/-- A message, with what the code outside the repository makes of it. -/
inductive Message (N P S : Type) where
  /-- A message of `MSG_TYPE_TMAN`, `MSG_TYPE_STREAMER_TOPOLOGY` or `MSG_TYPE_TOPOLOGY`, after which
  `update_peers` leaves this peer set. -/
  | topology (pset : P)
  | chunk (remote : N) (msg : Option (Chunk × UInt16)) (ackSkipped : Bool)
  | signalling (remote : N) (msg : Option (Signal N S)) (sent : ℕ → Bool)
  | other

/-- What an iteration meets: the result of `wait4data` and the message (`none` when it cannot be
received), the peers that are offered chunks, and the peer set that the gossip leaves. -/
structure Turn (N P S : Type) where
  res : Int
  message : Option (Message N P S)
  skipped : Bool
  selected : List (OfferPeer N)
  pset : P

inductive Event (N S : Type) where
  | node (e : Streaming.Event N S)
  /-- A round of offers. -/
  | sendOffer
  /-- `update_peers(NULL, NULL, 0)` -/
  | updatePeers

/-! ## The code -/

section Code

variable {N B P S : Type} [DecidableEq N] [ChunkIDSet S] [ChunkBuffer B] [PeerSet P N S]

/-- The dispatch on the message type. -/
def handleMessage (cfg : Config) (clock : Clock) (m : Option (Message N P S))
    (s : Streaming.State N B P) :
    Except Fault (Streaming.State N B P × List (Streaming.Event N S)) :=
  match m with
  | none => .ok (s, [])
  | some (.topology pset) => Streaming.step cfg clock (.updatePeers pset : Input N P S) s
  | some (.chunk remote msg ackSkipped) => Streaming.step cfg clock (.chunk remote msg ackSkipped) s
  | some (.signalling remote msg sent) => Streaming.step cfg clock (.signal remote msg sent) s
  | some .other => .ok (s, [])

/-- The branch for a timeout. -/
def handleTimeout (cfg : Config) (clock : Clock) (turn : Turn N P S) (s : State N B P) :
    State N B P × List (Event N S) :=
  let (node, offers) := Streaming.sendOffer cfg clock turn.skipped turn.selected s.node
  let (node, gossip) :=
    if s.cnt % 10 = 0 then ({ node with pset := turn.pset }, [.updatePeers]) else (node, [])
  (⟨timeradd s.tnext node.rate.period, s.cnt + 1, node⟩,
    .sendOffer :: offers.map .node ++ gossip)

/-- The body of the loop; `tout_init` reads the clock. -/
def iteration (cfg : Config) (clock : Clock) (turn : Turn N P S) (s : State N B P) :
    Except Fault (State N B P × List (Event N S)) :=
  let s := { s with node := { s.node with reads := s.node.reads + 1 } }
  if turn.res > 0 then do
    let (node, events) ← handleMessage cfg clock turn.message s.node
    return ({ s with node := node }, events.map .node)
  else .ok (handleTimeout cfg clock turn s)

/-- The state before the loop; `pset` is what the first `update_peers` leaves. -/
def State.init (cfg : Config) (clock : Clock) (csize : Int) (pset : P) : State N B P where
  tnext := clock.read 0
  cnt := 0
  node := { Streaming.State.init cfg pset (ofUsec csize) with reads := 1 }

/-- The loop, over the turns it makes. -/
def loop (cfg : Config) (clock : Clock) (csize : Int) (pset : P) (turns : List (Turn N P S)) :
    Except Fault (State N B P × List (Event N S)) :=
  Run.run (iteration cfg clock) turns (.init cfg clock csize pset)

end Code

/-! ## The pace of the offers -/

section Pace

variable {N B P S : Type}

/-- `wait4data` does not fail, and reports a timeout once the time has passed. -/
structure Turn.Waits (clock : Clock) (s : State N B P) (turn : Turn N P S) : Prop where
  nonneg : 0 ≤ turn.res
  timeout : turn.res = 0 →
    (clock.read s.node.reads).toUsec +
      (Loop.toutInit (clock.read s.node.reads) s.tnext).toUsec ≤
        (clock.read (s.node.reads + 1)).toUsec

/-- How many rounds of offers were made. -/
def rounds (events : List (Event N S)) : ℕ := events.countP fun e => e matches .sendOffer

/-- How often the node has gossiped. -/
def gossips (events : List (Event N S)) : ℕ := events.countP fun e => e matches .updatePeers

theorem rounds_append (events more : List (Event N S)) :
    rounds (events ++ more) = rounds events + rounds more := List.countP_append

theorem gossips_append (events more : List (Event N S)) :
    gossips (events ++ more) = gossips events + gossips more := List.countP_append

theorem rounds_node (events : List (Streaming.Event N S)) :
    rounds (events.map Event.node) = 0 := by
  simp [rounds, List.countP_map, Function.comp_def]

theorem gossips_node (events : List (Streaming.Event N S)) :
    gossips (events.map Event.node) = 0 := by
  simp [gossips, List.countP_map, Function.comp_def]

/-- What holds between two iterations, when the loop began at `start`. -/
structure Paced (clock : Clock) (start : Int) (s : State N B P) (events : List (Event N S)) :
    Prop where
  rated : Rated clock s.node
  cnt : s.cnt = rounds events
  gossip : gossips events = (rounds events + 9) / 10
  slow : start + rounds events * PERIOD_MIN ≤ s.tnext.toUsec
  fast : s.tnext.toUsec ≤ start + rounds events * PERIOD_MAX
  /-- The last round was made at its time. -/
  due : rounds events ≠ 0 →
    start + (rounds events - 1 : Int) * PERIOD_MIN ≤ (clock.read s.node.reads).toUsec

variable [DecidableEq N] [ChunkIDSet S] [ChunkBuffer B] [LawfulChunkBuffer B] [PeerSet P N S]
  {cfg : Config} {clock : Clock} {start : Int} {s s' : State N B P} {events : List (Event N S)}
  {turn : Turn N P S}

theorem rated_handleMessage (hcfg : Tuned cfg.rate) (m : Option (Message N P S))
    {s : Streaming.State N B P} (h : Rated clock s) :
    ∃ s' events, handleMessage cfg clock m s = .ok (s', events) ∧ Rated clock s' ∧
      s.reads ≤ s'.reads := by
  rcases m with _ | m
  · exact ⟨s, [], rfl, h, Nat.le_refl _⟩
  cases m with
  | topology pset => exact h.step hcfg (.updatePeers pset : Input N P S)
  | chunk remote msg ackSkipped => exact h.step hcfg (.chunk remote msg ackSkipped)
  | signalling remote msg sent => exact h.step hcfg (.signal remote msg sent)
  | other => exact ⟨s, [], rfl, h, Nat.le_refl _⟩

omit [DecidableEq N] [ChunkIDSet S] [ChunkBuffer B] [LawfulChunkBuffer B] [PeerSet P N S] in
/-- Nothing of the schedule changes when the node goes on. -/
theorem Paced.node (h : Paced clock start s events) {node : Streaming.State N B P}
    (hrated : Rated clock node) (hreads : s.node.reads ≤ node.reads)
    (more : List (Streaming.Event N S)) :
    Paced clock start { s with node := node } (events ++ more.map .node) := by
  have hrounds : rounds (events ++ more.map .node) = rounds events := by
    rw [rounds_append, rounds_node, Nat.add_zero]
  have hgossips : gossips (events ++ more.map .node) = gossips events := by
    rw [gossips_append, gossips_node, Nat.add_zero]
  refine ⟨hrated, ?_, ?_, ?_, ?_, ?_⟩ <;> rw [hrounds]
  · exact h.cnt
  · rw [hgossips]
    exact h.gossip
  · exact h.slow
  · exact h.fast
  · intro hne
    exact (h.due hne).trans (hrated.forward _ _ hreads)

/-- What the branch for a timeout does to the schedule. -/
structure Scheduled (s s' : State N B P) (events : List (Event N S)) : Prop where
  node : Unrated s.node s'.node
  tnext : s'.tnext.toUsec = s.tnext.toUsec + s.node.rate.period.toUsec
  cnt : s'.cnt = s.cnt + 1
  rounds : rounds events = 1
  gossips : gossips events = if s.cnt % 10 = 0 then 1 else 0

omit [DecidableEq N] [LawfulChunkBuffer B] in
theorem scheduled_handleTimeout (cfg : Config) (clock : Clock) (turn : Turn N P S)
    (s : State N B P) :
    Scheduled s (handleTimeout cfg clock turn s).1 (handleTimeout cfg clock turn s).2 := by
  have hoffers : Unrated s.node (Streaming.sendOffer (S := S) cfg clock turn.skipped
      turn.selected s.node).1 := unrated_sendOffer turn.skipped turn.selected s.node
  have hrounds (es : List (Streaming.Event N S)) : rounds (.sendOffer :: es.map .node) = 1 := by
    have hcons := rounds_append [.sendOffer] (es.map Event.node)
    rwa [rounds_node] at hcons
  have hgossips (es : List (Streaming.Event N S)) : gossips (.sendOffer :: es.map .node) = 0 := by
    have hcons := gossips_append [.sendOffer] (es.map Event.node)
    rwa [gossips_node] at hcons
  have htnext : (timeradd s.tnext (Streaming.sendOffer (S := S) cfg clock turn.skipped
      turn.selected s.node).1.rate.period).toUsec =
        s.tnext.toUsec + s.node.rate.period.toUsec := by
    rw [toUsec_timeradd, hoffers.rate]
  unfold handleTimeout
  dsimp only
  split_ifs with hcnt
  · refine ⟨⟨hoffers.rate, hoffers.reads⟩, htnext, rfl, ?_, ?_⟩
    · rw [rounds_append, hrounds]
      rfl
    · rw [gossips_append, hgossips, if_pos hcnt]
      rfl
  · refine ⟨hoffers, htnext, rfl, ?_, ?_⟩
    · rw [List.append_nil, hrounds]
    · rw [List.append_nil, hgossips, if_neg hcnt]

omit [DecidableEq N] [ChunkIDSet S] [ChunkBuffer B] [LawfulChunkBuffer B] [PeerSet P N S] in
/-- A round of offers that is not too early. -/
theorem Paced.scheduled (h : Paced clock start s events) {more : List (Event N S)}
    (hs : Scheduled s s' more) (hdue : s.tnext.toUsec ≤ (clock.read s.node.reads).toUsec) :
    Paced clock start s' (events ++ more) := by
  have hrounds : rounds (events ++ more) = rounds events + 1 := by
    rw [rounds_append, hs.rounds]
  have hlimits := h.rated.limits
  have hslow := h.slow
  have hfast := h.fast
  refine ⟨h.rated.unrated hs.node, ?_, ?_, ?_, ?_, ?_⟩ <;> rw [hrounds]
  · rw [hs.cnt, h.cnt]
  · rw [gossips_append, h.gossip, hs.gossips, h.cnt]
    split_ifs <;> omega
  · rw [hs.tnext]
    unfold InLimits at hlimits
    push_cast
    linarith [hlimits.1]
  · rw [hs.tnext]
    unfold InLimits at hlimits
    push_cast
    linarith [hlimits.2]
  · intro _
    have hmono := h.rated.forward _ _ hs.node.reads
    push_cast
    linarith

/-- Every iteration succeeds and keeps the pace. -/
theorem Paced.iteration (hcfg : Tuned cfg.rate) (h : Paced clock start s events)
    (hwaits : turn.Waits clock s) :
    ∃ s' more, iteration cfg clock turn s = .ok (s', more) ∧
      Paced clock start s' (events ++ more) := by
  set s₁ : State N B P := { s with node := { s.node with reads := s.node.reads + 1 } } with hs₁
  have hread : Unrated s.node s₁.node := ⟨rfl, Nat.le_succ _⟩
  have h₁ : Paced clock start s₁ events := by
    have hnode := h.node (h.rated.unrated hread) hread.reads ([] : List (Streaming.Event N S))
    rwa [List.map_nil, List.append_nil] at hnode
  unfold PeerLoop.iteration
  dsimp only
  by_cases hres : turn.res > 0
  · obtain ⟨node, more, hok, hrated, hreads⟩ := rated_handleMessage hcfg turn.message h₁.rated
    rw [if_pos hres]
    refine ⟨{ s₁ with node := node }, more.map .node, ?_, h₁.node hrated hreads more⟩
    rw [show handleMessage cfg clock turn.message { s.node with reads := s.node.reads + 1 } =
      .ok (node, more) from hok]
    rfl
  · -- the timeout has run until `tnext`
    have hdue : s.tnext.toUsec ≤ (clock.read s₁.node.reads).toUsec := by
      have htimeout := hwaits.timeout (by have := hwaits.nonneg; omega)
      rw [Loop.toutInit_spec] at htimeout
      exact (le_max_right _ _).trans htimeout
    rw [if_neg hres]
    exact ⟨_, _, rfl, h₁.scheduled (scheduled_handleTimeout cfg clock turn s₁) hdue⟩

omit [DecidableEq N] [ChunkIDSet S] [LawfulChunkBuffer B] [PeerSet P N S] in
theorem paced_init (cfg : Config) (hclock : clock.Forward) {csize : Int}
    (hmin : PERIOD_MIN ≤ csize) (hmax : csize ≤ PERIOD_MAX) (pset : P)
    (hstart : 0 ≤ (clock.read 0).toUsec) :
    Paced clock (clock.read 0).toUsec (.init cfg clock csize pset : State N B P)
      ([] : List (Event N S)) where
  rated :=
    { forward := hclock
      limits := by
        show PERIOD_MIN ≤ (ofUsec csize).toUsec ∧ (ofUsec csize).toUsec ≤ PERIOD_MAX
        rw [toUsec_ofUsec]
        exact ⟨hmin, hmax⟩
      updated := by
        have hmono := hclock 0 1 (Nat.zero_le 1)
        show (ofUsec 0).toUsec ≤ (clock.read 1).toUsec
        rw [toUsec_ofUsec]
        omega
      accept_nonneg := zero_le_one
      accept_le := le_refl 1 }
  cnt := rfl
  gossip := by simp [gossips, rounds]
  slow := by simp [rounds, State.init]
  fast := by simp [rounds, State.init]
  due hne := absurd rfl hne

/-- With a clock that is not set back, the loop of a peer never fails, whatever arrives.  The offer
period stays within its limits and the mean of the accepts is a ratio.  By any time, the node has
made no more rounds of offers than the shortest period allows, the next one is due after no more
than as many of the longest period, and it has gossiped at every tenth of them. -/
theorem loop_paced (cfg : Config) (hcfg : Tuned cfg.rate) (clock : Clock)
    (hclock : clock.Forward) (hstart : 0 ≤ (clock.read 0).toUsec) (csize : Int)
    (hmin : PERIOD_MIN ≤ csize) (hmax : csize ≤ PERIOD_MAX) (pset : P) (turns : List (Turn N P S))
    (hwaits : Run.Along (iteration cfg clock) (fun s turn => turn.Waits clock s) turns
      (.init cfg clock csize pset : State N B P)) :
    ∃ s events, loop cfg clock csize pset turns = .ok ((s : State N B P), events) ∧
      InLimits s.node.rate ∧ 0 ≤ s.node.rate.offerAccept ∧ s.node.rate.offerAccept ≤ 1 ∧
      (∀ n ≥ s.node.reads, rounds events ≠ 0 →
        (rounds events - 1 : Int) * PERIOD_MIN ≤
          (clock.read n).toUsec - (clock.read 0).toUsec) ∧
      s.tnext.toUsec - (clock.read 0).toUsec ≤ rounds events * PERIOD_MAX ∧
      gossips events = (rounds events + 9) / 10 := by
  obtain ⟨s, events, hrun, hpaced⟩ := Run.exists_run
    (fun _ s events => Paced clock (clock.read 0).toUsec s events)
    (paced_init cfg hclock hmin hmax pset hstart)
    (fun _ _ _ _ h hw => h.iteration hcfg hw) hwaits
  refine ⟨s, events, hrun, hpaced.rated.limits, hpaced.rated.accept_nonneg,
    hpaced.rated.accept_le, ?_, ?_, hpaced.gossip⟩
  · intro n hn hne
    have hdue := (hpaced.due hne).trans (hclock _ _ hn)
    linarith
  · have hfast := hpaced.fast
    linarith

end Pace

/-- A clock that is read every half second. -/
def tickingClock : Clock := ⟨fun n => ofUsec (n * 500000)⟩

theorem forward_tickingClock : tickingClock.Forward := by
  intro m n h
  show (ofUsec _).toUsec ≤ (ofUsec _).toUsec
  rw [toUsec_ofUsec, toUsec_ofUsec]
  omega

/-- A chunk arrives, and then no message for two rounds of offers. -/
def quietTurns : List (Turn ℕ (ListPeers ℕ ListIDSet) ListIDSet) :=
  let offer : Turn ℕ (ListPeers ℕ ListIDSet) ListIDSet :=
    ⟨0, none, false, [⟨1, some (1 / 10), 0⟩], ListPeers.empty.add 1 (ofUsec 0)⟩
  [{ offer with res := 1, message := some (.chunk 1 (some (⟨5, 0, [1], []⟩, 0)) false) }, offer,
    offer]

theorem loop_paced_quietTurns :
    ∃ s events, loop plainConfig tickingClock 500000
        (ListPeers.empty.add 1 (ofUsec 0) : ListPeers ℕ ListIDSet) quietTurns =
          .ok ((s : State ℕ ListBuffer (ListPeers ℕ ListIDSet)), events) ∧
      InLimits s.node.rate ∧ 0 ≤ s.node.rate.offerAccept ∧ s.node.rate.offerAccept ≤ 1 ∧
      (∀ n ≥ s.node.reads, rounds events ≠ 0 →
        (rounds events - 1 : Int) * PERIOD_MIN ≤
          (tickingClock.read n).toUsec - (tickingClock.read 0).toUsec) ∧
      s.tnext.toUsec - (tickingClock.read 0).toUsec ≤ rounds events * PERIOD_MAX ∧
      gossips events = (rounds events + 9) / 10 := by
  refine loop_paced plainConfig ?_ tickingClock forward_tickingClock (by decide) 500000 (by decide)
    (by decide) _ _ ?_
  · constructor <;> norm_num [plainConfig]
  · refine Run.along_cons.2 ⟨⟨by decide, by decide⟩, fun s events h => ?_⟩
    obtain ⟨rfl, rfl⟩ := Prod.mk.inj (Except.ok.inj h)
    refine Run.along_cons.2 ⟨⟨by decide, by decide⟩, fun s events h => ?_⟩
    obtain ⟨rfl, rfl⟩ := Prod.mk.inj (Except.ok.inj h)
    exact Run.along_cons.2 ⟨⟨by decide, by decide⟩, fun _ _ _ => Run.along_nil⟩

end PeerStreamer.PeerLoop
