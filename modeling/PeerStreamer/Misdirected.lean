import Mathlib.Tactic.LinearCombination
import PeerStreamer.StreamingProof

/-!
# Messages about a transaction of another peer

A transaction records the peer that was offered it.  An accept or an acknowledgement is misdirected
when its sender was not offered the transaction it names; neither handler compares the two.  The
misdirected messages that leave the transactions and the rate control as they are (`Harmless`) are
an acknowledgement of a transaction that is not open, and an accept that happens to store the values
that are already there.
-/

namespace PeerStreamer.Transaction

variable {N : Type*}

/-- No open transaction with this id was offered to the peer. -/
def Misdirected (transId : UInt16) (fromid : N) (t : Transactions N) : Prop :=
  ∀ st ∈ t.stl, st.transId = transId → st.id ≠ fromid

/-- An accept leaves the list alone when the time it stores is there already. -/
theorem regAccept_eq_self_iff {transId : UInt16} {time : ℚ} {stl : List (ServiceTime N)} :
    (regAccept transId time stl).2 = stl ↔
      ∀ st, (stl.find? fun st => st.transId = transId) = some st →
        st.acceptReceivedTime = time := by
  induction stl with
  | nil => simp [regAccept]
  | cons st stl ih =>
    by_cases hid : st.transId = transId
    · rw [regAccept, if_pos hid, List.find?_cons_of_pos (by simpa using hid)]
      simp only [List.cons.injEq, and_true, Option.some.injEq, forall_eq']
      constructor
      · intro heq
        exact (congrArg ServiceTime.acceptReceivedTime heq).symm
      · intro heq
        rw [← heq]
    · rw [regAccept, if_neg hid, List.find?_cons_of_neg (by simpa using hid), ← ih]
      simp only [List.cons.injEq, true_and]

theorem transactionRemove_of_forall {transId : UInt16} {t : Transactions N}
    (h : ∀ st ∈ t.stl, st.transId ≠ transId) : transactionRemove transId t = (-2, t) := by
  have hfind : (t.stl.find? fun st => st.transId = transId) = none := by
    rw [List.find?_eq_none]
    intro st hst
    simpa using h st hst
  rw [transactionRemove, hfind]

/-- An open transaction is taken out of the list. -/
theorem transactionRemove_ne {transId : UInt16} {t : Transactions N} {st : ServiceTime N}
    (hst : st ∈ t.stl) (hid : st.transId = transId) : (transactionRemove transId t).2 ≠ t := by
  unfold transactionRemove
  cases hfind : t.stl.find? fun st => st.transId = transId with
  | none =>
    rw [List.find?_eq_none] at hfind
    exact absurd (hfind st hst) (by simpa using hid)
  | some found =>
    intro heq
    have hlen := List.length_eraseP_of_mem (p := fun st => st.transId = transId) hst
      (by simpa using hid)
    have hpos := List.length_pos_of_mem hst
    have := congrArg (fun t : Transactions N => t.stl.length) heq
    simp only at this
    omega

end PeerStreamer.Transaction

namespace PeerStreamer.RateControl

open Transaction

variable {N : Type} {cfg : Config ℚ} {clock : ℕ → Timeval} {transId : UInt16}
  {t t' : Transactions N} {s s' : State ℚ} {n n' : ℕ}

theorem rcRegAck_of_forall (cfg : Config ℚ) (clock : ℕ → Timeval) (s : State ℚ) (n : ℕ)
    (h : ∀ st ∈ t.stl, st.transId ≠ transId) :
    rcRegAck cfg clock transId t s n = .ok (t, s, n) := by
  rw [rcRegAck, transactionRemove_of_forall h]
  rfl

theorem rcRegAck_transactions (h : rcRegAck cfg clock transId t s n = .ok (t', s', n')) :
    t' = (transactionRemove transId t).2 := by
  unfold rcRegAck at h
  dsimp only at h
  split_ifs at h
  · cases h
    rfl
  · obtain ⟨⟨u, m⟩, -, h⟩ := bind_eq_ok.1 h
    exact (Prod.mk.inj (Except.ok.inj h)).1.symm

/-- The accept ratio stays when it is not smoothed or has reached the value it moves to. -/
theorem offerAccept_rcRegAccept_eq_iff (transId : UInt16) (accepted : ℕ) :
    (rcRegAccept cfg transId accepted s).offerAccept = s.offerAccept ↔
      cfg.offerAcceptSmoothing = 1 ∨ s.offerAccept = if accepted ≠ 0 then 1 else 0 := by
  have hdiff : (rcRegAccept cfg transId accepted s).offerAccept - s.offerAccept =
      (1 - cfg.offerAcceptSmoothing) * ((if accepted ≠ 0 then 1 else 0) - s.offerAccept) := by
    unfold rcRegAccept updateOfferAccept
    by_cases hacc : accepted = 0
    · simp only [hacc, ne_eq, not_true_eq_false, decide_false, if_false, Bool.false_eq_true]
      ring
    · simp only [hacc, ne_eq, not_false_eq_true, decide_true, if_true]
      ring
  rw [← sub_eq_zero, hdiff, mul_eq_zero, sub_eq_zero, sub_eq_zero]
  exact or_congr eq_comm eq_comm

end PeerStreamer.RateControl

namespace PeerStreamer.Streaming

open Transaction RateControl

variable {N B P S : Type} [DecidableEq N] [ChunkIDSet S] [ChunkBuffer B] [PeerSet P N S]

/-- What a misdirected message must leave alone. -/
structure Unmoved (s s' : State N B P) : Prop where
  transactions : s'.transactions = s.transactions
  offerAccept : s'.rate.offerAccept = s.rate.offerAccept
  accToAck : s'.rate.accToAck = s.rate.accToAck
  period : s'.rate.period = s.rate.period

/-- A misdirected message is handled and leaves the rate control alone. -/
def Untouched (cfg : Config) (clock : Clock) (s : State N B P) (i : Input N P S) : Prop :=
  match i with
  | .signal fromid (some (.accept _ transId)) _ | .signal fromid (some (.ack _ transId)) _ =>
    Misdirected transId fromid s.transactions →
      ∃ s' events, step cfg clock i s = .ok (s', events) ∧ Unmoved s s'
  | _ => True

omit [ChunkIDSet S] [ChunkBuffer B] [DecidableEq N] in
/-- The number of the reading that an accept is registered with. -/
def acceptReading (fromid : N) (s : State N B P) : ℕ :=
  if (PeerSet.getPeer s.pset fromid).isSome then s.reads + 1 else s.reads

/-- The misdirected messages that the missing comparison lets through without harm. -/
def Harmless (cfg : Config) (clock : Clock) (s : State N B P) (i : Input N P S) : Prop :=
  match i with
  | .signal fromid (some (.accept cset transId)) _ =>
    Misdirected transId fromid s.transactions →
      (∀ st, (s.transactions.stl.find? fun st => st.transId = transId) = some st →
        st.acceptReceivedTime = seconds (clock.read (acceptReading fromid s))) ∧
      (cfg.rate.offerAcceptSmoothing = 1 ∨
        s.rate.offerAccept = if ChunkIDSet.size cset ≠ 0 then 1 else 0)
  | .signal fromid (some (.ack _ transId)) _ =>
    Misdirected transId fromid s.transactions → ∀ st ∈ s.transactions.stl, st.transId ≠ transId
  | _ => True

variable {cfg : Config} {clock : Clock}

/-! ## Accepts -/

omit [DecidableEq N] in
theorem transmit_frame (toid : N) (c : Chunk) (transId : UInt16) (sent : Bool) (s : State N B P) :
    (transmit toid c transId sent s).1.transactions = s.transactions ∧
      (transmit toid c transId sent s).1.rate = s.rate := by
  cases sent
  · exact ⟨rfl, rfl⟩
  · exact ⟨rfl, rfl⟩

omit [DecidableEq N] in
theorem sendAcceptedOne_frame (toid : N) (transId : UInt16) (chunkid : Int) (sent : Bool)
    (a : Sending N B P S) :
    (sendAcceptedOne cfg clock toid transId chunkid sent a).s.transactions = a.s.transactions ∧
      (sendAcceptedOne cfg clock toid transId chunkid sent a).s.rate = a.s.rate := by
  obtain ⟨n, -, hone | ⟨c, d, -, -, hone⟩⟩ :=
    sendAcceptedOne_cases cfg clock toid transId chunkid sent a
  · rw [hone]
    exact ⟨rfl, rfl⟩
  · rw [hone]
    exact transmit_frame toid c transId sent _

omit [DecidableEq N] in
/-- Sending the accepted chunks does not change the transactions or the rate. -/
theorem sendAcceptedLoop_frame (toid : N) (csetAcc : S) (maxDeliver : Int) (transId : UInt16)
    (sent : ℕ → Bool) (is : List ℕ) (a : Sending N B P S) :
    (sendAcceptedLoop cfg clock toid csetAcc maxDeliver transId sent is a).s.transactions =
        a.s.transactions ∧
      (sendAcceptedLoop cfg clock toid csetAcc maxDeliver transId sent is a).s.rate =
        a.s.rate := by
  refine sendAcceptedLoop_invariant
    (I := fun b => b.s.transactions = a.s.transactions ∧ b.s.rate = a.s.rate)
    (fun chunkid sent b h => ?_) csetAcc maxDeliver sent is ⟨rfl, rfl⟩
  rw [(sendAcceptedOne_frame ..).1, (sendAcceptedOne_frame ..).2]
  exact h

omit [DecidableEq N] in
/-- What an accept does to the transactions and the rate. -/
theorem acceptReceived_frame (cfg : Config) (clock : Clock) (fromid : N) (cset : S) (maxDeliver : Int)
    (transId : UInt16) (sent : ℕ → Bool) (s : State N B P) :
    (acceptReceived cfg clock fromid cset maxDeliver transId sent s).1.transactions =
        (transactionRegAccept transId fromid (clock.read (acceptReading (S := S) fromid s))
          s.transactions).2 ∧
      (acceptReceived cfg clock fromid cset maxDeliver transId sent s).1.rate =
        rcRegAccept cfg.rate transId (ChunkIDSet.size cset) s.rate := by
  unfold acceptReceived sendAcceptedChunks
  dsimp only
  rw [(sendAcceptedLoop_frame ..).1, (sendAcceptedLoop_frame ..).2]
  unfold updatePeer acceptReading
  cases PeerSet.getPeer s.pset fromid with
  | none => exact ⟨rfl, rfl⟩
  | some p => exact ⟨rfl, rfl⟩

theorem untouched_accept_iff {fromid : N} {cset : S} {transId : UInt16} {sent : ℕ → Bool}
    {s : State N B P} :
    Untouched cfg clock s (.signal fromid (some (.accept cset transId)) sent) ↔
      Harmless cfg clock s (.signal fromid (some (.accept cset transId)) sent) := by
  refine imp_congr_right fun _ => ?_
  obtain ⟨htrans, hrate⟩ := acceptReceived_frame cfg clock fromid cset (ChunkIDSet.size cset)
    transId sent s
  set r := acceptReceived cfg clock fromid cset (ChunkIDSet.size cset) transId sent s
  rw [← regAccept_eq_self_iff, ← offerAccept_rcRegAccept_eq_iff transId]
  constructor
  · rintro ⟨s', events, hs', hunmoved⟩
    obtain rfl : r.1 = s' := congrArg Prod.fst (Except.ok.inj hs')
    have hlist := htrans.symm.trans hunmoved.transactions
    have haccept := hunmoved.offerAccept
    rw [hrate] at haccept
    exact ⟨congrArg Transactions.stl hlist, haccept⟩
  · rintro ⟨hlist, haccept⟩
    refine ⟨r.1, r.2, rfl, ?_, ?_, ?_, ?_⟩
    · rw [htrans]
      exact congrArg (Transactions.mk · s.transactions.transId) hlist
    · rw [hrate, haccept]
    · rw [hrate]
      rfl
    · rw [hrate]
      rfl

/-! ## Acknowledgements -/

omit [DecidableEq N] [ChunkIDSet S] [ChunkBuffer B] in
theorem updatePeer_frame (clock : Clock) (n : N) (f : Timeval → Peer N S → Peer N S) (s : State N B P) :
    (updatePeer clock n f s).transactions = s.transactions ∧
      (updatePeer clock n f s).rate = s.rate := by
  unfold updatePeer
  split
  · exact ⟨rfl, rfl⟩
  · exact ⟨rfl, rfl⟩

theorem untouched_ack_iff {fromid : N} {cset : S} {transId : UInt16} {sent : ℕ → Bool}
    {s : State N B P} :
    Untouched cfg clock s (.signal fromid (some (.ack cset transId)) sent) ↔
      Harmless cfg clock s (.signal fromid (some (.ack cset transId)) sent) := by
  refine imp_congr_right fun _ => ?_
  obtain ⟨htrans, hrate⟩ := updatePeer_frame clock fromid (resetBmap cset) s
  constructor
  · rintro ⟨s', events, hs', hunmoved⟩ st hst hid
    change ackReceived cfg clock fromid cset transId s = _ at hs'
    simp only [ackReceived, htrans, hrate] at hs'
    cases hr : rcRegAck cfg.rate clock.read transId s.transactions s.rate
        (updatePeer clock fromid (resetBmap cset) s).reads with
    | error e =>
      rw [hr] at hs'
      cases hs'
    | ok r =>
      rw [hr] at hs'
      cases hs'
      have hremove := rcRegAck_transactions hr
      have hsame : r.1 = s.transactions := hunmoved.transactions
      rw [hremove] at hsame
      exact transactionRemove_ne hst hid hsame
  · intro hnone
    have hok := rcRegAck_of_forall cfg.rate clock.read s.rate
      (updatePeer clock fromid (resetBmap cset) s).reads hnone
    refine ⟨{ updatePeer clock fromid (resetBmap cset) s with
      transactions := s.transactions, rate := s.rate }, [], ?_, rfl, rfl, rfl, rfl⟩
    change ackReceived cfg clock fromid cset transId s = _
    simp only [ackReceived, htrans, hrate, hok]
    rfl

/-! ## Runs -/

theorem untouched_iff (s : State N B P) (i : Input N P S) :
    Untouched cfg clock s i ↔ Harmless cfg clock s i := by
  cases i with
  | signal fromid msg sent =>
    rcases msg with _ | msg
    · exact Iff.rfl
    cases msg with
    | accept cset transId => exact untouched_accept_iff
    | ack cset transId => exact untouched_ack_iff
    | _ => exact Iff.rfl
  | _ => exact Iff.rfl

/-- In a run the misdirected messages leave the rate control alone if and only if each of them is
harmless. -/
theorem along_untouched_iff (cfg : Config) (clock : Clock) (inputs : List (Input N P S))
    (s₀ : State N B P) :
    Run.Along (step cfg clock) (Untouched cfg clock) inputs s₀ ↔
      Run.Along (step cfg clock) (Harmless cfg clock) inputs s₀ :=
  Run.along_congr untouched_iff

/-- An empty accept of a transaction that was never opened. -/
def guessed : List (Input ℕ (ListPeers ℕ ListIDSet) ListIDSet) :=
  [.signal 7 (some (.accept .empty 9)) fun _ => true]

theorem not_along_untouched_guessed :
    ¬ Run.Along (step plainConfig stillClock) (Untouched plainConfig stillClock) guessed
      (.init plainConfig .empty (.ofUsec 500000) : State ℕ ListBuffer (ListPeers ℕ ListIDSet)) := by
  intro h
  obtain ⟨huntouched, -⟩ := Run.along_cons.1 h
  obtain ⟨s', events, hs', hunmoved⟩ := huntouched (fun st hst => absurd hst List.not_mem_nil)
  cases hs'
  exact absurd hunmoved.offerAccept (by decide +kernel)

end PeerStreamer.Streaming
