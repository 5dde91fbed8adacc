import PeerStreamer.ChunkSignaling
import PeerStreamer.Lib.Readings

/-!
# The readings of a node

The functions of a node read the clock one time after the other, from the number in the state on.
So a reaction of a node does not depend on the times that it does not read (`sequential_step`).
-/

namespace PeerStreamer.Streaming

open Readings Positioned ChunkLock RateControl Transaction

instance : Answers Clock Timeval where
  read c := c.read
  thin c f _ := ⟨fun i => c.read (f i)⟩
  read_thin _ _ _ _ := rfl

variable {N B P S : Type}

instance : Positioned (State N B P) where
  pos s := s.reads
  move n s := { s with reads := n }
  pos_move _ _ := rfl
  move_pos _ := rfl
  move_move _ _ _ := rfl

instance : Positioned (Accepting N B P S) where
  pos a := a.s.reads
  move n a := { a with s := { a.s with reads := n } }
  pos_move _ _ := rfl
  move_pos _ := rfl
  move_move _ _ _ := rfl

instance : Positioned (Sending N B P S) where
  pos a := a.s.reads
  move n a := { a with s := { a.s with reads := n } }
  pos_move _ _ := rfl
  move_pos _ := rfl
  move_move _ _ _ := rfl

section Pure

variable {σ ρ : Type} [Positioned σ] [Positioned ρ]

/-- A function that does not read the clock. -/
theorem sequential_silent {f : σ → ρ} (hpos : ∀ s, pos (f s) = pos s)
    (hmove : ∀ m s, f (move m s) = move m (f s)) :
    Sequential fun (_ : Clock) s => (.ok (f s) : Except Fault ρ) := by
  apply Sequential.of_silent
  intro s r hr
  obtain rfl := Except.ok.inj hr
  exact ⟨hpos s, fun m => congrArg Except.ok (hmove m s)⟩

/-- A function that reads the clock once. -/
theorem sequential_read {f : Timeval → σ → ρ} (hpos : ∀ t s, pos (f t s) = pos s + 1)
    (hmove : ∀ t m s, f t (move m s) = move (m + 1) (f t s)) :
    Sequential fun (c : Clock) s => (.ok (f (c.read (pos s)) s) : Except Fault ρ) := by
  apply Sequential.of_read (f := fun t s => (.ok (f t s) : Except Fault ρ))
  intro t s r hr
  obtain rfl := Except.ok.inj hr
  exact ⟨hpos t s, fun m => congrArg Except.ok (hmove t m s)⟩

theorem sequential_nothing :
    Sequential fun (_ : Clock) (s : State N B P) =>
      (.ok (s, []) : Except Fault (State N B P × List (Event N S))) :=
  sequential_silent (fun _ => rfl) fun _ _ => rfl

end Pure

/-! ## Locks and needs -/

section Needs

theorem sequential_cleanup (ls : List (Lock N)) :
    Sequential fun (c : Clock) n => (.ok (cleanup c ls n) : Except Fault (List (Lock N) × ℕ)) := by
  induction ls with
  | nil => exact sequential_silent (fun _ => rfl) fun _ _ => rfl
  | cons l ls ih =>
    have hread : Sequential fun (c : Clock) (r : List (Lock N) × ℕ) => (.ok
        (if chunkLockTimedOut (c.read r.2) l then r.1 else l :: r.1, r.2 + 1) :
          Except Fault (List (Lock N) × ℕ)) :=
      sequential_read (f := fun t (r : List (Lock N) × ℕ) =>
        (if chunkLockTimedOut t l then r.1 else l :: r.1, r.2 + 1)) (fun _ _ => rfl)
        fun _ _ _ => rfl
    exact ih.comp hread

theorem sequential_chunkIslocked (x : Int) (t : Locks N) :
    Sequential fun (c : Clock) n =>
      (.ok (chunkIslocked c x t n) : Except Fault (Bool × Locks N × ℕ)) := by
  intro c n r hr
  obtain rfl := Except.ok.inj hr
  obtain ⟨hle, hmove⟩ := sequential_cleanup t.locks c n _ rfl
  refine ⟨hle, ?_⟩
  intro c' m hagree
  have hsame : cleanup c' t.locks m = _ := Except.ok.inj (hmove c' m hagree)
  show Except.ok (chunkIslocked c' x t m) = _
  unfold chunkIslocked chunkLocksCleanup
  simp only [hsame]
  rfl

variable [ChunkIDSet S] [ChunkBuffer B]

theorem sequential_tooOld (cfg : Config) (cb : B) (x : Int) :
    Sequential fun (c : Clock) n => (.ok (tooOld cfg c cb x n) : Except Fault (Bool × ℕ)) := by
  by_cases hlim : cfg.cbSizeTime < CB_SIZE_TIME_UNLIMITED
  · by_cases hts : getChunkTimestamp cb x ≠ 0
    · simp only [tooOld, if_pos hlim, if_pos hts]
      exact sequential_read (f := fun t n =>
        (decide (getChunkTimestamp cb x < inUs t - cfg.cbSizeTime), n + 1))
        (fun _ _ => rfl) fun _ _ _ => rfl
    · simp only [tooOld, if_pos hlim, if_neg hts]
      exact sequential_silent (fun _ => rfl) fun _ _ => rfl
  · simp only [tooOld, if_neg hlim]
    exact sequential_silent (fun _ => rfl) fun _ _ => rfl

theorem sequential_needsOf (cfg : Config) (cb : B) (cset : S) (cbSize x : Int) :
    Sequential fun (c : Clock) n =>
      (.ok (_needs cfg c cb cset cbSize x n) : Except Fault (Bool × ℕ)) := by
  by_cases hzero : cbSize = 0
  · simp only [_needs, if_pos hzero]
    exact sequential_silent (fun _ => rfl) fun _ _ => rfl
  · simp only [_needs, if_neg hzero]
    have hrest : Sequential fun (_ : Clock) (r : Bool × ℕ) => (.ok
        (if r.1 then (false, r.2)
        else if ChunkIDSet.check cset x < 0 then
          if ChunkIDSet.size cset = 0 then (true, r.2)
          else (decide (ChunkIDSet.earliest cset - max (cbSize - ChunkIDSet.size cset) 0 ≤ x), r.2)
        else (false, r.2)) : Except Fault (Bool × ℕ)) := by
      apply sequential_silent
      · intro r
        split_ifs <;> rfl
      · intro m ⟨old, n⟩
        show (if old then _ else _) = move m (if old then _ else _)
        split_ifs <;> rfl
    exact (sequential_tooOld cfg cb x).comp hrest

theorem sequential_needs (cfg : Config) (cb : B) (p : Peer N S) (x : Int) :
    Sequential fun (c : Clock) n => (.ok (needs cfg c cb p x n) : Except Fault (Bool × ℕ)) := by
  have hold : Sequential fun (_ : Clock) n => (.ok (false, n) : Except Fault (Bool × ℕ)) :=
    sequential_silent (fun _ => rfl) fun _ _ => rfl
  have hknown {F : Clock → ℕ → Bool × ℕ}
      (hF : Sequential fun c n => (.ok (F c n) : Except Fault (Bool × ℕ))) :=
    (sequential_tooOld cfg cb x).comp
      (hold.snd.branch (p := fun r : Bool × ℕ => r.1 = true) (fun _ _ => Iff.rfl) hF.snd)
  cases hbmap : p.bmap with
  | none =>
    simp only [needs, hbmap]
    exact hknown (F := fun _ n => (true, n)) (sequential_silent (fun _ => rfl) fun _ _ => rfl)
  | some bmap =>
    simp only [needs, hbmap]
    exact hknown (sequential_needsOf cfg cb bmap p.cbSize x)

end Needs

/-! ## Accepting -/

section Accepting

/-- `chunk_islocked`, within the loop of `get_chunks_to_accept`. -/
def lockCheck (clock : Clock) (x : Int) (a : Accepting N B P S) : Bool × Accepting N B P S :=
  let (locked, locks, n) := chunkIslocked clock x a.s.locks a.s.reads
  (locked, { a with s := { a.s with locks := locks, reads := n } })

/-- The chunk is locked and accepted. -/
def acceptChunk (peer : Option N) [ChunkIDSet S] (x : Int) (now : Timeval) (a : Accepting N B P S) :
    Accepting N B P S where
  s := { a.s with locks := chunkLock x peer now a.s.locks, reads := a.s.reads + 1 }
  csetAcc := ChunkIDSet.add a.csetAcc x
  d := a.d + 1
  events := a.events ++ [.locked x now]

theorem sequential_lockCheck (x : Int) :
    Sequential fun (c : Clock) (a : Accepting N B P S) =>
      (.ok (lockCheck c x a) : Except Fault (Bool × Accepting N B P S)) := by
  have hpair (t : Locks N) : Sequential fun (c : Clock) n => (.ok (((chunkIslocked c x t n).1,
      (chunkIslocked c x t n).2.1), (chunkIslocked c x t n).2.2) :
        Except Fault ((Bool × Locks N) × ℕ)) :=
    (sequential_chunkIslocked x t).comp
      (sequential_silent (f := fun r : Bool × Locks N × ℕ => ((r.1, r.2.1), r.2.2)) (fun _ => rfl)
        fun _ _ => rfl)
  have hstore : Sequential fun (_ : Clock) (r : (Bool × Locks N) × Accepting N B P S) => (.ok
      (r.1.1, { r.2 with s := { r.2.s with locks := r.1.2 } }) :
        Except Fault (Bool × Accepting N B P S)) :=
    sequential_silent (fun _ => rfl) fun _ _ => rfl
  exact Sequential.cases (k := fun a : Accepting N B P S => a.s.locks) (fun _ _ => rfl)
    fun t => (hpair t).within.comp hstore

variable [ChunkIDSet S] [ChunkBuffer B]

/-- `_needs`, within the loop. -/
def needCheck (cfg : Config) (clock : Clock) (myBmap : S) (x : Int) (a : Accepting N B P S) :
    Bool × Accepting N B P S :=
  let (need, n) := _needs cfg clock a.s.cb myBmap cfg.cbSize x a.s.reads
  (need, { a with s := { a.s with reads := n } })

theorem sequential_needCheck (cfg : Config) (myBmap : S) (x : Int) :
    Sequential fun (c : Clock) (a : Accepting N B P S) =>
      (.ok (needCheck cfg c myBmap x a) : Except Fault (Bool × Accepting N B P S)) :=
  Sequential.cases (k := fun a : Accepting N B P S => a.s.cb) (fun _ _ => rfl)
    fun cb => (sequential_needsOf cfg cb myBmap cfg.cbSize x).within

theorem sequential_acceptOne (cfg : Config) (peer : Option N) (myBmap : S) (x : Int) :
    Sequential fun (c : Clock) (a : Accepting N B P S) =>
      (.ok (acceptOne cfg c peer myBmap x a) : Except Fault (Accepting N B P S)) := by
  have hid : Sequential fun (_ : Clock) (a : Accepting N B P S) =>
      (.ok a : Except Fault (Accepting N B P S)) :=
    sequential_silent (fun _ => rfl) fun _ _ => rfl
  have haccept : Sequential fun (c : Clock) (a : Accepting N B P S) =>
      (.ok (acceptChunk peer x (c.read a.s.reads) a) : Except Fault (Accepting N B P S)) :=
    sequential_read (f := fun t a => acceptChunk peer x t a) (fun _ _ => rfl) fun _ _ _ => rfl
  have hneed := (sequential_needCheck (N := N) (B := B) (P := P) cfg myBmap x).comp
    (haccept.snd.branch (p := fun r : Bool × Accepting N B P S => r.1 = true) (fun _ _ => Iff.rfl)
      hid.snd)
  exact (sequential_lockCheck x).comp
    (hid.snd.branch (p := fun r : Bool × Accepting N B P S => r.1 = true) (fun _ _ => Iff.rfl)
      hneed.snd)

theorem sequential_acceptLoop (cfg : Config) (peer : Option N) (myBmap csetOff : S)
    (maxDeliver : Int) (is : List ℕ) :
    Sequential fun (c : Clock) (a : Accepting N B P S) =>
      (.ok (acceptLoop cfg c peer myBmap csetOff maxDeliver is a) :
        Except Fault (Accepting N B P S)) := by
  induction is with
  | nil => exact sequential_silent (fun _ => rfl) fun _ _ => rfl
  | cons i is ih =>
    exact ((sequential_acceptOne cfg peer myBmap (ChunkIDSet.getChunk csetOff i)).comp ih).branch
      (fun _ _ => Iff.rfl) (sequential_silent (fun _ => rfl) fun _ _ => rfl)

end Accepting

/-! ## Sending -/

section Sending

variable [ChunkIDSet S] [ChunkBuffer B] [PeerSet P N S]

/-- The test whether the peer needs the chunk, within the loop of `send_accepted_chunks`. -/
def mayNeedCheck (cfg : Config) (clock : Clock) (toid : N) (x : Int) (a : Sending N B P S) :
    Bool × Sending N B P S :=
  let (need, n) := mayNeed cfg clock toid x a.s
  (need, { a with s := { a.s with reads := n } })

theorem sequential_mayNeedCheck (cfg : Config) (toid : N) (x : Int) :
    Sequential fun (c : Clock) (a : Sending N B P S) =>
      (.ok (mayNeedCheck cfg c toid x a) : Except Fault (Bool × Sending N B P S)) := by
  have hany : Sequential fun (_ : Clock) (a : Sending N B P S) =>
      (.ok (true, a) : Except Fault (Bool × Sending N B P S)) :=
    sequential_silent (fun _ => rfl) fun _ _ => rfl
  have hpeer (p : Peer N S) : Sequential fun (c : Clock) (a : Sending N B P S) => (.ok
      ((needs cfg c a.s.cb p x a.s.reads).1,
        { a with s := { a.s with reads := (needs cfg c a.s.cb p x a.s.reads).2 } }) :
          Except Fault (Bool × Sending N B P S)) :=
    Sequential.cases (k := fun a : Sending N B P S => a.s.cb) (fun _ _ => rfl)
      fun cb => (sequential_needs cfg cb p x).within
  refine Sequential.option (k := fun a : Sending N B P S => PeerSet.getPeer a.s.pset toid)
    (fun _ _ => rfl) ?_ ?_ hany hpeer
  · intro c a h
    simp only [mayNeedCheck, mayNeed, h]
  · intro c a p h
    simp only [mayNeedCheck, mayNeed, h]

/-- The chunk is sent. -/
def pushChunk (toid : N) (c : Chunk) (transId : UInt16) (sent : Bool) (a : Sending N B P S) :
    Sending N B P S :=
  let (s, events) := transmit toid c transId sent a.s
  ⟨s, if sent then a.d + 1 else a.d, a.events ++ events⟩

theorem sequential_sendAcceptedOne (cfg : Config) (toid : N) (transId : UInt16) (x : Int)
    (sent : Bool) :
    Sequential fun (c : Clock) (a : Sending N B P S) =>
      (.ok (sendAcceptedOne cfg c toid transId x sent a) : Except Fault (Sending N B P S)) := by
  have hid : Sequential fun (_ : Clock) (a : Sending N B P S) =>
      (.ok a : Except Fault (Sending N B P S)) :=
    sequential_silent (fun _ => rfl) fun _ _ => rfl
  have hpush (d : Chunk) : Sequential fun (_ : Clock) (a : Sending N B P S) =>
      (.ok (pushChunk toid d transId sent a) : Except Fault (Sending N B P S)) := by
    cases sent <;> exact sequential_silent (fun _ => rfl) fun _ _ => rfl
  have hchunk (d : Chunk) := (sequential_mayNeedCheck (B := B) cfg toid x).comp
    ((hpush d).snd.branch (p := fun r : Bool × Sending N B P S => r.1 = true)
      (fun _ _ => Iff.rfl) hid.snd)
  refine Sequential.option (k := fun a : Sending N B P S => ChunkBuffer.getChunk a.s.cb x)
    (fun _ _ => rfl) ?_ ?_ hid hchunk
  · intro c a h
    simp only [sendAcceptedOne, h]
  · intro c a d h
    simp only [sendAcceptedOne, h]
    rfl

theorem sequential_sendAcceptedLoop (cfg : Config) (toid : N) (csetAcc : S) (maxDeliver : Int)
    (transId : UInt16) (sent : ℕ → Bool) (is : List ℕ) :
    Sequential fun (c : Clock) (a : Sending N B P S) =>
      (.ok (sendAcceptedLoop cfg c toid csetAcc maxDeliver transId sent is a) :
        Except Fault (Sending N B P S)) := by
  induction is with
  | nil => exact sequential_silent (fun _ => rfl) fun _ _ => rfl
  | cons i is ih =>
    exact ((sequential_sendAcceptedOne cfg toid transId (ChunkIDSet.getChunk csetAcc i)
      (sent i)).comp ih).branch (fun _ _ => Iff.rfl)
      (sequential_silent (fun _ => rfl) fun _ _ => rfl)

theorem sequential_sendAcceptedChunks (cfg : Config) (toid : N) (csetAcc : S) (maxDeliver : Int)
    (transId : UInt16) (sent : ℕ → Bool) :
    Sequential fun (c : Clock) (s : State N B P) =>
      (.ok (sendAcceptedChunks cfg c toid csetAcc maxDeliver transId sent s) :
        Except Fault (State N B P × List (Event N S))) := by
  have hreg : Sequential fun (c : Clock) (s : State N B P) => (.ok
      (⟨{ s with
          transactions := (transactionRegAccept transId toid (c.read s.reads) s.transactions).2
          reads := s.reads + 1 }, 0, []⟩ : Sending N B P S) : Except Fault (Sending N B P S)) :=
    sequential_read (f := fun t (s : State N B P) => (⟨{ s with
      transactions := (transactionRegAccept transId toid t s.transactions).2
      reads := s.reads + 1 }, 0, []⟩ : Sending N B P S)) (fun _ _ => rfl) fun _ _ _ => rfl
  have hout : Sequential fun (_ : Clock) (a : Sending N B P S) =>
      (.ok (a.s, a.events) : Except Fault (State N B P × List (Event N S))) :=
    sequential_silent (fun _ => rfl) fun _ _ => rfl
  exact hreg.comp ((sequential_sendAcceptedLoop cfg toid csetAcc maxDeliver transId sent _).comp
    hout)

/-- The body of the loop in `send_offer`, at the two times that it reads. -/
def offerAt (cfg : Config) (p : OfferPeer N) (checked now : Timeval) (s : State N B P) :
    State N B P × List (Event N S) :=
  let (transId, transactions) := transactionCreate checked now p.id s.transactions
  ({ s with transactions := transactions, reads := s.reads + 1 },
    [.offerChunks p.id (composeOfferCset cfg p.rtt s.cb) (offerMaxDeliver cfg p.hopcount) transId])

omit [PeerSet P N S] in
theorem sequential_offerLoop (cfg : Config) (ps : List (OfferPeer N)) :
    Sequential fun (c : Clock) (s : State N B P) =>
      (.ok (offerLoop (S := S) cfg c ps s) : Except Fault (State N B P × List (Event N S))) := by
  induction ps with
  | nil => exact sequential_nothing
  | cons p ps ih =>
    -- the open transactions are checked at one time, and the new one begins at the next
    have hchecked : Sequential fun (c : Clock) (s : State N B P) =>
        (.ok (c.read s.reads, { s with reads := s.reads + 1 }) :
          Except Fault (Timeval × State N B P)) :=
      sequential_read (f := fun t (s : State N B P) => (t, { s with reads := s.reads + 1 }))
        (fun _ _ => rfl) fun _ _ _ => rfl
    have hcreate : Sequential fun (c : Clock) (r : Timeval × State N B P) =>
        (.ok (offerAt cfg p r.1 (c.read r.2.reads) r.2) :
          Except Fault (State N B P × List (Event N S))) :=
      sequential_read (f := fun t (r : Timeval × State N B P) => offerAt cfg p r.1 t r.2)
        (fun _ _ => rfl) fun _ _ _ => rfl
    exact (hchecked.comp hcreate).append ih

theorem sequential_sendOffer (cfg : Config) (skipped : Bool) (selected : List (OfferPeer N)) :
    Sequential fun (c : Clock) (s : State N B P) => (.ok
      (sendOffer cfg c skipped selected s) : Except Fault (State N B P × List (Event N S))) :=
  Sequential.branch (p := fun s : State N B P =>
      (PeerSet.peers s.pset).isEmpty ∨ (ChunkBuffer.getChunks s.cb).isEmpty ∨ skipped)
    (fun _ _ => Iff.rfl) sequential_nothing (sequential_offerLoop cfg selected)

theorem sequential_sendChunk (pair : Option (N × Int)) (sent : Bool) :
    Sequential fun (_ : Clock) (s : State N B P) =>
      (.ok (sendChunk pair sent s) : Except Fault (State N B P × List (Event N S))) := by
  rcases pair with _ | ⟨toid, cid⟩
  · simp only [sendChunk, ite_self]
    exact sequential_nothing
  have hsend (c : Chunk) : Sequential fun (_ : Clock) (s : State N B P) =>
      (.ok (transmit toid c 0 sent s) : Except Fault (State N B P × List (Event N S))) := by
    cases sent <;> exact sequential_silent (fun _ => rfl) fun _ _ => rfl
  refine Sequential.option
    (k := fun s : State N B P =>
      if (PeerSet.peers s.pset).isEmpty ∨ (ChunkBuffer.getChunks s.cb).isEmpty then none
      else ChunkBuffer.getChunk s.cb cid)
    (fun _ _ => rfl) ?_ ?_ sequential_nothing hsend
  · intro _ s h
    unfold sendChunk
    split_ifs at h ⊢
    · rfl
    · simp only [h]
  · intro _ s c h
    unfold sendChunk
    split_ifs at h ⊢
    simp only [h]

end Sending

/-! ## Handlers -/

section Handlers

variable [PeerSet P N S]

theorem sequential_updatePeer (n : N) (f : Timeval → Peer N S → Peer N S) :
    Sequential fun (c : Clock) (s : State N B P) =>
      (.ok (updatePeer c n f s) : Except Fault (State N B P)) := by
  have hstore : Sequential fun (c : Clock) (s : State N B P) => (.ok
      { s with
        pset := PeerSet.update s.pset n (f (c.read s.reads))
        reads := s.reads + 1 } : Except Fault (State N B P)) :=
    sequential_read (f := fun t (s : State N B P) => { s with
      pset := PeerSet.update s.pset n (f t)
      reads := s.reads + 1 }) (fun _ _ => rfl) fun _ _ _ => rfl
  refine Sequential.option (k := fun s : State N B P => PeerSet.getPeer (S := S) s.pset n)
    (fun _ _ => rfl) ?_ ?_ (sequential_silent (fun _ => rfl) fun _ _ => rfl) fun _ => hstore
  · intro c s h
    simp only [updatePeer, h]
  · intro c s p h
    simp only [updatePeer, h]

theorem sequential_regSender [ChunkIDSet S] (n : N) (x : Int) :
    Sequential fun (c : Clock) (s : State N B P) =>
      (.ok (regSender (S := S) c n x s) : Except Fault (State N B P)) :=
  sequential_updatePeer n fun now p => { addToBmap x p with bmapTimestamp := now }

theorem sequential_bmapReceived [DecidableEq N] [ChunkIDSet S] (fromid ownerid : N) (cset : S)
    (cbSize : Int) :
    Sequential fun (c : Clock) (s : State N B P) => (.ok
      (bmapReceived c fromid ownerid cset cbSize s) :
        Except Fault (State N B P × List (Event N S))) := by
  exact (sequential_updatePeer (if fromid = ownerid then ownerid else fromid)
    fun now p => { resetBmap cset now p with cbSize := cbSize }).comp sequential_nothing

variable [ChunkIDSet S] [ChunkBuffer B]

theorem sequential_receivedChunk (fromid : N) (msg : Option (Chunk × UInt16)) (ackSkipped : Bool) :
    Sequential fun (c : Clock) (s : State N B P) => (.ok
      (receivedChunk c fromid msg ackSkipped s) :
        Except Fault (State N B P × List (Event N S))) := by
  rcases msg with _ | ⟨chunk, transId⟩
  · exact sequential_nothing
  set d := chunkAttributesUpdateReceived chunk with hd
  have hstore : Sequential fun (_ : Clock) (s : State N B P) => (.ok
      { s with locks := chunkUnlock d.id s.locks, cb := (ChunkBuffer.addChunk s.cb d).2 } :
        Except Fault (State N B P)) :=
    sequential_silent (fun _ => rfl) fun _ _ => rfl
  have hack : Sequential fun (_ : Clock) (s : State N B P) => (.ok
      (s, .outputDeliver d ::
        if ackSkipped then [] else [.sendAck fromid (cbToBmap s.cb) transId]) :
          Except Fault (State N B P × List (Event N S))) :=
    sequential_silent (fun _ => rfl) fun _ _ => rfl
  exact hstore.comp ((sequential_regSender (S := S) fromid d.id).comp hack)

theorem sequential_getChunksToAccept (cfg : Config) (fromid : N) (csetOff : S) (maxDeliver : Int) :
    Sequential fun (c : Clock) (s : State N B P) => (.ok
      (getChunksToAccept cfg c fromid csetOff maxDeliver s) :
        Except Fault (Accepting N B P S)) := by
  have hbegin : Sequential fun (_ : Clock) (s : State N B P) =>
      (.ok ⟨s, ChunkIDSet.initList, 0, []⟩ : Except Fault (Accepting N B P S)) :=
    sequential_silent (fun _ => rfl) fun _ _ => rfl
  exact Sequential.cases
    (k := fun s : State N B P =>
      ((PeerSet.getPeer s.pset fromid).map (Peer.id (S := S)), cbToBmap s.cb))
    (fun _ _ => rfl) fun key => hbegin.comp
      (sequential_acceptLoop cfg key.1 key.2 csetOff maxDeliver _)

theorem sequential_offerReceived (cfg : Config) (fromid : N) (cset : S) (maxDeliver : Int)
    (transId : UInt16) :
    Sequential fun (c : Clock) (s : State N B P) => (.ok
      (offerReceived cfg c fromid cset maxDeliver transId s) :
        Except Fault (State N B P × List (Event N S))) := by
  have hanswer : Sequential fun (_ : Clock) (a : Accepting N B P S) => (.ok
      (a.s, a.events ++ [.acceptChunks fromid a.csetAcc transId]) :
        Except Fault (State N B P × List (Event N S))) :=
    sequential_silent (fun _ => rfl) fun _ _ => rfl
  exact (sequential_updatePeer fromid (resetBmap cset)).comp
    ((sequential_getChunksToAccept cfg fromid cset maxDeliver).comp hanswer)

theorem sequential_acceptReceived (cfg : Config) (fromid : N) (cset : S) (maxDeliver : Int)
    (transId : UInt16) (sent : ℕ → Bool) :
    Sequential fun (c : Clock) (s : State N B P) => (.ok
      (acceptReceived cfg c fromid cset maxDeliver transId sent s) :
        Except Fault (State N B P × List (Event N S))) := by
  have hreg : Sequential fun (_ : Clock) (s : State N B P) => (.ok
      { s with rate := rcRegAccept cfg.rate transId (ChunkIDSet.size cset) s.rate } :
        Except Fault (State N B P)) :=
    sequential_silent (fun _ => rfl) fun _ _ => rfl
  exact (sequential_updatePeer (S := S) fromid fun now p => { p with bmapTimestamp := now }).comp
    (hreg.comp (sequential_sendAcceptedChunks cfg fromid cset maxDeliver transId sent))

theorem sequential_updateAccToAck (cfg : RateControl.Config ℚ) (t : ℚ) (r : RateControl.State ℚ) :
    Sequential fun (c : Clock) n => updateAccToAck cfg c.read t r n := by
  by_cases htune : cfg.autotunePeriod
  · simp only [updateAccToAck, if_pos htune]
    apply Sequential.of_read (f := fun now n => do
      let r ← updatePeriod cfg now { r with accToAck := t }
      return (r, n + 1))
    intro now n q hq
    obtain ⟨r', hr', hq⟩ := bind_eq_ok.1 hq
    obtain rfl := Except.ok.inj hq
    refine ⟨rfl, fun m => ?_⟩
    exact bind_eq_ok.2 ⟨r', hr', rfl⟩
  · simp only [updateAccToAck, if_neg htune]
    exact sequential_silent (fun _ => rfl) fun _ _ => rfl

theorem sequential_rcRegAck (cfg : RateControl.Config ℚ) (transId : UInt16) (t : Transactions N)
    (r : RateControl.State ℚ) :
    Sequential fun (c : Clock) n => rcRegAck cfg c.read transId t r n := by
  by_cases hneg : (transactionRemove transId t).1 < 0
  · simp only [rcRegAck, if_pos hneg]
    exact sequential_silent (fun _ => rfl) fun _ _ => rfl
  · simp only [rcRegAck, if_neg hneg]
    have hnow : Sequential fun (c : Clock) n =>
        (.ok (c.read n, n + 1) : Except Fault (Timeval × ℕ)) :=
      sequential_read (f := fun t (n : ℕ) => (t, n + 1)) (fun _ _ => rfl) fun _ _ _ => rfl
    have hupdate : Sequential fun (c : Clock) (q : Timeval × ℕ) =>
        updateAccToAck cfg c.read (Double.sub (seconds q.1) (transactionRemove transId t).1) r q.2 :=
      Sequential.cases (k := fun q : Timeval × ℕ => q.1) (fun _ _ => rfl) fun now =>
        (sequential_updateAccToAck cfg
          (Double.sub (seconds now) (transactionRemove transId t).1) r).snd
    have hrest : Sequential fun (_ : Clock) (q : RateControl.State ℚ × ℕ) =>
        (.ok ((transactionRemove transId t).2, q) :
          Except Fault (Transactions N × RateControl.State ℚ × ℕ)) :=
      sequential_silent (fun _ => rfl) fun _ _ => rfl
    exact (hnow.comp hupdate).bind hrest

omit [ChunkBuffer B] in
theorem sequential_ackReceived (cfg : Config) (fromid : N) (cset : S) (transId : UInt16) :
    Sequential fun (c : Clock) (s : State N B P) =>
      (ackReceived cfg c fromid cset transId s :
        Except Fault (State N B P × List (Event N S))) := by
  -- what the rate control returns, before its position
  have hpair (k : Transactions N × RateControl.State ℚ) : Sequential fun (c : Clock) n =>
      rcRegAck cfg.rate c.read transId k.1 k.2 n >>= fun q => .ok ((q.1, q.2.1), q.2.2) :=
    (sequential_rcRegAck cfg.rate transId k.1 k.2).bind
      (sequential_silent (fun _ => rfl) fun _ _ => rfl)
  have hwithin : Sequential fun (c : Clock) (s : State N B P) =>
      (rcRegAck cfg.rate c.read transId s.transactions s.rate s.reads >>=
        fun q => .ok ((q.1, q.2.1), q.2.2)) >>= fun q => .ok (q.1, move q.2 s) :=
    Sequential.cases (k := fun s : State N B P => (s.transactions, s.rate)) (fun _ _ => rfl)
      fun k => (hpair k).within
  have hstore : Sequential fun (_ : Clock)
      (q : (Transactions N × RateControl.State ℚ) × State N B P) => (.ok
        ({ q.2 with transactions := q.1.1, rate := q.1.2 }, []) :
          Except Fault (State N B P × List (Event N S))) :=
    sequential_silent (fun _ => rfl) fun _ _ => rfl
  have hack := (sequential_updatePeer fromid (resetBmap cset)).comp (hwithin.bind hstore)
  simp only [bind_assoc] at hack
  exact hack

end Handlers

/-! ## The node -/

section Step

variable [DecidableEq N] [ChunkIDSet S] [ChunkBuffer B] [PeerSet P N S]

theorem sequential_sigParseData (cfg : Config) (fromid : N) (msg : Option (Signal N S))
    (sent : ℕ → Bool) :
    Sequential fun (c : Clock) (s : State N B P) =>
      (sigParseData cfg c fromid msg sent s :
        Except Fault (State N B P × List (Event N S))) := by
  rcases msg with _ | msg
  · exact sequential_nothing
  cases msg with
  | bufferMap ownerid cset cbSize transId =>
    exact sequential_bmapReceived fromid ownerid cset cbSize
  | offer cset maxDeliver transId =>
    exact sequential_offerReceived cfg fromid cset maxDeliver transId
  | accept cset transId =>
    exact sequential_acceptReceived cfg fromid cset (ChunkIDSet.size cset) transId sent
  | ack cset transId => exact sequential_ackReceived cfg fromid cset transId
  | other => exact sequential_nothing

/-- A reaction of a node takes the times from its position on, and no others matter. -/
theorem sequential_step (cfg : Config) (input : Input N P S) :
    Sequential fun (c : Clock) (s : State N B P) => step cfg c input s := by
  cases input with
  | chunk fromid msg ackSkipped => exact sequential_receivedChunk fromid msg ackSkipped
  | signal fromid msg sent => exact sequential_sigParseData cfg fromid msg sent
  | sendChunk pair sent => exact sequential_sendChunk pair sent
  | sendOffer skipped selected => exact sequential_sendOffer cfg skipped selected
  | addChunk c => exact sequential_silent (fun _ => rfl) fun _ _ => rfl
  | updatePeers pset => exact sequential_silent (fun _ => rfl) fun _ _ => rfl

end Step

end PeerStreamer.Streaming
