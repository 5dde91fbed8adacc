import PeerStreamer.ChunkSignaling

/-!
# What the streaming functions do

One lemma for each function: what its result says (`_needs_spec`, `needs_spec`), and which parts of
the state it leaves alone (`Quiet`).
-/

namespace PeerStreamer.Streaming

open ChunkLock Transaction

variable {N B P S : Type} [ChunkBuffer B] {cfg : Config} {clock : Clock}
  {s s' s'' : State N B P} {events more : List (Event N S)}

/-! ## Which chunks a node needs -/

theorem le_tooOld (cfg : Config) (clock : Clock) (cb : B) (cid : Int) (n : ℕ) :
    n ≤ (tooOld cfg clock cb cid n).2 := by
  unfold tooOld
  dsimp only
  split_ifs
  · exact Nat.le_succ n
  · exact Nat.le_refl n
  · exact Nat.le_refl n

section Needs

variable [ChunkIDSet S]

theorem le_needs (cfg : Config) (clock : Clock) (cb : B) (cset : S) (cbSize cid : Int) (n : ℕ) :
    n ≤ (_needs cfg clock cb cset cbSize cid n).2 := by
  have h := le_tooOld cfg clock cb cid n
  unfold _needs
  dsimp only
  split_ifs
  · exact Nat.le_refl n
  all_goals exact h

theorem le_mayNeed [PeerSet P N S] (cfg : Config) (clock : Clock) (toid : N) (chunkid : Int)
    (s : State N B P) :
    s.reads ≤ (mayNeed cfg clock toid chunkid s).2 := by
  unfold mayNeed
  split
  · exact Nat.le_refl _
  · rename_i p _
    have h := le_tooOld cfg clock s.cb chunkid s.reads
    unfold needs
    dsimp only
    split_ifs
    · exact h
    · split
      · exact h
      · exact Nat.le_trans h (le_needs ..)

variable [LawfulChunkIDSet S]

/-- A needed chunk is not in the set, and not too far below its earliest one. -/
theorem _needs_spec {cb : B} {cset : S} {cbSize cid : Int} {n : ℕ}
    (h : (_needs cfg clock cb cset cbSize cid n).1 = true) :
    cbSize ≠ 0 ∧ cid ∉ ChunkIDSet.ids cset ∧ (ChunkIDSet.size cset ≠ 0 →
      ChunkIDSet.earliest cset - max (cbSize - ChunkIDSet.size cset) 0 ≤ cid) := by
  unfold _needs at h
  dsimp only at h
  split_ifs at h with hzero hold hcheck hempty
  · exact ⟨hzero, (ChunkIDSet.check_neg_iff cset cid).1 hcheck, fun hne => absurd hempty hne⟩
  · exact ⟨hzero, (ChunkIDSet.check_neg_iff cset cid).1 hcheck, fun _ => by simpa using h⟩

/-- A peer does not need a chunk that its buffer map has. -/
theorem needs_spec {cb : B} {p : Peer N S} {bmap : S} {cid : Int} {n : ℕ}
    (h : (needs cfg clock cb p cid n).1 = true) (hp : p.bmap = some bmap) :
    cid ∉ ChunkIDSet.ids bmap := by
  unfold needs at h
  dsimp only at h
  split_ifs at h
  rw [hp] at h
  exact (_needs_spec h).2.1

/-! ## The buffer map of the own buffer -/

theorem mem_cbToBmap (cb : B) (x : Int) :
    x ∈ ChunkIDSet.ids (cbToBmap cb : S) ↔ x ∈ ChunkBuffer.ids cb := by
  rw [cbToBmap, ChunkIDSet.mem_foldl_add, LawfulChunkIDSet.ids_initBitmap, List.mem_reverse]
  simp [ChunkBuffer.ids]

theorem nodup_cbToBmap (cb : B) : (ChunkIDSet.ids (cbToBmap cb : S)).Nodup :=
  ChunkIDSet.nodup_ids_fill _

variable [LawfulChunkBuffer B]

theorem size_cbToBmap (cb : B) :
    ChunkIDSet.size (cbToBmap cb : S) = (ChunkBuffer.getChunks cb).length := by
  rw [← ChunkIDSet.length_ids, ← ChunkBuffer.length_ids]
  apply List.Perm.length_eq
  rw [List.perm_ext_iff_of_nodup (nodup_cbToBmap cb) (LawfulChunkBuffer.nodup_ids cb)]
  exact mem_cbToBmap cb

/-- A chunk that is held, in the buffer or given up by it, is not needed. -/
theorem not_held_of_needs {cb : B} {x : Int} {n : ℕ} (hsize : ChunkBuffer.size cb = cfg.cbSize)
    (h : (_needs cfg clock cb (cbToBmap cb : S) cfg.cbSize x n).1 = true) :
    ¬ ChunkBuffer.Held cb x := by
  obtain ⟨hzero, hmem, hearliest⟩ := _needs_spec h
  rw [mem_cbToBmap] at hmem
  intro hheld
  rcases hheld with hin | ⟨hfull, habove⟩
  · exact hmem hin
  · have hne : ChunkIDSet.size (cbToBmap cb : S) ≠ 0 := by
      rw [size_cbToBmap]
      omega
    have hle := hearliest hne
    have hids : ChunkIDSet.ids (cbToBmap cb : S) ≠ [] := by
      intro hnil
      rw [← ChunkIDSet.length_ids, hnil] at hne
      exact hne rfl
    have hlt := habove _ ((mem_cbToBmap cb _).1 (LawfulChunkIDSet.earliest_mem _ hids))
    rw [size_cbToBmap] at hle
    omega

end Needs

/-! ## Functions that neither accept nor receive -/

/-- The locks are the same, the buffer holds what it held, and no chunk is accepted or received. -/
structure Quiet (s s' : State N B P) (events : List (Event N S)) : Prop where
  locks : s'.locks = s.locks
  size : ChunkBuffer.size s'.cb = ChunkBuffer.size s.cb
  held : ∀ x, ChunkBuffer.Held s.cb x → ChunkBuffer.Held s'.cb x
  reads : s.reads ≤ s'.reads
  notLocked : ∀ x t, .locked x t ∉ events
  notReceived : ∀ c, .outputDeliver c ∉ events

theorem Quiet.of_cb (hlocks : s'.locks = s.locks) (hcb : s'.cb = s.cb)
    (hreads : s.reads ≤ s'.reads) : Quiet s s' ([] : List (Event N S)) where
  locks := hlocks
  size := by rw [hcb]
  held x := by
    rw [hcb]
    exact id
  reads := hreads
  notLocked _ _ := List.not_mem_nil
  notReceived _ := List.not_mem_nil

theorem Quiet.refl (s : State N B P) : Quiet s s ([] : List (Event N S)) :=
  .of_cb rfl rfl (Nat.le_refl _)

theorem Quiet.append (h : Quiet s s' events) (h' : Quiet s' s'' more) :
    Quiet s s'' (events ++ more) where
  locks := h'.locks.trans h.locks
  size := h'.size.trans h.size
  held x hx := h'.held x (h.held x hx)
  reads := Nat.le_trans h.reads h'.reads
  notLocked x t ht := (List.mem_append.1 ht).elim (h.notLocked x t) (h'.notLocked x t)
  notReceived c hc := (List.mem_append.1 hc).elim (h.notReceived c) (h'.notReceived c)

/-- The events do not matter beyond what is accepted or received. -/
theorem Quiet.concat {e : Event N S} (h : Quiet s s' events) (hl : ∀ x t, .locked x t ≠ e)
    (hd : ∀ c, .outputDeliver c ≠ e) : Quiet s s' (events ++ [e]) where
  locks := h.locks
  size := h.size
  held := h.held
  reads := h.reads
  notLocked x t ht := (List.mem_append.1 ht).elim (h.notLocked x t)
    fun he => hl x t (List.mem_singleton.1 he)
  notReceived c hc := (List.mem_append.1 hc).elim (h.notReceived c)
    fun he => hd c (List.mem_singleton.1 he)

theorem quiet_updatePeer [PeerSet P N S] (clock : Clock) (n : N)
    (f : Timeval → Peer N S → Peer N S) (s : State N B P) :
    Quiet s (updatePeer clock n f s) ([] : List (Event N S)) := by
  unfold updatePeer
  split
  · exact .refl s
  · exact .of_cb rfl rfl (Nat.le_succ _)

theorem quiet_regSender [ChunkIDSet S] [PeerSet P N S] (clock : Clock) (fromid : N) (cid : Int)
    (s : State N B P) : Quiet s (regSender clock fromid cid s) ([] : List (Event N S)) := by
  unfold regSender
  split
  · exact .refl s
  · exact .of_cb rfl rfl (Nat.le_succ _)

theorem pset_offerLoop [ChunkIDSet S] (ps : List (OfferPeer N)) (s : State N B P) :
    (offerLoop (S := S) cfg clock ps s).1.pset = s.pset := by
  induction ps generalizing s with
  | nil => rfl
  | cons p ps ih => exact ih _

theorem quiet_offerOne [ChunkIDSet S] (p : OfferPeer N) (s : State N B P) :
    Quiet s (offerOne (S := S) cfg clock p s).1 (offerOne (S := S) cfg clock p s).2 where
  locks := rfl
  size := rfl
  held _ hx := hx
  reads := Nat.le_add_right ..
  notLocked := by simp [offerOne]
  notReceived := by simp [offerOne]

theorem quiet_offerLoop [ChunkIDSet S] (ps : List (OfferPeer N)) (s : State N B P) :
    Quiet s (offerLoop (S := S) cfg clock ps s).1 (offerLoop (S := S) cfg clock ps s).2 := by
  induction ps generalizing s with
  | nil => exact .refl s
  | cons p ps ih => exact (quiet_offerOne p s).append (ih _)

theorem quiet_sendOffer [ChunkIDSet S] [PeerSet P N S] (skipped : Bool)
    (selected : List (OfferPeer N)) (s : State N B P) :
    Quiet s (sendOffer cfg clock skipped selected s).1
      (sendOffer cfg clock skipped selected s).2 := by
  unfold sendOffer
  split_ifs
  · exact .refl s
  · exact quiet_offerLoop selected s

omit [ChunkBuffer B] in
/-- After the store to the peer's record an acknowledgement changes only the transactions and the
offer rate, and reads the clock. -/
theorem ackReceived_ok [ChunkIDSet S] [PeerSet P N S] {fromid : N} {cset : S} {transId : UInt16}
    (h : ackReceived cfg clock fromid cset transId s = .ok (s', more)) :
    ∃ t r n, (updatePeer clock fromid (resetBmap cset) s).reads ≤ n ∧ more = [] ∧
      s' = { updatePeer clock fromid (resetBmap cset) s with
        transactions := t, rate := r, reads := n } := by
  obtain ⟨⟨t, r, n⟩, hr, h⟩ := bind_eq_ok.1 h
  obtain ⟨hs, hmore⟩ := Prod.mk.inj (Except.ok.inj h)
  exact ⟨t, r, n, RateControl.le_rcRegAck hr, hmore.symm, hs.symm⟩

theorem quiet_ackReceived [ChunkIDSet S] [PeerSet P N S] {fromid : N} {cset : S} {transId : UInt16}
    (h : ackReceived cfg clock fromid cset transId s = .ok (s', more)) : Quiet s s' more := by
  have hpeer := quiet_updatePeer clock fromid (resetBmap cset) s
  obtain ⟨t, r, n, hle, rfl, rfl⟩ := ackReceived_ok h
  exact hpeer.append (.of_cb rfl rfl hle)

section Handlers

variable [ChunkIDSet S] [PeerSet P N S] [LawfulChunkBuffer B]

theorem quiet_transmit (toid : N) (c : Chunk) (transId : UInt16) (sent : Bool)
    (s : State N B P) :
    Quiet s (transmit toid c transId sent s).1 (transmit toid c transId sent s).2 := by
  have hid := chunkAttributesUpdateSending_id
  cases sent <;>
  exact
    { locks := rfl
      size := LawfulChunkBuffer.size_update s.cb c.id _
      held := fun x hx => hx.update c.id hid
      reads := Nat.le_refl _
      notLocked := by simp [transmit]
      notReceived := by simp [transmit] }

omit [LawfulChunkBuffer B] in
/-- A round of the loop that answers an accept sends nothing, or a chunk of the buffer that the
peer may need. -/
theorem sendAcceptedOne_cases (cfg : Config) (clock : Clock) (toid : N) (transId : UInt16)
    (chunkid : Int) (sent : Bool) (a : Sending N B P S) :
    ∃ n, a.s.reads ≤ n ∧
      (sendAcceptedOne cfg clock toid transId chunkid sent a =
          { a with s := { a.s with reads := n } } ∨
        ∃ c d, ChunkBuffer.getChunk a.s.cb chunkid = some c ∧
          (mayNeed cfg clock toid chunkid a.s).1 = true ∧
          sendAcceptedOne cfg clock toid transId chunkid sent a =
            ⟨(transmit (S := S) toid c transId sent { a.s with reads := n }).1, d,
              a.events ++ (transmit toid c transId sent { a.s with reads := n }).2⟩) := by
  unfold sendAcceptedOne
  cases hc : ChunkBuffer.getChunk a.s.cb chunkid with
  | none => exact ⟨a.s.reads, Nat.le_refl _, .inl rfl⟩
  | some c =>
    refine ⟨_, le_mayNeed cfg clock toid chunkid a.s, ?_⟩
    by_cases hneed : (mayNeed cfg clock toid chunkid a.s).1 = true
    · simp only [if_pos hneed]
      exact .inr ⟨c, _, rfl, hneed, rfl⟩
    · simp only [if_neg hneed]
      exact .inl trivial

omit [LawfulChunkBuffer B] in
/-- What every round of the loop keeps, the loop keeps. -/
theorem sendAcceptedLoop_invariant {I : Sending N B P S → Prop} {toid : N} {transId : UInt16}
    (hone : ∀ chunkid sent a, I a → I (sendAcceptedOne cfg clock toid transId chunkid sent a))
    (csetAcc : S) (maxDeliver : Int) (sent : ℕ → Bool) (is : List ℕ) {a : Sending N B P S}
    (h : I a) : I (sendAcceptedLoop cfg clock toid csetAcc maxDeliver transId sent is a) := by
  induction is generalizing a with
  | nil => exact h
  | cons i is ih =>
    unfold sendAcceptedLoop
    split_ifs
    · exact ih (hone _ _ a h)
    · exact h

theorem quiet_sendAcceptedOne (toid : N) (transId : UInt16) (chunkid : Int) (sent : Bool)
    {a : Sending N B P S} (h : Quiet s a.s a.events) :
    Quiet s (sendAcceptedOne cfg clock toid transId chunkid sent a).s
      (sendAcceptedOne cfg clock toid transId chunkid sent a).events := by
  obtain ⟨n, hn, hone | ⟨c, d, -, -, hone⟩⟩ :=
    sendAcceptedOne_cases cfg clock toid transId chunkid sent a
  all_goals
    have hread : Quiet a.s { a.s with reads := n } ([] : List (Event N S)) := .of_cb rfl rfl hn
    rw [hone]
  · simpa only [List.append_nil] using h.append hread
  · exact h.append (hread.append (quiet_transmit toid c transId sent _))

theorem quiet_sendAcceptedChunks (toid : N) (csetAcc : S) (maxDeliver : Int) (transId : UInt16)
    (sent : ℕ → Bool) (s : State N B P) :
    Quiet s (sendAcceptedChunks cfg clock toid csetAcc maxDeliver transId sent s).1
      (sendAcceptedChunks cfg clock toid csetAcc maxDeliver transId sent s).2 :=
  sendAcceptedLoop_invariant (I := fun a => Quiet s a.s a.events)
    (fun chunkid sent _ h => quiet_sendAcceptedOne toid transId chunkid sent h)
    csetAcc maxDeliver sent _ (.of_cb rfl rfl (Nat.le_succ _))

omit [LawfulChunkBuffer B] in
/-- Nothing is sent, or a chunk of the buffer. -/
theorem sendChunk_cases (pair : Option (N × Int)) (sent : Bool) (s : State N B P) :
    sendChunk (S := S) pair sent s = (s, []) ∨
      ∃ toid cid c, ChunkBuffer.getChunk s.cb cid = some c ∧
        sendChunk (S := S) pair sent s = transmit toid c 0 sent s := by
  unfold sendChunk
  split_ifs
  · exact .inl rfl
  · rcases pair with _ | ⟨toid, cid⟩
    · exact .inl rfl
    · dsimp only
      cases hc : ChunkBuffer.getChunk s.cb cid with
      | none => exact .inl rfl
      | some c => exact .inr ⟨toid, cid, c, hc, rfl⟩

theorem quiet_sendChunk (pair : Option (N × Int)) (sent : Bool) (s : State N B P) :
    Quiet s (sendChunk pair sent s).1 (sendChunk pair sent s).2 := by
  rcases sendChunk_cases (S := S) pair sent s with h | ⟨toid, cid, c, -, h⟩
  · rw [h]
    exact .refl s
  · rw [h]
    exact quiet_transmit toid _ 0 sent s

theorem quiet_acceptReceived (fromid : N) (cset : S) (maxDeliver : Int) (transId : UInt16)
    (sent : ℕ → Bool) (s : State N B P) :
    Quiet s (acceptReceived cfg clock fromid cset maxDeliver transId sent s).1
      (acceptReceived cfg clock fromid cset maxDeliver transId sent s).2 := by
  have hpeer := quiet_updatePeer (S := S) clock fromid
    (fun now p => { p with bmapTimestamp := now }) s
  have hrate : Quiet (updatePeer clock fromid (fun now p => { p with bmapTimestamp := now }) s)
      { updatePeer clock fromid (fun now p => { p with bmapTimestamp := now }) s with
        rate := RateControl.rcRegAccept cfg.rate transId (ChunkIDSet.size cset)
          (updatePeer clock fromid (fun now p => { p with bmapTimestamp := now }) s).rate }
      ([] : List (Event N S)) := .of_cb rfl rfl (Nat.le_refl _)
  exact hpeer.append (hrate.append (quiet_sendAcceptedChunks fromid cset maxDeliver transId sent _))

end Handlers

/-! ## What is accepted -/

/-- The loop over an offer changes only the locks, and accepts at most `maxDeliver` of the offered
chunks. -/
structure AcceptsFrom (csetOff : S) (maxDeliver : Int) (s : State N B P)
    (a : Accepting N B P S) [ChunkIDSet S] : Prop where
  cb : a.s.cb = s.cb
  pset : a.s.pset = s.pset
  locked : ∀ e ∈ a.events, ∃ x t, e = .locked x t
  offered : ∀ x ∈ ChunkIDSet.ids a.csetAcc, x ∈ ChunkIDSet.ids csetOff
  nodup : (ChunkIDSet.ids a.csetAcc).Nodup
  counted : (ChunkIDSet.size a.csetAcc : Int) ≤ a.d
  bounded : a.d ≤ max maxDeliver 0

section Accept

variable [ChunkIDSet S] [LawfulChunkIDSet S] {csetOff : S} {maxDeliver : Int}

theorem AcceptsFrom.acceptOne (peer : Option N) (myBmap : S) {x : Int} {a : Accepting N B P S}
    (hx : x ∈ ChunkIDSet.ids csetOff) (hd : a.d < maxDeliver)
    (h : AcceptsFrom csetOff maxDeliver s a) :
    AcceptsFrom csetOff maxDeliver s (acceptOne cfg clock peer myBmap x a) := by
  unfold Streaming.acceptOne
  by_cases hlocked : (chunkIslocked clock x a.s.locks a.s.reads).1 = true
  · simp only [if_pos hlocked]
    exact { h with cb := h.cb, pset := h.pset }
  · simp only [if_neg hlocked]
    split_ifs with hneed
    · have hsize := ChunkIDSet.size_add_le h.nodup x
      have hcount := h.counted
      refine
        { cb := h.cb
          pset := h.pset
          locked := fun e he => ?_
          offered := fun y hy => ?_
          nodup := LawfulChunkIDSet.nodup_add a.csetAcc x h.nodup
          counted := ?_
          bounded := ?_ }
      · rcases List.mem_append.1 he with he | he
        · exact h.locked e he
        · exact ⟨x, _, List.mem_singleton.1 he⟩
      · rcases (LawfulChunkIDSet.mem_add _ _ _).1 hy with rfl | hy
        · exact hx
        · exact h.offered y hy
      · show (ChunkIDSet.size (ChunkIDSet.add a.csetAcc x) : Int) ≤ a.d + 1
        omega
      · show a.d + 1 ≤ _
        omega
    · exact { h with cb := h.cb, pset := h.pset }

theorem AcceptsFrom.acceptLoop (peer : Option N) (myBmap : S) (is : List ℕ)
    (his : ∀ i ∈ is, i < ChunkIDSet.size csetOff) {a : Accepting N B P S}
    (h : AcceptsFrom csetOff maxDeliver s a) :
    AcceptsFrom csetOff maxDeliver s
      (acceptLoop cfg clock peer myBmap csetOff maxDeliver is a) := by
  induction is generalizing a with
  | nil => exact h
  | cons i is ih =>
    unfold Streaming.acceptLoop
    split_ifs with hd
    · have hi := ChunkIDSet.getChunk_mem_ids csetOff (his i (List.mem_cons_self ..))
      exact ih (fun j hj => his j (List.mem_cons_of_mem _ hj)) (h.acceptOne peer myBmap hi hd)
    · exact h

theorem getChunksToAccept_spec [PeerSet P N S] (cfg : Config) (clock : Clock) (fromid : N)
    (csetOff : S) (maxDeliver : Int) (s : State N B P) : AcceptsFrom csetOff maxDeliver s
      (getChunksToAccept cfg clock fromid csetOff maxDeliver s) := by
  apply AcceptsFrom.acceptLoop _ _ _ fun i hi => List.mem_range.1 hi
  have hempty : ChunkIDSet.size (ChunkIDSet.initList : S) = 0 := by
    rw [← ChunkIDSet.length_ids, LawfulChunkIDSet.ids_initList, List.length_nil]
  exact
    { cb := rfl
      pset := rfl
      locked := by simp
      offered := by simp [LawfulChunkIDSet.ids_initList]
      nodup := by simp [LawfulChunkIDSet.ids_initList]
      counted := by simp [hempty]
      bounded := Int.le_max_right .. }

end Accept

/-! ## A plain setting -/

/-- A buffer of ten chunks, no playout limit and no tuning of the offer period. -/
def plainConfig : Config where
  cbSize := 10
  source := false
  cbSizeTime := CB_SIZE_TIME_UNLIMITED
  heuristicsDistanceMaxdeliver := false
  rate := ⟨false, 9 / 10, 3 / 10, 3 / 10, 1 / 5, 1 / 10, id⟩

/-- The set of chunk 5. -/
def five : ListIDSet := ⟨[5]⟩

/-- A clock that stands still. -/
def stillClock : Clock := ⟨fun _ => .ofUsec 0⟩

theorem forward_stillClock : stillClock.Forward := fun _ _ _ => Int.le_refl _

end PeerStreamer.Streaming
