import PeerStreamer.Overlay

/-!
# What a node says it has and what others make of it

A node decides by `_needs` what it accepts, and others decide by `needs` what to send it, from the
buffer map it sent last.  Both compute `Wants`, of different sets and sizes.  A buffer map message
gives the whole buffer, but a source gives the size 0 in it and not in its own test (`agrees_iff`).
An offer replaces the buffer map of the one who offers, although it leaves chunks out
(`covered_iff`).
-/

namespace PeerStreamer.Streaming

open ChunkLock PeerSet

/-! ## What is wanted -/

/-- `x` is too old for a buffer of this size whose chunks are `held`. -/
def BelowWindow (held : List Int) (cbSize x : Int) : Prop :=
  ∃ m ∈ held, (∀ y ∈ held, m ≤ y) ∧ x < m - max (cbSize - held.length) 0

/-- What `_needs` computes without a playout limit. -/
def Wants (held : List Int) (cbSize x : Int) : Prop :=
  cbSize ≠ 0 ∧ x ∉ held ∧ ¬ BelowWindow held cbSize x

theorem BelowWindow.perm {held held' : List Int} {cbSize x : Int} (h : held.Perm held') :
    BelowWindow held cbSize x ↔ BelowWindow held' cbSize x := by
  simp only [BelowWindow, h.mem_iff, h.length_eq]

theorem Wants.perm {held held' : List Int} {cbSize x : Int} (h : held.Perm held') :
    Wants held cbSize x ↔ Wants held' cbSize x := by
  simp only [Wants, h.mem_iff, BelowWindow.perm h]

variable {N B P S : Type} [ChunkBuffer B]

theorem tooOld_of_unlimited {cfg : Config} (h : CB_SIZE_TIME_UNLIMITED ≤ cfg.cbSizeTime)
    (clock : Clock) (cb : B) (x : Int) (n : ℕ) : tooOld cfg clock cb x n = (false, n) := by
  unfold tooOld
  rw [if_neg (UInt64.not_lt.2 h)]

variable [ChunkIDSet S] [LawfulChunkIDSet S]

theorem belowWindow_ids {cset : S} {cbSize x : Int} (hne : ChunkIDSet.size cset ≠ 0) :
    BelowWindow (ChunkIDSet.ids cset) cbSize x ↔
      x < ChunkIDSet.earliest cset - max (cbSize - ChunkIDSet.size cset) 0 := by
  have hids : ChunkIDSet.ids cset ≠ [] := by
    intro hnil
    rw [← ChunkIDSet.length_ids, hnil] at hne
    exact hne rfl
  have hmem := LawfulChunkIDSet.earliest_mem cset hids
  have hle := LawfulChunkIDSet.earliest_le cset
  unfold BelowWindow
  rw [ChunkIDSet.length_ids]
  constructor
  · rintro ⟨m, hm, hmin, hx⟩
    have := hmin _ hmem
    have := hle m hm
    omega
  · intro hx
    exact ⟨_, hmem, hle, hx⟩

theorem _needs_iff {cfg : Config} (h : CB_SIZE_TIME_UNLIMITED ≤ cfg.cbSizeTime) (clock : Clock)
    (cb : B) (cset : S) (cbSize x : Int) (n : ℕ) :
    (_needs cfg clock cb cset cbSize x n).1 = true ↔ Wants (ChunkIDSet.ids cset) cbSize x := by
  unfold _needs Wants
  simp only [tooOld_of_unlimited h]
  by_cases hzero : cbSize = 0
  · simp [hzero]
  by_cases hmem : x ∈ ChunkIDSet.ids cset
  · simp [hzero, hmem, ChunkIDSet.check_neg_iff]
  by_cases hempty : ChunkIDSet.size cset = 0
  · have hnil : ChunkIDSet.ids cset = [] := by
      rw [← List.length_eq_zero_iff, ChunkIDSet.length_ids, hempty]
    simp [hzero, hempty, hnil, ChunkIDSet.check_neg_iff, BelowWindow]
  · simp [hzero, hmem, hempty, ChunkIDSet.check_neg_iff, belowWindow_ids hempty]

/-- A peer whose buffer map is known needs what its buffer map and size tell. -/
theorem needs_iff {cfg : Config} (h : CB_SIZE_TIME_UNLIMITED ≤ cfg.cbSizeTime) (clock : Clock)
    (cb : B) {p : Peer N S} {bmap : S} (hp : p.bmap = some bmap) (x : Int) (n : ℕ) :
    (needs cfg clock cb p x n).1 = true ↔ Wants (ChunkIDSet.ids bmap) p.cbSize x := by
  unfold needs
  simp only [tooOld_of_unlimited h, hp]
  exact _needs_iff h clock cb bmap p.cbSize x n

/-! ## The record of a peer -/

section Record

variable [DecidableEq N] [PeerSet P N S] [LawfulPeerSet P N S] {clock : Clock} {n : N}
  {s : State N B P} {p : Peer N S}

omit [ChunkBuffer B] [ChunkIDSet S] [LawfulChunkIDSet S] in
theorem getPeer_updatePeer {f : Timeval → Peer N S → Peer N S}
    (hf : ∀ now q, (f now q).id = q.id) (hp : getPeer s.pset n = some p) :
    getPeer (updatePeer clock n f s).pset n = some (f (clock.read s.reads) p) := by
  unfold updatePeer
  rw [hp]
  simp only
  rw [getPeer_update _ _ _ (hf _), hp, Option.map_some, if_pos rfl]

omit [DecidableEq N] in
/-- The buffer map becomes the set of the message. -/
theorem resetBmap_bmap {bmap : S} (hp : p.bmap = some bmap) {cset : S}
    (hcset : (ChunkIDSet.ids cset).Nodup) (now : Timeval) :
    ∃ bmap', (resetBmap cset now p).bmap = some bmap' ∧
      (ChunkIDSet.ids bmap').Perm (ChunkIDSet.ids cset) := by
  refine ⟨ChunkIDSet.union (ChunkIDSet.clear bmap) cset, ?_, ?_⟩
  · rw [resetBmap, hp]
    rfl
  · have hclear : (ChunkIDSet.ids (ChunkIDSet.clear bmap)).Nodup := by
      rw [LawfulChunkIDSet.ids_clear]
      exact List.nodup_nil
    rw [List.perm_ext_iff_of_nodup (LawfulChunkIDSet.nodup_union _ cset hclear) hcset]
    intro x
    rw [LawfulChunkIDSet.mem_union, LawfulChunkIDSet.ids_clear]
    simp

end Record

/-! ## What is accepted of an offer -/

section Accept

variable {cfg : Config} {clock : Clock} {peer : Option N} {myBmap csetOff : S} {x y : Int}
  {a : Accepting N B P S}

/-- The test of the loop lets the chunk through. -/
def Unlocked (clock : Clock) (x : Int) (s : State N B P) : Prop :=
  (chunkIslocked clock x s.locks s.reads).1 = false

omit [ChunkBuffer B] in
theorem unlocked_of_not_mem {s : State N B P} (h : x ∉ s.locks.ids) : Unlocked clock x s := by
  have hsub := ids_chunkIslocked_sublist clock x s.locks s.reads
  rw [Unlocked, ← Bool.not_eq_true]
  intro hlocked
  obtain ⟨l, hl, hid⟩ := List.any_eq_true.1 hlocked
  exact h (hsub.subset (List.mem_map.2 ⟨l, hl, by simpa using hid⟩))

omit [LawfulChunkIDSet S] in
theorem d_acceptOne_le (cfg : Config) (clock : Clock) (peer : Option N) (myBmap : S) (y : Int)
    (a : Accepting N B P S) : (acceptOne cfg clock peer myBmap y a).d ≤ a.d + 1 := by
  unfold acceptOne
  dsimp only
  split_ifs <;> simp

omit [LawfulChunkIDSet S] in
/-- The cleanup is the same for every chunk, and only the chunk itself is locked. -/
theorem unlocked_acceptOne (hne : y ≠ x) (h : Unlocked clock x a.s) :
    Unlocked clock x (acceptOne cfg clock peer myBmap y a).s := by
  have hx : x ∉ (chunkIslocked clock y a.s.locks a.s.reads).2.1.ids := chunkIslocked_eq_false h
  apply unlocked_of_not_mem
  unfold acceptOne
  dsimp only
  split_ifs
  · exact hx
  · rw [ids_chunkLock, List.mem_append, List.mem_singleton]
    exact not_or.2 ⟨hx, hne.symm⟩
  · exact hx

/-- What is accepted stays accepted. -/
theorem mem_acceptOne (cfg : Config) (clock : Clock) (peer : Option N) (myBmap : S) (y : Int)
    (h : x ∈ ChunkIDSet.ids a.csetAcc) :
    x ∈ ChunkIDSet.ids (acceptOne cfg clock peer myBmap y a).csetAcc := by
  unfold acceptOne
  dsimp only
  split_ifs
  · exact h
  · exact ChunkIDSet.mem_add_of_mem y h
  · exact h

/-- Only a wanted chunk is accepted. -/
theorem wants_of_mem_acceptOne (hunlim : CB_SIZE_TIME_UNLIMITED ≤ cfg.cbSizeTime)
    (h : x ∈ ChunkIDSet.ids (acceptOne cfg clock peer myBmap y a).csetAcc) :
    x ∈ ChunkIDSet.ids a.csetAcc ∨ Wants (ChunkIDSet.ids myBmap) cfg.cbSize x := by
  unfold acceptOne at h
  dsimp only at h
  split_ifs at h with hlocked hneed
  · exact .inl h
  · rcases (LawfulChunkIDSet.mem_add ..).1 h with rfl | h
    · exact .inr ((_needs_iff hunlim ..).1 hneed)
    · exact .inl h
  · exact .inl h

theorem mem_acceptOne_self (hunlim : CB_SIZE_TIME_UNLIMITED ≤ cfg.cbSizeTime)
    (h : Unlocked clock x a.s) (hwants : Wants (ChunkIDSet.ids myBmap) cfg.cbSize x) :
    x ∈ ChunkIDSet.ids (acceptOne cfg clock peer myBmap x a).csetAcc := by
  have hneed := (_needs_iff hunlim clock a.s.cb myBmap cfg.cbSize x
    (chunkIslocked clock x a.s.locks a.s.reads).2.2).2 hwants
  unfold acceptOne
  unfold Unlocked at h
  simp only [h, hneed, Bool.false_eq_true, if_false, if_true]
  exact ChunkIDSet.mem_add_self _ _

theorem mem_acceptLoop (maxDeliver : Int) (is : List ℕ) (h : x ∈ ChunkIDSet.ids a.csetAcc) :
    x ∈ ChunkIDSet.ids (acceptLoop cfg clock peer myBmap csetOff maxDeliver is a).csetAcc := by
  induction is generalizing a with
  | nil => exact h
  | cons i is ih =>
    unfold acceptLoop
    split_ifs
    · exact ih (mem_acceptOne cfg clock peer myBmap _ h)
    · exact h

theorem wants_of_mem_acceptLoop {maxDeliver : Int} {is : List ℕ}
    (hunlim : CB_SIZE_TIME_UNLIMITED ≤ cfg.cbSizeTime)
    (h : x ∈ ChunkIDSet.ids (acceptLoop cfg clock peer myBmap csetOff maxDeliver is a).csetAcc) :
    x ∈ ChunkIDSet.ids a.csetAcc ∨ Wants (ChunkIDSet.ids myBmap) cfg.cbSize x := by
  induction is generalizing a with
  | nil => exact .inl h
  | cons i is ih =>
    unfold acceptLoop at h
    split_ifs at h
    · exact (ih h).elim (wants_of_mem_acceptOne hunlim) .inr
    · exact .inl h

/-- While the bound is not met, an unlocked chunk of the offer is accepted when it is wanted. -/
theorem acceptLoop_of_wants {maxDeliver : Int} {is : List ℕ}
    (hunlim : CB_SIZE_TIME_UNLIMITED ≤ cfg.cbSizeTime)
    (hmem : x ∈ is.map (ChunkIDSet.getChunk csetOff)) (hroom : a.d + is.length ≤ maxDeliver)
    (h : Unlocked clock x a.s) (hwants : Wants (ChunkIDSet.ids myBmap) cfg.cbSize x) :
    x ∈ ChunkIDSet.ids (acceptLoop cfg clock peer myBmap csetOff maxDeliver is a).csetAcc := by
  induction is generalizing a with
  | nil => cases hmem
  | cons i is ih =>
    rw [List.length_cons] at hroom
    push_cast at hroom
    unfold acceptLoop
    rw [if_pos (by omega)]
    by_cases heq : ChunkIDSet.getChunk csetOff i = x
    · subst heq
      exact mem_acceptLoop maxDeliver is (mem_acceptOne_self hunlim h hwants)
    · rw [List.map_cons, List.mem_cons] at hmem
      have hd := d_acceptOne_le cfg clock peer myBmap (ChunkIDSet.getChunk csetOff i) a
      exact ih (hmem.resolve_left (Ne.symm heq)) (by omega) (unlocked_acceptOne heq h)

variable [PeerSet P N S]

theorem getChunksToAccept_iff (hunlim : CB_SIZE_TIME_UNLIMITED ≤ cfg.cbSizeTime) {fromid : N}
    {maxDeliver : Int} {s : State N B P} (hmem : x ∈ ChunkIDSet.ids csetOff)
    (hroom : ChunkIDSet.size csetOff ≤ maxDeliver) (h : Unlocked clock x s) :
    x ∈ ChunkIDSet.ids (getChunksToAccept cfg clock fromid csetOff maxDeliver s).csetAcc ↔
      Wants (ChunkIDSet.ids (cbToBmap s.cb : S)) cfg.cbSize x := by
  constructor
  · intro hacc
    apply (wants_of_mem_acceptLoop hunlim hacc).resolve_left
    rw [LawfulChunkIDSet.ids_initList]
    exact List.not_mem_nil
  · exact acceptLoop_of_wants hunlim hmem (by simpa using hroom) h

end Accept

/-! ## Buffer maps -/

section Views

variable [DecidableEq N] [PeerSet P N S] [LawfulPeerSet P N S] [LawfulChunkBuffer B]

omit [DecidableEq N] [LawfulPeerSet P N S] in
theorem ids_cbToBmap (cb : B) :
    (ChunkIDSet.ids (cbToBmap cb : S)).Perm (ChunkBuffer.ids cb) := by
  rw [List.perm_ext_iff_of_nodup (nodup_cbToBmap cb) (LawfulChunkBuffer.nodup_ids cb)]
  exact mem_cbToBmap cb

/-- Another node that has handled the buffer map of a node judges an unlocked chunk as the node
does, unless the node is a source that itself still wants the chunk. -/
theorem agrees_iff (cfg cfgQ : Config) (hunlim : CB_SIZE_TIME_UNLIMITED ≤ cfg.cbSizeTime)
    (hunlimQ : CB_SIZE_TIME_UNLIMITED ≤ cfgQ.cbSizeTime) (clock clockQ : Clock)
    (self toid fromid src : N) (b : Overlay.Choices) (s sQ : State N B P) {p : Peer N S} {bmap : S}
    (hp : getPeer sQ.pset src = some p) (hbmap : p.bmap = some bmap) (csetOff : S)
    (maxDeliver x : Int) (hmem : x ∈ ChunkIDSet.ids csetOff)
    (hroom : ChunkIDSet.size csetOff ≤ maxDeliver) (hunlocked : Unlocked clock x s) :
    ∃ sQ' q, Overlay.handle cfgQ clockQ b src (Overlay.sendBmap cfg self toid s).2 sQ =
        .ok (sQ', []) ∧ getPeer sQ'.pset src = some q ∧ ∀ n,
      ((x ∈ ChunkIDSet.ids (getChunksToAccept cfg clock fromid csetOff maxDeliver s).csetAcc ↔
          (needs cfgQ clockQ sQ'.cb q x n).1 = true) ↔
        cfg.source = false ∨ cfg.cbSize = 0 ∨ x ∈ ChunkBuffer.ids s.cb ∨
          BelowWindow (ChunkBuffer.ids s.cb) cfg.cbSize x) := by
  have hown : (if src = self then self else src) = src := by
    split_ifs with h
    · exact h.symm
    · rfl
  obtain ⟨bmap', hbmap', hids⟩ := resetBmap_bmap hbmap (nodup_cbToBmap s.cb) (clockQ.read sQ.reads)
  set f : Timeval → Peer N S → Peer N S := fun now p =>
    { resetBmap (cbToBmap s.cb) now p with cbSize := if cfg.source then 0 else (cfg.cbSize : Int) }
  refine ⟨updatePeer clockQ src f sQ, f (clockQ.read sQ.reads) p, ?_,
    getPeer_updatePeer (fun _ _ => rfl) hp, fun n => ?_⟩
  · simp only [Overlay.handle, Overlay.sendBmap, sigParseData, bmapReceived, hown]
    rfl
  · have hneeds := needs_iff hunlimQ clockQ (updatePeer clockQ src f sQ).cb
      (show (f (clockQ.read sQ.reads) p).bmap = some bmap' from hbmap') x n
    rw [getChunksToAccept_iff hunlim hmem hroom hunlocked, hneeds,
      Wants.perm (hids.trans (ids_cbToBmap s.cb)), Wants.perm (ids_cbToBmap s.cb)]
    cases hsource : cfg.source with
    | false => simp [f, hsource]
    | true =>
      have hzero : (f (clockQ.read sQ.reads) p).cbSize = 0 := by simp [f, hsource]
      rw [hzero]
      simp only [Wants, ne_eq, not_true_eq_false, false_and, iff_false, Bool.true_eq_false,
        false_or, Int.natCast_eq_zero]
      tauto

/-! ## Offers -/

/-- The chunk is more than a round trip after the earliest one, in numbers of type `double`. -/
def Late (rtt : Option ℚ) (cb : B) (c : Chunk) : Prop :=
  Double.round c.timestamp.toNat >
    Double.add (Double.round ((ChunkBuffer.getChunks cb).head?.elim 0 Chunk.timestamp).toNat)
      (Double.mul (rtt.getD DEFAULT_RTT_ESTIMATE) 1000000)

instance (rtt : Option ℚ) (cb : B) : DecidablePred (Late rtt cb) :=
  fun _ => inferInstanceAs (Decidable (_ > _))

def offered (rtt : Option ℚ) (cb : B) : List Chunk :=
  (ChunkBuffer.getChunks cb).filter fun c => Late rtt cb c

def leftOut (rtt : Option ℚ) (cb : B) : List Chunk :=
  (ChunkBuffer.getChunks cb).filter fun c => ¬ Late rtt cb c

/-- Nothing is left out, or what is left out is too old next to what is offered. -/
def Covered (rtt : Option ℚ) (cb : B) (cbSize : Int) : Prop :=
  leftOut rtt cb = [] ∨ ∃ c d, (leftOut rtt cb).getLast? = some c ∧
    (offered rtt cb).head? = some d ∧ c.id < d.id - max (cbSize - (offered rtt cb).length) 0

omit [LawfulPeerSet P N S] [DecidableEq N] [LawfulChunkBuffer B] in
theorem nodup_composeOfferCset (cfg : Config) (rtt : Option ℚ) (cb : B) :
    (ChunkIDSet.ids (composeOfferCset cfg rtt cb : S)).Nodup := ChunkIDSet.nodup_ids_fill _

omit [LawfulPeerSet P N S] [DecidableEq N] in
theorem ids_composeOfferCset {cfg : Config} (hsource : cfg.source = false) (rtt : Option ℚ)
    (cb : B) : (ChunkIDSet.ids (composeOfferCset cfg rtt cb : S)).Perm
      ((offered rtt cb).map Chunk.id) := by
  have hnodup : ((offered rtt cb).map Chunk.id).Nodup :=
    (LawfulChunkBuffer.nodup_ids cb).sublist (List.filter_sublist.map _)
  have hall : (ChunkBuffer.getChunks cb).take (latestOffered cfg (ChunkBuffer.getChunks cb).length
      + 1) = ChunkBuffer.getChunks cb := by
    apply List.take_of_length_le
    simp only [latestOffered, hsource, Bool.false_eq_true, if_false]
    omega
  rw [List.perm_ext_iff_of_nodup (nodup_composeOfferCset cfg rtt cb) hnodup]
  intro x
  unfold composeOfferCset
  rw [ChunkIDSet.mem_foldl_add, LawfulChunkIDSet.ids_initBitmap, hall]
  simp [offered, Late]

omit [ChunkBuffer B] [ChunkIDSet S] [LawfulChunkIDSet S] [DecidableEq N] [PeerSet P N S]
  [LawfulPeerSet P N S] [LawfulChunkBuffer B] in
theorem le_of_getLast? {l : List Chunk} (hsorted : l.Pairwise (·.id < ·.id)) {c d : Chunk}
    (hlast : l.getLast? = some c) (hd : d ∈ l) : d.id ≤ c.id := by
  obtain ⟨l', rfl⟩ := List.getLast?_eq_some_iff.1 hlast
  rcases List.mem_append.1 hd with hd | hd
  · exact ((List.pairwise_append.1 hsorted).2.2 d hd c (List.mem_singleton_self c)).le
  · rw [List.mem_singleton.1 hd]

omit [ChunkBuffer B] [ChunkIDSet S] [LawfulChunkIDSet S] [DecidableEq N] [PeerSet P N S]
  [LawfulPeerSet P N S] [LawfulChunkBuffer B] in
theorem le_of_head? {l : List Chunk} (hsorted : l.Pairwise (·.id < ·.id)) {c d : Chunk}
    (hhead : l.head? = some c) (hd : d ∈ l) : c.id ≤ d.id := by
  obtain ⟨l', rfl⟩ := List.head?_eq_some_iff.1 hhead
  rcases List.mem_cons.1 hd with rfl | hd
  · exact le_rfl
  · exact ((List.pairwise_cons.1 hsorted).1 d hd).le

omit [ChunkIDSet S] [LawfulChunkIDSet S] [DecidableEq N] [PeerSet P N S] [LawfulPeerSet P N S]
  [LawfulChunkBuffer B] in
theorem mem_getChunks_iff (rtt : Option ℚ) {cb : B} {c : Chunk} :
    c ∈ ChunkBuffer.getChunks cb ↔ c ∈ offered rtt cb ∨ c ∈ leftOut rtt cb := by
  simp only [offered, leftOut, List.mem_filter, decide_eq_true_eq]
  tauto

omit [ChunkIDSet S] [LawfulChunkIDSet S] [DecidableEq N] [PeerSet P N S] [LawfulPeerSet P N S] in
/-- The ids are distinct, so a chunk that is left out is not among the offered ids. -/
theorem not_mem_offered {rtt : Option ℚ} {cb : B} {c : Chunk} (hc : c ∈ leftOut rtt cb) :
    c.id ∉ (offered rtt cb).map Chunk.id := by
  intro hin
  obtain ⟨o, ho, hid⟩ := List.mem_map.1 hin
  obtain rfl : o = c := List.inj_on_of_nodup_map (LawfulChunkBuffer.nodup_ids cb)
    ((mem_getChunks_iff rtt).2 (Or.inl ho)) ((mem_getChunks_iff rtt).2 (Or.inr hc)) hid
  simp only [offered, leftOut, List.mem_filter, decide_eq_true_eq] at ho hc
  exact hc.2 ho.2

omit [ChunkIDSet S] [LawfulChunkIDSet S] [DecidableEq N] [PeerSet P N S] [LawfulPeerSet P N S]
  [LawfulChunkBuffer B] in
/-- A chunk that is left out is no later than the last of them, and so below the window. -/
theorem Covered.belowWindow {rtt : Option ℚ} {cb : B} {cbSize : Int}
    (hsorted : (ChunkBuffer.getChunks cb).Pairwise (·.id < ·.id)) (hcovered : Covered rtt cb cbSize)
    {e : Chunk} (he : e ∈ leftOut rtt cb) :
    BelowWindow ((offered rtt cb).map Chunk.id) cbSize e.id := by
  rcases hcovered with hnil | ⟨c, d, hlast, hhead, hlt⟩
  · rw [hnil] at he
    cases he
  · have hle := le_of_getLast? (hsorted.sublist List.filter_sublist) hlast he
    refine ⟨d.id, List.mem_map_of_mem (List.mem_of_head? hhead), ?_, ?_⟩
    · intro y hy
      obtain ⟨o, ho, rfl⟩ := List.mem_map.1 hy
      exact le_of_head? (hsorted.sublist List.filter_sublist) hhead ho
    · rw [List.length_map]
      omega

/-- The chunks that are left out are covered by the latest of them and the earliest offered one. -/
theorem covered_iff {rtt : Option ℚ} {cb : B} {cbSize : Int}
    (hsorted : (ChunkBuffer.getChunks cb).Pairwise (·.id < ·.id)) :
    Covered rtt cb cbSize ↔ ∀ x ∈ ChunkBuffer.ids cb, x ∈ (offered rtt cb).map Chunk.id ∨
      BelowWindow ((offered rtt cb).map Chunk.id) cbSize x := by
  constructor
  · intro hcovered x hx
    obtain ⟨e, he, rfl⟩ := List.mem_map.1 hx
    rcases (mem_getChunks_iff rtt).1 he with he | he
    · exact Or.inl (List.mem_map_of_mem he)
    · exact Or.inr (hcovered.belowWindow hsorted he)
  · intro hall
    cases hlast : (leftOut rtt cb).getLast? with
    | none => exact Or.inl (List.getLast?_eq_none_iff.1 hlast)
    | some c =>
      right
      have hc : c ∈ leftOut rtt cb := List.mem_of_getLast? hlast
      have hcb := (mem_getChunks_iff rtt).2 (Or.inr hc)
      obtain ⟨m, hm, hmin, hlt⟩ :=
        (hall c.id (List.mem_map_of_mem hcb)).resolve_left (not_mem_offered hc)
      rw [List.length_map] at hlt
      cases hhead : (offered rtt cb).head? with
      | none =>
        rw [List.head?_eq_none_iff.1 hhead] at hm
        cases hm
      | some d =>
        have hle := hmin d.id (List.mem_map_of_mem (List.mem_of_head? hhead))
        exact ⟨c, d, hlast, rfl, by omega⟩

/-- Once another node has handled an offer, it does not ask for a chunk that the one who offers has
if and only if what was left out of the offer is covered. -/
theorem not_needs_offered_iff (cfg cfgQ : Config) (hsource : cfg.source = false)
    (hunlimQ : CB_SIZE_TIME_UNLIMITED ≤ cfgQ.cbSizeTime) (clockQ : Clock) (rtt : Option ℚ) (cb : B)
    (hsorted : (ChunkBuffer.getChunks cb).Pairwise fun c d =>
      c.id < d.id ∧ c.timestamp ≤ d.timestamp)
    (src : N) (sQ : State N B P) {p : Peer N S} {bmap : S} (hp : getPeer sQ.pset src = some p)
    (hbmap : p.bmap = some bmap) (hsize : 0 < p.cbSize) (maxDeliver : Int) (transId : UInt16)
    (sent : ℕ → Bool) :
    ∃ sQ' events q, sigParseData cfgQ clockQ src
        (some (.offer (composeOfferCset cfg rtt cb) maxDeliver transId)) sent sQ =
        .ok (sQ', events) ∧ getPeer sQ'.pset src = some q ∧
      ((∀ x ∈ ChunkBuffer.ids cb, ∀ n, (needs cfgQ clockQ sQ'.cb q x n).1 = false) ↔
        Covered rtt cb p.cbSize) := by
  obtain ⟨bmap', hbmap', hids⟩ :=
    resetBmap_bmap hbmap (nodup_composeOfferCset cfg rtt cb) (clockQ.read sQ.reads)
  set u := updatePeer clockQ src (resetBmap (composeOfferCset cfg rtt cb)) sQ
  have haccept := getChunksToAccept_spec cfgQ clockQ src (composeOfferCset cfg rtt cb : S)
    maxDeliver u
  refine ⟨_, _, resetBmap (composeOfferCset cfg rtt cb) (clockQ.read sQ.reads) p, rfl, ?_, ?_⟩
  · exact (congrArg (getPeer · src) haccept.pset).trans (getPeer_updatePeer (fun _ _ => rfl) hp)
  · rw [covered_iff (hsorted.imp And.left)]
    refine forall₂_congr fun x _ => ?_
    have hneeds := fun n => needs_iff hunlimQ clockQ
      (getChunksToAccept cfgQ clockQ src (composeOfferCset cfg rtt cb : S) maxDeliver u).s.cb
      hbmap' x n
    have hcbSize : (resetBmap (composeOfferCset cfg rtt cb) (clockQ.read sQ.reads) p).cbSize =
      p.cbSize := rfl
    have hnot : ∀ n, (needs cfgQ clockQ (getChunksToAccept cfgQ clockQ src
        (composeOfferCset cfg rtt cb : S) maxDeliver u).s.cb
        (resetBmap (composeOfferCset cfg rtt cb) (clockQ.read sQ.reads) p) x n).1 = false ↔
        x ∈ (offered rtt cb).map Chunk.id ∨
          BelowWindow ((offered rtt cb).map Chunk.id) p.cbSize x := by
      intro n
      rw [← Bool.not_eq_true, hneeds, Wants.perm (hids.trans (ids_composeOfferCset hsource rtt cb)),
        hcbSize, Wants]
      have hne : p.cbSize ≠ 0 := hsize.ne'
      tauto
    exact (forall_congr' hnot).trans (forall_const ℕ)

end Views

/-! ## Two nodes -/

/-- A node that knows the node 1 and nothing of its chunks. -/
def observer : State ℕ ListBuffer (ListPeers ℕ ListIDSet) :=
  .init plainConfig (addPeer ListPeers.empty 1 (.ofUsec 0)) (.ofUsec 500000)

def sourceConfig : Config := { plainConfig with source := true }

/-- A node with nothing in its buffer yet. -/
def starting (cfg : Config) : State ℕ ListBuffer (ListPeers ℕ ListIDSet) :=
  .init cfg .empty (.ofUsec 500000)

/-- A source that is offered a chunk locks and accepts it, while others know that it needs none. -/
theorem source_accepts :
    ∃ sQ' q, Overlay.handle plainConfig stillClock ⟨false, fun _ => true⟩ 1
        (Overlay.sendBmap sourceConfig 1 2 (starting sourceConfig)).2 observer = .ok (sQ', []) ∧
      getPeer sQ'.pset 1 = some q ∧
      ¬ (5 ∈ ChunkIDSet.ids (getChunksToAccept sourceConfig stillClock 2
            (ListIDSet.empty.insert 5) 1 (starting sourceConfig)).csetAcc ↔
          (needs plainConfig stillClock sQ'.cb q 5 0).1 = true) :=
  ⟨_, _, rfl, rfl, by decide⟩

/-- A node with two chunks, which wants no chunk below 12. -/
def filled : State ℕ ListBuffer (ListPeers ℕ ListIDSet) :=
  { starting plainConfig with
    cb := ⟨[⟨20, 1000, [], []⟩, ⟨24, 2000, [], []⟩], 10, by decide, by decide⟩ }

/-- A peer is offered a chunk below its window, one in it and one above, and others know which of
them it needs. -/
theorem agrees_iff_filled :
    ∃ sQ' q, Overlay.handle plainConfig stillClock ⟨false, fun _ => true⟩ 1
        (Overlay.sendBmap plainConfig 1 2 filled).2 observer = .ok (sQ', []) ∧
      getPeer sQ'.pset 1 = some q ∧
      ∀ x ∈ [5, 15, 30], ∀ n, (x ∈ ChunkIDSet.ids (getChunksToAccept plainConfig stillClock 2
            (⟨[5, 15, 30]⟩ : ListIDSet) 3 filled).csetAcc ↔
          (needs plainConfig stillClock sQ'.cb q x n).1 = true) := by
  have hone : ∀ x ∈ [(5 : Int), 15, 30], _ := fun x hx => agrees_iff plainConfig plainConfig
    (by decide) (by decide) stillClock stillClock 1 2 2 1 ⟨false, fun _ => true⟩ filled observer rfl
    rfl (⟨[5, 15, 30]⟩ : ListIDSet) 3 x (by rwa [ListIDSet.ids_eq]) (by decide) rfl
  obtain ⟨sQ', q, hhandle, hq, -⟩ := hone 5 (by decide)
  refine ⟨sQ', q, hhandle, hq, fun x hx n => ?_⟩
  -- the buffer map is handled in one way, whatever chunk is asked about
  obtain ⟨s₂, q₂, hhandle₂, hq₂, hagree⟩ := hone x hx
  obtain ⟨rfl, -⟩ := Prod.mk.inj (Except.ok.inj (hhandle.symm.trans hhandle₂))
  obtain rfl := Option.some_inj.1 (hq.symm.trans hq₂)
  exact (hagree n).2 (Or.inl rfl)

example : ChunkIDSet.ids (getChunksToAccept plainConfig stillClock 2 (⟨[5, 15, 30]⟩ : ListIDSet) 3
    filled).csetAcc = [15, 30] := by decide

/-- A node that knows the node 1 and that it has room for 10 chunks. -/
def informed : State ℕ ListBuffer (ListPeers ℕ ListIDSet) :=
  { observer with pset := PeerSet.update observer.pset 1 fun p => { p with cbSize := 10 } }

/-- Two chunks that are more than a round trip apart, and whose ids are far apart. -/
def gap : ListBuffer :=
  ⟨[⟨1, 1000, [], []⟩, ⟨100, 2000000, [], []⟩], 10, by decide, by decide⟩

/-- A buffer with a single chunk. -/
def single : ListBuffer := ⟨[⟨5, 1000, [], []⟩], 10, by decide, by decide⟩

/-- The offer of a node with a single chunk is empty, and it seems to lack this chunk. -/
theorem offer_forgets :
    ∃ sQ' events q, sigParseData plainConfig stillClock 1
        (some (.offer (composeOfferCset plainConfig none single) 1 2)) (fun _ => true) observer =
        .ok (sQ', events) ∧ getPeer sQ'.pset 1 = some q ∧
      5 ∈ ChunkBuffer.ids single ∧ (needs plainConfig stillClock sQ'.cb q 5 0).1 = true :=
  ⟨_, _, resetBmap .empty (.ofUsec 0) (ListPeers.newPeer 1 (.ofUsec 0)), rfl, by decide +kernel,
    by decide, by decide +kernel⟩

/-- Two chunks that are more than half a second apart, which rounding brings closer together. -/
def distant : ListBuffer :=
  ⟨[⟨1, 1152921504606846976, [], []⟩, ⟨2, 1152921504607346977, [], []⟩], 10, by decide, by decide⟩

example : leftOut none distant = ChunkBuffer.getChunks distant := by decide +kernel

theorem not_needs_offered_gap :
    ∃ sQ' events q, sigParseData plainConfig stillClock 1
        (some (.offer (composeOfferCset plainConfig (some 1) gap) 1 2)) (fun _ => true) informed =
        .ok (sQ', events) ∧ getPeer sQ'.pset 1 = some q ∧
      ∀ x ∈ ChunkBuffer.ids gap, ∀ n, (needs plainConfig stillClock sQ'.cb q x n).1 = false := by
  obtain ⟨sQ', events, q, hhandle, hq, hcovered⟩ := not_needs_offered_iff plainConfig plainConfig
    rfl (by decide) stillClock (some 1) gap (by decide) 1 informed rfl rfl (by decide) 1 2
    (fun _ => true)
  refine ⟨sQ', events, q, hhandle, hq, hcovered.2 (Or.inr ?_)⟩
  exact ⟨⟨1, 1000, [], []⟩, ⟨100, 2000000, [], []⟩, by decide +kernel, by decide +kernel,
    by decide +kernel⟩

end PeerStreamer.Streaming
