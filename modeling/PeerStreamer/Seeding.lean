import PeerStreamer.SourceWindow

/-!
# How the source spreads a chunk

`send_chunk` gives the scheduler all peers and the last chunk of the buffer.  In the source this is
the chunk it has just generated, and a peer to which it was sent does not need it any more.  So the
calls of one turn send it to as many different peers as there are calls, or to all that need it
(`pushes_spread`).
-/

namespace PeerStreamer.SourceNode

open Streaming Overlay PeerSet

variable {N B P S : Type}

/-- The chunks that are pushed, and to whom. -/
def pushed (events : List (Event N S)) : List (N × Int) :=
  events.filterMap fun e => match e with
    | .node (.sendChunk toid c _ true) => some (toid, c.id)
    | _ => none

theorem pushed_append (events more : List (Event N S)) :
    pushed (events ++ more) = pushed events ++ pushed more := List.filterMap_append

/-- The latest chunk of a buffer. -/
def Latest [ChunkBuffer B] (cb : B) (x : Int) : Prop :=
  x ∈ ChunkBuffer.ids cb ∧ ∀ y ∈ ChunkBuffer.ids cb, y ≤ x

instance [ChunkBuffer B] (cb : B) (x : Int) : Decidable (Latest cb x) :=
  inferInstanceAs (Decidable (_ ∧ _))

section Latest

variable [ChunkBuffer B] {cb : B} {x y : Int}

theorem Latest.unique (h : Latest cb x) (h' : Latest cb y) : x = y :=
  Int.le_antisymm (h'.2 x h.1) (h.2 y h'.1)

theorem latest_of_perm {cb' : B} {l : List Int} (hnew : ∀ y ∈ l, y < x)
    (hperm : (ChunkBuffer.ids cb').Perm (x :: l)) : Latest cb' x := by
  refine ⟨hperm.mem_iff.2 (List.mem_cons_self ..), ?_⟩
  intro y hy
  rcases List.mem_cons.1 (hperm.mem_iff.1 hy) with rfl | hy
  · exact Int.le_refl _
  · exact Int.le_of_lt (hnew y hy)

/-- A chunk that is newer than all others is the latest one once it is stored. -/
theorem latest_addChunk [LawfulChunkBuffer B] {c : Chunk} (hc : 0 ≤ c.id)
    (hnew : ∀ y ∈ ChunkBuffer.ids cb, y < c.id) (hsize : 0 < ChunkBuffer.size cb) :
    Latest (ChunkBuffer.addChunk cb c).2 c.id := by
  rcases ChunkBuffer.ids_addChunk cb hc with
    ⟨-, hmem | ⟨hfull, habove⟩⟩ | ⟨hperm, -⟩ | ⟨m, -, -, -, -, hperm⟩
  · exact absurd (hnew c.id hmem) (Int.lt_irrefl _)
  · -- a full buffer has an older chunk
    obtain ⟨d, hd⟩ := List.exists_mem_of_length_pos (hfull ▸ hsize)
    have hid : d.id ∈ ChunkBuffer.ids cb := List.mem_map_of_mem hd
    exact absurd (hnew d.id hid) (Int.not_lt.2 (Int.le_of_lt (habove d.id hid)))
  · exact latest_of_perm hnew hperm
  · exact latest_of_perm (fun y hy => hnew y (List.mem_of_mem_erase hy)) hperm

end Latest

/-! ## Who needs a chunk -/

section Needy

variable [ChunkIDSet S] [ChunkBuffer B] [PeerSet P N S]

/-- The peers that need a chunk, as far as is known. -/
def needy (cfg : Config) (clock : Clock) (x : Int) (s : Streaming.State N B P) : List N :=
  ((peers s.pset).filter fun p => (needs cfg clock s.cb p x s.reads).1).map Peer.id

/-- The buffer maps of all peers are known. -/
def Known (pset : P) : Prop := ∀ p ∈ peers pset, p.bmap.isSome

variable [LawfulChunkIDSet S] {cfg : Config} {clock : Clock}

omit [PeerSet P N S] in
/-- Without a playout limit neither the time nor the node's own buffer matters. -/
theorem needs_congr (hunlim : CB_SIZE_TIME_UNLIMITED ≤ cfg.cbSizeTime) (cb cb' : B) (x : Int)
    (n n' : ℕ) {p : Peer N S} (hp : p.bmap.isSome) :
    (needs cfg clock cb p x n).1 = (needs cfg clock cb' p x n').1 := by
  obtain ⟨bmap, hbmap⟩ := Option.isSome_iff_exists.1 hp
  rw [Bool.eq_iff_iff, needs_iff hunlim clock cb hbmap, needs_iff hunlim clock cb' hbmap]

omit [PeerSet P N S] in
/-- What was sent to a peer it does not need. -/
theorem not_needs_addToBmap (hunlim : CB_SIZE_TIME_UNLIMITED ≤ cfg.cbSizeTime) (cb : B) (x : Int)
    (n : ℕ) {p : Peer N S} (hp : p.bmap.isSome) :
    (needs cfg clock cb (addToBmap x p) x n).1 = false := by
  obtain ⟨bmap, hbmap⟩ := Option.isSome_iff_exists.1 hp
  have hadd : (addToBmap x p).bmap = some (ChunkIDSet.add bmap x) := by
    rw [addToBmap, hbmap]
    rfl
  rw [← Bool.not_eq_true, needs_iff hunlim clock cb hadd]
  intro hwants
  exact hwants.2.1 (ChunkIDSet.mem_add_self _ _)

omit [LawfulChunkIDSet S] in
theorem mem_needy_iff {x : Int} {n : N} {s : Streaming.State N B P} :
    n ∈ needy cfg clock x s ↔
      ∃ p ∈ peers s.pset, p.id = n ∧ (needs cfg clock s.cb p x s.reads).1 = true := by
  rw [needy, List.mem_map]
  constructor
  · rintro ⟨p, hp, rfl⟩
    obtain ⟨hmem, hneed⟩ := List.mem_filter.1 hp
    exact ⟨p, hmem, rfl, hneed⟩
  · rintro ⟨p, hmem, rfl, hneed⟩
    exact ⟨p, List.mem_filter.2 ⟨hmem, hneed⟩, rfl⟩

theorem needy_congr (hunlim : CB_SIZE_TIME_UNLIMITED ≤ cfg.cbSizeTime) (x : Int)
    {s s' : Streaming.State N B P} (hpset : s'.pset = s.pset) (hknown : Known s.pset) :
    needy cfg clock x s' = needy cfg clock x s := by
  unfold needy
  rw [hpset]
  congr 1
  apply List.filter_congr
  intro p hp
  exact needs_congr hunlim _ _ x _ _ (hknown p hp)

variable [DecidableEq N] [LawfulPeerSet P N S]

omit [LawfulChunkIDSet S] in
theorem nodup_needy (x : Int) (s : Streaming.State N B P) : (needy cfg clock x s).Nodup := by
  have hids : (ids s.pset).Nodup := LawfulPeerSet.nodup_ids s.pset
  exact hids.sublist (List.filter_sublist.map Peer.id)

omit [ChunkBuffer B] [LawfulChunkIDSet S] in
theorem Known.update {pset : P} (h : Known pset) (n : N) (x : Int) :
    Known (update pset n (addToBmap x)) := by
  intro p hp
  rw [LawfulPeerSet.peers_update pset n (addToBmap x) fun _ => rfl] at hp
  obtain ⟨q, hq, rfl⟩ := List.mem_map.1 hp
  split_ifs
  · simpa [addToBmap] using h q hq
  · exact h q hq

/-- One peer less needs the chunk that was sent to it. -/
theorem needy_update (hunlim : CB_SIZE_TIME_UNLIMITED ≤ cfg.cbSizeTime) (n : N) (x : Int)
    {s s' : Streaming.State N B P} (hknown : Known s.pset)
    (hpset : s'.pset = update s.pset n (addToBmap x)) :
    needy cfg clock x s' = (needy cfg clock x s).erase n := by
  rw [(nodup_needy x s).erase_eq_filter, needy, needy, hpset,
    LawfulPeerSet.peers_update s.pset n (addToBmap x) fun _ => rfl, List.filter_map, List.map_map,
    List.filter_map, List.filter_filter]
  have hid : (Peer.id ∘ fun p : Peer N S => if p.id = n then addToBmap x p else p) = Peer.id := by
    funext p
    show (if p.id = n then addToBmap x p else p).id = p.id
    split_ifs <;> rfl
  rw [hid]
  congr 1
  apply List.filter_congr
  intro p hp
  show (needs cfg clock s'.cb (if p.id = n then addToBmap x p else p) x s'.reads).1 =
    ((p.id != n) && (needs cfg clock s.cb p x s.reads).1)
  by_cases hp' : p.id = n
  · rw [if_pos hp', not_needs_addToBmap hunlim _ x _ (hknown p hp), bne_eq_false_iff_eq.2 hp',
      Bool.false_and]
  · rw [if_neg hp', bne_iff_ne.2 hp', Bool.true_and]
    exact needs_congr hunlim _ _ x _ _ (hknown p hp)

end Needy

/-! ## The pushes of a turn -/

section Pushes

variable [ChunkIDSet S] [ChunkBuffer B] [PeerSet P N S]

/-- The scheduler, which is given all peers and the last chunk of the buffer, selects a peer that
needs this chunk, if there is one. -/
def Selects (cfg : Config) (clock : Clock) (pair : Option (N × Int)) (s : Streaming.State N B P) :
    Prop :=
  match pair with
  | some (n, x) => Latest s.cb x ∧ n ∈ needy cfg clock x s
  | none => ∀ x ∈ ChunkBuffer.ids s.cb, Latest s.cb x → needy cfg clock x s = []

instance [DecidableEq N] (cfg : Config) (clock : Clock) (pair : Option (N × Int))
    (s : Streaming.State N B P) : Decidable (Selects cfg clock pair s) :=
  match pair with
  | some _ => inferInstanceAs (Decidable (_ ∧ _))
  | none => inferInstanceAs (Decidable (∀ x ∈ ChunkBuffer.ids s.cb, _))

/-- The scheduler keeps its promise in each call, and each send succeeds. -/
def SelectsAll (cfg : Config) (clock : Clock) :
    List (Option (N × Int) × Bool) → Streaming.State N B P → Prop
  | [], _ => True
  | (pair, sent) :: pushes, s =>
    Selects cfg clock pair s ∧ sent = true ∧
      SelectsAll cfg clock pushes (Streaming.sendChunk (S := S) pair sent s).1

instance decidableSelectsAll [DecidableEq N] (cfg : Config) (clock : Clock) :
    (pushes : List (Option (N × Int) × Bool)) → (s : Streaming.State N B P) →
      Decidable (SelectsAll (S := S) cfg clock pushes s)
  | [], _ => .isTrue trivial
  | (pair, sent) :: pushes, s =>
    have := decidableSelectsAll cfg clock pushes (Streaming.sendChunk (S := S) pair sent s).1
    inferInstanceAs (Decidable (_ ∧ _ ∧ _))

theorem pushed_sendChunks_cons (pair : Option (N × Int)) (sent : Bool)
    (pushes : List (Option (N × Int) × Bool)) (s : Streaming.State N B P) :
    pushed (sendChunks (S := S) ((pair, sent) :: pushes) s).2 =
      pushed ((Streaming.sendChunk (S := S) pair sent s).2.map .node) ++
        pushed (sendChunks (S := S) pushes (Streaming.sendChunk (S := S) pair sent s).1).2 := by
  show pushed ([.sendChunk] ++ _ ++ _) = _
  rw [pushed_append, pushed_append]
  rfl

variable [DecidableEq N] [LawfulChunkIDSet S] [LawfulChunkBuffer B] [LawfulPeerSet P N S]
  {cfg : Config} {clock : Clock} {x : Int} {s : Streaming.State N B P}

omit [LawfulChunkIDSet S] [DecidableEq N] [LawfulPeerSet P N S] in
/-- A call that has a peer to send to. -/
theorem sendChunk_needy {n : N} (hlatest : Latest s.cb x) (hn : n ∈ needy cfg clock x s) :
    ∃ c, c.id = x ∧ Streaming.sendChunk (S := S) (some (n, x)) true s = transmit n c 0 true s := by
  obtain ⟨p, hp, -, -⟩ := mem_needy_iff.1 hn
  obtain ⟨c, hc⟩ := ChunkBuffer.exists_getChunk hlatest.1
  obtain ⟨hid, hmem⟩ := ChunkBuffer.getChunk_some hc
  have hpeers : (peers s.pset).isEmpty = false :=
    List.isEmpty_eq_false_iff.2 (List.ne_nil_of_mem hp)
  have hchunks : (ChunkBuffer.getChunks s.cb).isEmpty = false :=
    List.isEmpty_eq_false_iff.2 (List.ne_nil_of_mem hmem)
  refine ⟨c, hid, ?_⟩
  unfold Streaming.sendChunk
  rw [if_neg (by simp [hpeers, hchunks])]
  simp only [hc]

/-- The calls send the latest chunk to different peers that need it, until none is left. -/
theorem sendChunks_spread (hunlim : CB_SIZE_TIME_UNLIMITED ≤ cfg.cbSizeTime)
    (pushes : List (Option (N × Int) × Bool)) (hknown : Known s.pset) (hlatest : Latest s.cb x)
    (hselects : SelectsAll (S := S) cfg clock pushes s) :
    ∃ ns : List N, pushed (sendChunks (S := S) pushes s).2 = ns.map (·, x) ∧
      ns.Subperm (needy cfg clock x s) ∧
      ns.length = min pushes.length (needy cfg clock x s).length := by
  induction pushes generalizing s with
  | nil => exact ⟨[], rfl, List.nil_subperm, by simp⟩
  | cons push pushes ih =>
    obtain ⟨pair, sent⟩ := push
    obtain ⟨hselect, rfl, hrest⟩ := hselects
    cases pair with
    | none =>
      have hnone := hselect x hlatest.1 hlatest
      have hsame : Streaming.sendChunk (S := S) none true s = (s, []) := by
        unfold Streaming.sendChunk
        split_ifs <;> rfl
      rw [hsame] at hrest
      obtain ⟨ns, hpushed, hsub, -⟩ := ih hknown hlatest hrest
      rw [hnone] at hsub
      obtain rfl := List.subperm_nil.1 hsub
      refine ⟨[], ?_, List.nil_subperm, by simp [hnone]⟩
      rw [pushed_sendChunks_cons, hsame, hpushed]
      rfl
    | some pair =>
      obtain ⟨n, y⟩ := pair
      obtain ⟨hy, hn⟩ := hselect
      obtain rfl := hlatest.unique hy
      obtain ⟨c, hid, hsend⟩ := sendChunk_needy hlatest hn
      set u := (transmit (S := S) n c 0 true s).1
      have hpset : u.pset = update s.pset n (addToBmap x) := by
        rw [← hid]
        rfl
      have hids : ChunkBuffer.ids u.cb = ChunkBuffer.ids s.cb :=
        ChunkBuffer.ids_update s.cb c.id chunkAttributesUpdateSending_id
      rw [hsend] at hrest
      have hlatest' : Latest u.cb x := by rwa [Latest, hids]
      obtain ⟨ns, hpushed, hsub, hlength⟩ := ih (hpset ▸ hknown.update n x) hlatest' hrest
      rw [needy_update hunlim n x hknown hpset] at hsub hlength
      have hperm : (needy cfg clock x s).Perm (n :: (needy cfg clock x s).erase n) :=
        List.perm_cons_erase hn
      refine ⟨n :: ns, ?_, ?_, ?_⟩
      · rw [pushed_sendChunks_cons, hsend, hpushed, ← hid]
        show [(n, (chunkAttributesUpdateSending c).id)] ++ _ = _
        rw [chunkAttributesUpdateSending_id]
        rfl
      · exact ((List.subperm_cons n).2 hsub).trans hperm.symm.subperm
      · rw [List.length_cons, hlength, hperm.length_eq, List.length_cons, List.length_cons]
        omega

end Pushes

/-! ## Turns -/

section Turns

variable [ChunkIDSet S] [ChunkBuffer B] [PeerSet P N S] {cfg : Config} {clock : Clock}
  {verify : List UInt8 → Option Int} {chunks : ℕ} {turn : Turn N P S} {s s' : State N B P}
  {out : List (Event N S)}

omit [ChunkIDSet S] [ChunkBuffer B] [PeerSet P N S] in
theorem pushed_countPeers (pset : P) (s : State N B P) :
    pushed (countPeers (S := S) pset s).2 = [] := by
  unfold countPeers
  split_ifs <;> rfl

omit [PeerSet P N S] in
theorem pushed_offerLoop (ps : List (OfferPeer N)) (s : Streaming.State N B P) :
    pushed ((offerLoop (S := S) cfg clock ps s).2.map .node) = [] := by
  induction ps generalizing s with
  | nil => rfl
  | cons p ps ih => exact ih (offerOne (S := S) cfg clock p s).1

/-- Offers push nothing. -/
theorem pushed_checkOffer (cfg : Config) (clock : Clock) (turn : Turn N P S) (tnow : Timeval)
    (s : State N B P) :
    pushed (checkOffer (S := S) cfg clock turn tnow s).2 = [] := by
  unfold checkOffer
  split_ifs
  · have hoffers : pushed ((Streaming.sendOffer (S := S) cfg clock turn.skipped turn.selected
        s.node).2.map .node) = [] := by
      unfold Streaming.sendOffer
      split_ifs
      · rfl
      · exact pushed_offerLoop turn.selected s.node
    show pushed ([.sendOffer] ++ _ ++ _) = []
    rw [pushed_append, pushed_append, hoffers, pushed_countPeers]
    rfl
  · rfl

variable [LawfulChunkBuffer B]

/-- A chunk that is handled is pushed by the calls of `send_chunk` only. -/
theorem handleChunk_some (chunks : ℕ) (turn : Turn N P S) (c : Chunk) (s : State N B P) :
    generated (handleChunk (S := S) chunks turn (some c) s).2 = [c] ∧
      pushed (handleChunk (S := S) chunks turn (some c) s).2 =
        pushed (sendChunks (S := S) ((List.range chunks).map turn.push)
          (Streaming.addChunk c s.node)).2 := by
  obtain ⟨⟨node, sends⟩, hnode⟩ : ∃ r, sendChunks (S := S) ((List.range chunks).map turn.push)
    (Streaming.addChunk c s.node) = r := ⟨_, rfl⟩
  have hsends := (still_sendChunks (S := S) ((List.range chunks).map turn.push)
    { s with node := Streaming.addChunk c s.node }).silent
  have hpeers := (still_countPeers (S := S) turn.chunkPset { s with node := node }).silent
  have hupd := pushed_countPeers (S := S) turn.chunkPset { s with node := node }
  unfold handleChunk
  simp only [hnode] at hsends ⊢
  constructor
  · show generated ([.addChunk c] ++ sends ++ _) = [c]
    rw [generated_append, generated_append, hsends, hpeers]
    rfl
  · show pushed ([.addChunk c] ++ sends ++ _) = _
    rw [pushed_append, pushed_append, hupd, List.append_nil]
    rfl

/-- The turn in which a chunk is generated. -/
theorem handleInput_generated (h : handleInput cfg clock verify chunks turn s = .ok (s', out))
    {c : Chunk} (hc : c ∈ generated out) :
    (∃ delay input, InputGrapes.generatedChunk verify ⟨turn.chunkised, clock.read s.node.reads⟩
      s.input = .ok (some c, delay, input)) ∧
    pushed out = pushed (sendChunks (S := S) ((List.range chunks).map turn.push)
      (Streaming.addChunk c (tick s).node)).2 := by
  obtain ⟨k, delay, input, u, sent, v, offered, hgenerated, hu, hv, -, rfl⟩ := handleInput_ok h
  have hoffered := still_checkOffer (S := S) cfg clock turn (clock.read u.node.reads) (tick u)
  have hpush := pushed_checkOffer (S := S) cfg clock turn (clock.read u.node.reads) (tick u)
  rw [hv] at hoffered hpush
  have hgen : generated (.inputGet (clock.read s.node.reads) delay :: sent ++ offered) =
      generated sent := by
    rw [generated_append, hoffered.silent, List.append_nil]
    rfl
  have hout : pushed (.inputGet (clock.read s.node.reads) delay :: sent ++ offered) =
      pushed sent := by
    rw [pushed_append, hpush, List.append_nil]
    rfl
  rw [hgen] at hc
  rw [hout]
  cases k with
  | none =>
    obtain ⟨-, rfl⟩ := Prod.mk.inj hu
    exact absurd hc List.not_mem_nil
  | some k =>
    obtain ⟨hone, hpushed⟩ :=
      handleChunk_some (S := S) chunks turn k (tick { s with input := input })
    rw [hu] at hone hpushed
    rw [hone] at hc
    obtain rfl := List.mem_singleton.1 hc
    exact ⟨⟨delay, input, hgenerated⟩, hpushed⟩

variable [DecidableEq N] [LawfulChunkIDSet S]

theorem iteration_generated (h : iteration cfg clock verify chunks turn s = .ok (s', out))
    {c : Chunk} (hc : c ∈ generated out) :
    (∃ delay input, InputGrapes.generatedChunk verify
      ⟨turn.chunkised, clock.read (tick s).node.reads⟩ s.input = .ok (some c, delay, input)) ∧
    pushed out = pushed (sendChunks (S := S) ((List.range chunks).map turn.push)
      (Streaming.addChunk c (tick (tick s)).node)).2 := by
  unfold iteration at h
  split_ifs at h
  · rw [(still_handleMessage h).silent] at hc
    exact absurd hc List.not_mem_nil
  · exact handleInput_generated h hc
  · obtain ⟨-, rfl⟩ := Prod.mk.inj (Except.ok.inj h)
    exact absurd hc List.not_mem_nil

/-- What is promised of a turn in the state in which it begins: of the chunkiser, of the records of
the peers, and of the scheduler once a chunk was stored. -/
structure Promised (cfg : Config) (clock : Clock) (verify : List UInt8 → Option Int) (chunks : ℕ)
    (s : State N B P) (turn : Turn N P S) : Prop where
  chunkises : turn.Chunkises
  known : Known s.node.pset
  selects : ∀ c delay input, InputGrapes.generatedChunk verify
      ⟨turn.chunkised, clock.read (tick s).node.reads⟩ s.input = .ok (some c, delay, input) →
    SelectsAll (S := S) cfg clock ((List.range chunks).map turn.push)
      (Streaming.addChunk c (tick (tick s)).node)

end Turns

/-- In the turn in which a chunk is generated the source sends it to as many different peers as
`chunks` allows, or to all that need it. -/
theorem pushes_spread [DecidableEq N] [ChunkIDSet S] [LawfulChunkIDSet S] [ChunkBuffer B]
    [LawfulChunkBuffer B] [PeerSet P N S] [LawfulPeerSet P N S] (cfg : Config)
    (hunlim : CB_SIZE_TIME_UNLIMITED ≤ cfg.cbSizeTime) (hsize : 0 < cfg.cbSize) (clock : Clock)
    (verify : List UInt8 → Option Int) (chunks : ℕ) (csize : Int) (pset : P)
    (input : InputGrapes.InputDesc) (hfirst : 0 ≤ input.id) (turns : List (Turn N P S))
    (turn : Turn N P S) (hturns : Run.Along (iteration cfg clock verify chunks)
      (Promised cfg clock verify chunks) (turns ++ [turn])
      (.init cfg clock csize pset input : State N B P))
    (s s' : State N B P) (events out : List (Event N S))
    (h : sourceLoop cfg clock verify chunks turns (.init cfg clock csize pset input) =
      .ok (s, events))
    (hstep : iteration cfg clock verify chunks turn s = .ok (s', out)) (c : Chunk)
    (hc : c ∈ generated out) :
    ∃ ns : List N, pushed out = ns.map (·, c.id) ∧ ns.Subperm (needy cfg clock c.id s.node) ∧
      ns.length = min chunks (needy cfg clock c.id s.node).length := by
  obtain ⟨hbefore, hturn⟩ := Run.along_concat.1 hturns
  obtain ⟨-, hknown, hselects⟩ := hturn s events h
  have hinit : Windowed cfg.cbSize input.id (.init cfg clock csize pset input : State N B P)
    ([] : List (Event N S)) := .init cfg clock csize pset input
  have hwindowed := hinit.run hfirst (fun pre t hpre s out hrun =>
    (hbefore pre t hpre s out hrun).chunkises) h
  obtain ⟨⟨delay, input', hgenerated⟩, hpushed⟩ := iteration_generated hstep hc
  have hid : c.id = s.input.id := (generatedChunk_ok hgenerated).id c rfl
  have hnext := hwindowed.next
  have hlatest : Latest (Streaming.addChunk c (tick (tick s)).node).cb c.id := by
    refine latest_addChunk (by omega) ?_ (hwindowed.window.size.symm ▸ hsize)
    intro y hy
    rw [hid]
    exact hwindowed.lt_next hy
  obtain ⟨ns, hns, hsub, hlength⟩ := sendChunks_spread
    (s := Streaming.addChunk c (tick (tick s)).node) hunlim ((List.range chunks).map turn.push)
    hknown hlatest (hselects c delay input' hgenerated)
  have hneedy : needy cfg clock c.id (Streaming.addChunk c (tick (tick s)).node) =
      needy cfg clock c.id s.node := needy_congr hunlim c.id rfl hknown
  rw [hneedy] at hsub hlength
  rw [List.length_map, List.length_range] at hlength
  exact ⟨ns, hpushed.trans hns, hsub, hlength⟩

/-- A source with two peers. -/
def twoPeers : State ℕ ListBuffer (ListPeers ℕ ListIDSet) :=
  .init plainConfig stillClock 40000 (addPeer (addPeer ListPeers.empty 1 (.ofUsec 0)) 2 (.ofUsec 0))
    ⟨3, 40000, 0, 0⟩

/-- A chunk that is pushed three times. -/
def seedTurn : Turn ℕ (ListPeers ℕ ListIDSet) ListIDSet :=
  { chunkTurn with push := fun i =>
      (if i = 0 then some (2, 3) else if i = 1 then some (1, 3) else none, true) }

/-- Both peers get the chunk, and neither gets it twice. -/
theorem pushes_spread_two : ∃ s' out, iteration plainConfig stillClock (fun _ => none) 3 seedTurn
    twoPeers = .ok (s', out) ∧ ∃ ns : List ℕ, pushed out = ns.map (·, 3) ∧
      ns.Subperm (needy plainConfig stillClock 3 twoPeers.node) ∧
      ns.length = min 3 (needy plainConfig stillClock 3 twoPeers.node).length := by
  have hstep : (iteration plainConfig stillClock (fun _ => none) 3 seedTurn twoPeers).toOption.any
      (fun r => (generated r.2).map Chunk.id = [3]) = true := by
    decide +kernel
  have hpromised : (InputGrapes.generatedChunk (fun _ => none)
      ⟨seedTurn.chunkised, stillClock.read (tick twoPeers).node.reads⟩ twoPeers.input).toOption.all
      (fun r => r.1.all fun c => SelectsAll (S := ListIDSet) plainConfig stillClock
        ((List.range 3).map seedTurn.push) (Streaming.addChunk c (tick (tick twoPeers)).node)) =
      true := by
    decide +kernel
  obtain ⟨⟨s', out⟩, hr, hids⟩ := eq_ok_of_any hstep
  obtain ⟨c, hc, hid⟩ : ∃ c ∈ generated out, c.id = 3 :=
    List.mem_map.1 ((of_decide_eq_true hids) ▸ List.mem_singleton_self 3)
  have hturn : Promised plainConfig stillClock (fun _ => none) 3 twoPeers seedTurn := by
    refine ⟨iff_of_true (by decide) (by decide), ?_, ?_⟩
    · show ∀ p ∈ twoPeers.node.pset.peers, p.bmap.isSome
      decide
    · intro c delay input hgenerated
      rw [hgenerated] at hpromised
      exact of_decide_eq_true hpromised
  have hspread := pushes_spread (B := ListBuffer) (P := ListPeers ℕ ListIDSet) plainConfig
    (by decide) (by decide) stillClock (fun _ => none) 3 40000
    (addPeer (addPeer ListPeers.empty 1 (.ofUsec 0)) 2 (.ofUsec 0)) ⟨3, 40000, 0, 0⟩ (by decide) []
    seedTurn (Run.along_cons.2 ⟨hturn, fun _ _ _ => Run.along_nil⟩) twoPeers s' [] out rfl hr c hc
  rw [hid] at hspread
  exact ⟨s', out, hr, hspread⟩

end PeerStreamer.SourceNode
