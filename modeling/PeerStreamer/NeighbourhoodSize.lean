import PeerStreamer.InNeighbours
import PeerStreamer.InactivitySweep
import PeerStreamer.Lib.Decay
import PeerStreamer.TopologyRound

/-!
# The size of a neighbourhood

A selection does not look for more nodes than the target asks for, but it keeps a portion
`topo_mem` of the nodes that it had, however many these were.  Between two selections silent nodes
are dropped, and nodes that ask for it are added without a look at the target.

So a neighbourhood that is too large shrinks by the factor `topo_mem` with every selection, or by the
next larger `double` when the product is rounded up (`keepSize_le_mul`).  When at most `R` requests
to be added are served between two selections, it comes down to the target and `R / (1 - topo_mem)`
more, however large it was at first (`neighbours_settle`).
-/

namespace PeerStreamer.Topology

open NodeidSet Decay

variable {N P S : Type} [DecidableEq N] [PeerSet P N S] {cfg : Config} {clock : ℕ → Timeval}
  {c : Choices N} {s s' : State N P}

/-! ## The code -/

/-- `nodeid_to_peer`, which returns what `getPeer` finds in the end. -/
def nodeidToPeer (cfg : Config) (clock : ℕ → Timeval) (id : N) (reg : Bool) (s : State N P) :
    State N P × List (Event N) :=
  if (PeerSet.getPeer s.pset id).isNone ∧ reg then addPeer clock id none cfg.topoOut false s
  else (s, [])

/-- What changes the neighbourhood, and what the rest of the streamer stores into it. -/
inductive Change (N S : Type) where
  | input (i : Input N S)
  | nodeidToPeer (id : N) (reg : Bool)

def change (cfg : Config) (clock : ℕ → Timeval) (i : Change N S) (s : State N P) :
    Except Fault (State N P × List (Event N)) :=
  match i with
  | .input i => step cfg clock i s
  | .nodeidToPeer id reg => .ok (nodeidToPeer cfg clock id reg s)

/-- What a selection starts from. -/
def neighbours (cfg : Config) (s : State N P) : List N :=
  if cfg.topoOut then PeerSet.ids s.pset else s.savedids

namespace Change

/-- A message that leads to a selection. -/
def selects (cfg : Config) : Change N S → Bool
  | .input (.call (some (_, buff)) _) =>
    ¬ (cfg.topoIn ∧ buff.head? = some MSG_TYPE_STREAMER_TOPOLOGY)
  | _ => false

/-- A request to be added, or a message of a node that is to be added. -/
def asks (cfg : Config) : Change N S → Bool
  | .input (.call (some (_, buff)) _) => cfg.topoOut ∧ cfg.topoIn ∧ kind buff = some true
  | .input _ => false
  | .nodeidToPeer _ reg => cfg.topoOut ∧ reg

omit [DecidableEq N] in
theorem of_selects {i : Change N S} (h : i.selects cfg = true) :
    ∃ fromid buff c, i = .input (.call (some (fromid, buff)) c) ∧
      ¬ (cfg.topoIn = true ∧ buff.head? = some MSG_TYPE_STREAMER_TOPOLOGY) := by
  cases i with
  | nodeidToPeer id reg => cases h
  | input i =>
    cases i with
    | store n f hf => cases h
    | call msg c =>
      cases msg with
      | none => cases h
      | some m => exact ⟨m.1, m.2, c, rfl, of_decide_eq_true h⟩

/-- Gossip that names no node twice. -/
def Distinct : Change N S → Prop
  | .input (.call _ c) => (c.newids.map Prod.fst).Nodup
  | _ => True

end Change

/-! ## Between the selections -/

section Between

variable [LawfulPeerSet P N S]

theorem length_ids_addPeer_le (pset : P) (n : N) (t : Timeval) :
    (PeerSet.ids (PeerSet.addPeer pset n t)).length ≤ (PeerSet.ids pset).length + 1 := by
  by_cases hn : n ∈ PeerSet.ids pset
  · rw [LawfulPeerSet.addPeer_mem pset n t hn]
    exact Nat.le_succ _
  · obtain ⟨p, -, -, -, -, hps⟩ := LawfulPeerSet.addPeer_new pset n t hn
    simp [PeerSet.ids, hps]

/-- A peer that is added without metadata. -/
theorem length_neighbours_addPeer_le (cfg : Config) (clock : ℕ → Timeval) (id : N)
    (isRemote : Bool) (s : State N P) :
    (neighbours cfg (addPeer clock id none cfg.topoOut isRemote s).1).length ≤
      (neighbours cfg s).length + if cfg.topoOut then 1 else 0 := by
  unfold neighbours addPeer
  cases cfg.topoOut with
  | true => exact length_ids_addPeer_le s.pset id (clock s.reads)
  | false => exact le_rfl

theorem length_neighbours_dropInactive_le (cfg : Config) (clock : ℕ → Timeval) (s : State N P) :
    (neighbours cfg (dropInactive clock s).1).length ≤ (neighbours cfg s).length := by
  unfold neighbours
  split_ifs
  · simp only [PeerSet.ids, peers_dropInactive, List.length_map]
    exact List.length_filter_le ..
  · rw [savedids_dropInactive]

/-- An explicit message adds its sender if it asks for that. -/
theorem length_neighbours_explicit_le (cfg : Config) (clock : ℕ → Timeval) (fromid : N)
    {buff : List UInt8} (hbuff : buff.head? = some MSG_TYPE_STREAMER_TOPOLOGY) (s : State N P) :
    (neighbours cfg (explicit clock fromid buff s).1).length ≤
      (neighbours cfg s).length + if cfg.topoOut ∧ kind buff = some true then 1 else 0 := by
  unfold neighbours
  cases cfg.topoOut with
  | false => simp [savedids_explicit]
  | true =>
    have hsub : PeerSet.ids (explicit clock fromid buff s).1.pset ⊆
        PeerSet.ids s.pset ++ if kind buff = some true then [fromid] else [] := by
      intro x hx
      have hpeer : isPeer (explicit clock fromid buff s).1.pset x = _ :=
        isPeer_explicit x fromid hbuff s
      rw [isPeer, decide_eq_true hx] at hpeer
      by_cases hfrom : fromid = x
      · subst hfrom
        cases hkind : kind buff with
        | none => simpa [hkind, isPeer] using hpeer
        | some b =>
          obtain rfl : true = b := by simpa [hkind] using hpeer
          simp
      · apply List.mem_append_left
        simpa [hfrom, isPeer] using hpeer
    have hlen := ((LawfulPeerSet.nodup_ids _).subperm hsub).length_le
    rw [List.length_append] at hlen
    simp only [if_true, true_and]
    split_ifs at hlen ⊢ <;> simpa using hlen

end Between

/-! ## A selection -/

section Selection

/-- What is kept of a selection of in-neighbours only. -/
theorem savedids_reselect (hout : cfg.topoOut = false) (c : Choices N) (s : State N P) :
    (reselect cfg clock c s).1.savedids = selecteds cfg c s.pset
      ((PeerSet.ids s.pset).length + s.savedids.length + c.newids.length)
      (arrange cfg.topoKeepBest c 0 s.savedids) := by
  simp [reselect, hout, PeerSet.ids]

variable (hT : 0 < cfg.neighborhoodTargetSize) (hmax : cfg.neighborhoodTargetSize ≤ INT_MAX)
  (h0 : 0 ≤ cfg.alphaTarget) (h1 : cfg.alphaTarget ≤ 1) {m : ℚ} (hm1 : m ≤ 1)
  (hm : ∀ n, (keepSize cfg n : ℚ) ≤ m * n)

include hT hmax h0 h1 hm1 hm

/-- No more are selected than the target asks for or were kept. -/
theorem length_selecteds_le_max (hnew : (c.newids.map Prod.fst).Nodup) (pset : P) {room : ℕ}
    {old : List N} (hold : old.Nodup) (hroom : old.length + c.newids.length ≤ room) :
    ((selecteds cfg c pset room (arrange cfg.topoKeepBest c 0 old)).length : ℚ) ≤
      max (cfg.neighborhoodTargetSize : ℚ) (m * old.length) := by
  have hkeep : keepSize cfg old.length ≤ old.length := by
    have hle := (hm old.length).trans (mul_le_of_le_one_left (Nat.cast_nonneg _) hm1)
    exact_mod_cast hle
  set q := query cfg h0 h1 hmax c hnew pset old hold hkeep with hq
  have hlen : (q.selecteds.length : Int) ≤ max cfg.neighborhoodTargetSize
      (keepSize cfg old.length) := by
    rw [q.length_selecteds_of_target hT.ne']
    exact min_le_right ..
  have hfits : q.old.length + q.newids.length ≤ room := by
    simpa [hq, query] using hroom
  rw [selecteds_eq_select cfg h0 h1 hmax c hnew pset room old hold hkeep, ← hq, select_eq q hfits]
  calc ((q.selecteds.length : ℕ) : ℚ)
      ≤ ((max cfg.neighborhoodTargetSize (keepSize cfg old.length) : Int) : ℚ) := by
        exact_mod_cast hlen
    _ = max (cfg.neighborhoodTargetSize : ℚ) (keepSize cfg old.length : ℚ) := by
        rw [Int.cast_max, Int.cast_natCast]
    _ ≤ _ := max_le_max_left _ (hm old.length)

variable [LawfulPeerSet P N S]

/-- What a selection leaves. -/
theorem length_neighbours_reselect_le (hnew : (c.newids.map Prod.fst).Nodup) (s : State N P)
    (hnodup : (neighbours cfg s).Nodup) :
    ((neighbours cfg (reselect cfg clock c s).1).length : ℚ) ≤
      max (cfg.neighborhoodTargetSize : ℚ) (m * (neighbours cfg s).length) := by
  cases hout : cfg.topoOut with
  | true =>
    have hperm : (PeerSet.ids (reselect cfg clock c s).1.pset).Perm (selectedIds cfg c s) := by
      rw [List.perm_ext_iff_of_nodup (LawfulPeerSet.nodup_ids _) (nodup_selectedIds hnew s)]
      exact fun x => mem_ids_reselect clock hout
    simp only [neighbours, hout, if_true, hperm.length_eq]
    apply length_selecteds_le_max hT hmax h0 h1 hm1 hm hnew s.pset (LawfulPeerSet.nodup_ids s.pset)
    unfold maxIds
    omega
  | false =>
    simp only [neighbours, hout, Bool.false_eq_true, if_false] at hnodup ⊢
    rw [savedids_reselect hout]
    apply length_selecteds_le_max hT hmax h0 h1 hm1 hm hnew s.pset hnodup
    omega

end Selection

/-! ## Runs -/

section Runs

variable [LawfulPeerSet P N S]

omit [LawfulPeerSet P N S] in
/-- A call drops silent peers first, and then serves the message or selects. -/
theorem updatePeers_message (fromid : N) (buff : List UInt8) (c : Choices N) (s : State N P) :
    (updatePeers cfg clock (some (fromid, buff)) c s).1 =
      if cfg.topoIn ∧ buff.head? = some MSG_TYPE_STREAMER_TOPOLOGY then
        (explicit clock fromid buff (dropInactive clock s).1).1
      else (reselect cfg clock c (dropInactive clock s).1).1 := by
  simp only [updatePeers]
  split_ifs <;> rfl

omit [DecidableEq N] [LawfulPeerSet P N S] in
theorem neighbours_nodeidToPeer (hout : cfg.topoOut = false) (id : N) (reg : Bool)
    (s : State N P) : neighbours cfg (nodeidToPeer cfg clock id reg s).1 = neighbours cfg s := by
  unfold nodeidToPeer
  split_ifs
  · simp [neighbours, addPeer, hout]
  · rfl

/-- No node is twice in the neighbourhood. -/
theorem nodup_change {i : Change N S} (hdistinct : i.Distinct) (hnodup : (neighbours cfg s).Nodup)
    {events : List (Event N)} (h : change cfg clock i s = .ok (s', events)) :
    (neighbours cfg s').Nodup := by
  cases hout : cfg.topoOut with
  | true =>
    simp only [neighbours, hout, if_true]
    exact LawfulPeerSet.nodup_ids s'.pset
  | false =>
    cases i with
    | nodeidToPeer id reg =>
      obtain rfl : (nodeidToPeer cfg clock id reg s).1 = s' := congrArg Prod.fst (Except.ok.inj h)
      rwa [neighbours_nodeidToPeer hout]
    | input i =>
      simp only [neighbours, hout, Bool.false_eq_true, if_false] at hnodup ⊢
      cases i with
      | store n f hf =>
        obtain ⟨rfl, -⟩ := Prod.mk.inj (Except.ok.inj h)
        exact hnodup
      | call msg c =>
        obtain rfl : (updatePeers cfg clock msg c s).1 = s' := congrArg Prod.fst (Except.ok.inj h)
        have hdropped := savedids_dropInactive clock s
        rcases msg with _ | ⟨fromid, buff⟩
        · show (dropInactive clock s).1.savedids.Nodup
          rwa [hdropped]
        · rw [updatePeers_message]
          split_ifs
          · rwa [savedids_explicit, hdropped]
          · rw [savedids_reselect hout]
            apply nodup_selecteds hdistinct
            rwa [(arrange_perm ..).nodup_iff, hdropped]

theorem nodup_neighbours_dropInactive (hnodup : (neighbours cfg s).Nodup) :
    (neighbours cfg (dropInactive clock s).1).Nodup := by
  unfold neighbours at hnodup ⊢
  split_ifs at hnodup ⊢
  · exact LawfulPeerSet.nodup_ids _
  · rwa [savedids_dropInactive]

/-- Without a selection at most the sender of a message is added. -/
theorem length_neighbours_change_le {i : Change N S} (hi : i.selects cfg = false)
    {events : List (Event N)} (h : change cfg clock i s = .ok (s', events)) :
    (neighbours cfg s').length ≤ (neighbours cfg s).length + if i.asks cfg then 1 else 0 := by
  cases i with
  | nodeidToPeer id reg =>
    obtain rfl : (nodeidToPeer cfg clock id reg s).1 = s' := congrArg Prod.fst (Except.ok.inj h)
    unfold nodeidToPeer
    split_ifs with hnew hasks hasks
    · exact (length_neighbours_addPeer_le cfg clock id false s).trans (by split_ifs <;> omega)
    · have hout : cfg.topoOut = false := by simpa [Change.asks, hnew.2] using hasks
      have hadded := length_neighbours_addPeer_le cfg clock id false s
      simpa [hout] using hadded
    · exact Nat.le_succ _
    · exact le_rfl
  | input i =>
    cases i with
    | store n f hf =>
      obtain ⟨rfl, -⟩ := Prod.mk.inj (Except.ok.inj h)
      unfold neighbours
      split_ifs <;> simp [PeerSet.ids_update _ _ hf]
    | call msg c =>
      obtain rfl : (updatePeers cfg clock msg c s).1 = s' := congrArg Prod.fst (Except.ok.inj h)
      have hdropped := length_neighbours_dropInactive_le cfg clock s
      rcases msg with _ | ⟨fromid, buff⟩
      · exact hdropped.trans (Nat.le_add_right ..)
      · have hserved : cfg.topoIn = true ∧ buff.head? = some MSG_TYPE_STREAMER_TOPOLOGY := by
          simpa [Change.selects] using hi
        have hexplicit := length_neighbours_explicit_le cfg clock fromid
          hserved.2 (dropInactive clock s).1
        rw [updatePeers_message, if_pos hserved]
        simp only [Change.asks, hserved.1, true_and, decide_eq_true_eq]
        omega

/-- The neighbourhood is cut down by the selections. -/
theorem cut_change (cfg : Config) (clock : ℕ → Timeval) (hT : 0 < cfg.neighborhoodTargetSize)
    (hmax : cfg.neighborhoodTargetSize ≤ INT_MAX) (h0 : 0 ≤ cfg.alphaTarget)
    (h1 : cfg.alphaTarget ≤ 1) {m : ℚ} (hm0 : 0 ≤ m) (hm1 : m ≤ 1)
    (hm : ∀ n, (keepSize cfg n : ℚ) ≤ m * n) :
    Cut (change (P := P) (S := S) cfg clock) (fun s i => i.Distinct ∧ (neighbours cfg s).Nodup)
      (fun s => ((neighbours cfg s).length : ℚ)) m cfg.neighborhoodTargetSize
      (Change.selects cfg) (fun i => if i.asks cfg then 1 else 0) where
  nonneg := hm0
  le_one := hm1
  level_nonneg := by exact_mod_cast hT.le
  gain_nonneg i := by split_ifs <;> simp
  cuts s i s' out := by
    rintro ⟨hdistinct, hnodup⟩ hi hstep
    obtain ⟨fromid, buff, c, rfl, hselect⟩ := Change.of_selects hi
    obtain rfl : (updatePeers cfg clock (some (fromid, buff)) c s).1 = s' :=
      congrArg Prod.fst (Except.ok.inj hstep)
    have hdropped := length_neighbours_dropInactive_le cfg clock s
    rw [updatePeers_message, if_neg hselect]
    apply (length_neighbours_reselect_le hT hmax h0 h1 hm1 hm hdistinct _
      (nodup_neighbours_dropInactive hnodup)).trans
    apply max_le_max_left
    exact mul_le_mul_of_nonneg_left (by exact_mod_cast hdropped) hm0
  raises s i s' out := by
    rintro - hi hstep
    exact_mod_cast length_neighbours_change_le hi hstep

/-- With at most `R` requests to be added between two selections, the neighbourhood comes down to
the target but for `R / (1 - m)`, where `m` bounds the portion that is kept. -/
theorem neighbours_settle (cfg : Config) (clock : ℕ → Timeval)
    (hT : 0 < cfg.neighborhoodTargetSize) (hmax : cfg.neighborhoodTargetSize ≤ INT_MAX)
    (h0 : 0 ≤ cfg.alphaTarget) (h1 : cfg.alphaTarget ≤ 1) (m : ℚ) (hm0 : 0 ≤ m) (hm1 : m ≤ 1)
    (hm : ∀ n, (keepSize cfg n : ℚ) ≤ m * n) (R : ℕ) (inputs : List (Change N S))
    (hdistinct : ∀ i ∈ inputs, i.Distinct)
    (hasks : ∀ seg, seg <:+: inputs → (∀ i ∈ seg, i.selects cfg = false) →
      seg.countP (·.asks cfg) ≤ R)
    (s : State N P) (hnodup : (neighbours cfg s).Nodup) (s' : State N P) (events : List (Event N))
    (h : Run.run (change cfg clock) inputs s = .ok (s', events)) :
    (1 - m) * (neighbours cfg s').length ≤
      (1 - m) * max (cfg.neighborhoodTargetSize : ℚ)
        (m ^ inputs.countP (·.selects cfg) * (neighbours cfg s).length) + R := by
  have halong : Run.Along (change cfg clock)
      (fun s i => i.Distinct ∧ (neighbours cfg s).Nodup) inputs s := by
    intro pre i hpre s₁ out₁ hrun
    have hpre' : pre <+: inputs := (List.prefix_append pre [i]).trans hpre
    refine ⟨hdistinct i (hpre.subset (by simp)), ?_⟩
    exact Run.invariant (fun _ s _ => (neighbours cfg s).Nodup) hnodup
      (fun _ _ _ _ _ _ hnodup hi hstep => nodup_change hi hnodup hstep)
      (Run.Along.of_forall fun i hi _ => hdistinct i (hpre'.subset hi)) hrun
  apply run_le_of_between (cut_change cfg clock hT hmax h0 h1 hm0 hm1 hm) halong ?_ h
  intro seg hseg hnone
  rw [sum_units]
  exact_mod_cast hasks seg hseg hnone

end Runs

/-- Six peers, three times the target of `narrow`. -/
def crowd : State ℕ (ListPeers ℕ ListIDSet) :=
  .init ([1, 2, 3, 4, 5, 6].foldl (fun ps n => ps.add n (.ofUsec 0)) ListPeers.empty)

/-- The portion that `narrow` keeps, but for the rounding. -/
def shrinkage : ℚ := narrow.topoMem * (1 + 1 / 2 ^ 53)

/-- Two selections, and a request in between. -/
def crowding : List (Change ℕ ListIDSet) :=
  [.input (.call (some (1, [0x10])) (gossiped [1, 7])),
    .input (.call (some (8, [MSG_TYPE_STREAMER_TOPOLOGY, STREAMER_TOPOLOGY_MSG_ADD]))
      (gossiped [])),
    .input (.call (some (2, [0x10])) (gossiped [9])), .nodeidToPeer 3 false]

theorem neighbours_settle_crowding : ∃ s events,
    Run.run (change narrow stillReadings) crowding crowd = .ok (s, events) ∧
    (1 - shrinkage) * (neighbours narrow s).length ≤ (1 - shrinkage) *
      max (narrow.neighborhoodTargetSize : ℚ)
        (shrinkage ^ crowding.countP (·.selects narrow) * (neighbours narrow crowd).length) +
      (1 : ℕ) := by
  refine ⟨_, _, rfl, neighbours_settle narrow stillReadings (by decide) (by decide) ?_ ?_ shrinkage
    ?_ ?_ (keepSize_le_mul narrow) 1 crowding ?_ ?_ crowd ?_ _ _ rfl⟩
  · decide +kernel
  · decide +kernel
  · decide +kernel
  · decide +kernel
  · intro i hi
    simp only [crowding, List.mem_cons, List.not_mem_nil, or_false] at hi
    obtain rfl | rfl | rfl | rfl := hi <;> simp [Change.Distinct, gossiped]
  · intro seg hseg _
    have hall : crowding.countP (·.asks narrow) = 1 := by decide
    exact hall ▸ hseg.sublist.countP_le
  · decide

end PeerStreamer.Topology
