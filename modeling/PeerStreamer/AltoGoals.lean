import PeerStreamer.AltoSize

/-!
# The goals of the ALTO list

The loop that puts the ALTO list in the peer set adds every node of the list, does not make a full
peer set larger and removes no node of the list.  A turn of the loop is what it found and the calls
it made (`Turn`); when the peer set is full there is always a peer that can make place, since the
other entries of the list are fewer than the members (`exists_victim`).
-/

namespace PeerStreamer.TopologyAlto

open PeerStreamer.Topology

variable {N P S : Type} [DecidableEq N] [PeerSet P N S] {cfg : Config N}
  {created : N → Timeval} {altoList : List N} {pset : P} {n m : N} {i : ℕ}

/-! ## The calls of the loop -/

inductive PeerCall (N : Type) where
  | addPeer (id : N)
  | removePeer (id : N)
  deriving DecidableEq, Repr

def perform (created : N → Timeval) (call : PeerCall N) (pset : P) : P × List (Event N) :=
  match call with
  | .addPeer id => addPeer created id pset
  | .removePeer id => (PeerSet.removePeer pset id, [])

/-- There is a target, and as many members. -/
def Full (cfg : Config N) (pset : P) : Prop :=
  cfg.target ≠ 0 ∧ (PeerSet.peers pset).length ≥ cfg.target

instance (cfg : Config N) (pset : P) : Decidable (Full cfg pset) :=
  inferInstanceAs (Decidable (_ ∧ _))

/-- What a turn of the loop calls. -/
def calls (cfg : Config N) (altoList : List N) (entry : N × ℕ) (pset : P) : List (PeerCall N) :=
  if (PeerSet.getPeer pset entry.1).isSome then []
  else if cfg.target ≠ 0 ∧ (PeerSet.peers pset).length ≥ cfg.target then
    match (PeerSet.ids pset).find? fun id => id ∉ altoList.eraseIdx entry.2 with
    | some id => [.removePeer id, .addPeer entry.1]
    | none => []
  else [.addPeer entry.1]

/-- A turn of the loop: the peer set it found, and its calls. -/
structure Turn (N P : Type) where
  found : P
  calls : List (PeerCall N)

def turns (cfg : Config N) (created : N → Timeval) (altoList : List N) :
    List (N × ℕ) → P → List (Turn N P)
  | [], _ => []
  | entry :: entries, pset =>
    ⟨pset, calls cfg altoList entry pset⟩ ::
      turns cfg created altoList entries (applyEntry cfg created altoList entry pset).1

def added (cs : List (PeerCall N)) : List N :=
  cs.filterMap fun call => match call with
    | .addPeer id => some id
    | .removePeer _ => none

def removed (cs : List (PeerCall N)) : List N :=
  cs.filterMap fun call => match call with
    | .addPeer _ => none
    | .removePeer id => some id

theorem applyEntry_eq (cfg : Config N) (created : N → Timeval) (altoList : List N) (entry : N × ℕ)
    (pset : P) :
    applyEntry cfg created altoList entry pset =
      forEach (perform created) (calls cfg altoList entry pset) pset := by
  unfold applyEntry calls
  split_ifs with hmem hfull
  · rfl
  · cases (PeerSet.ids pset).find? fun id => id ∉ altoList.eraseIdx entry.2 <;> rfl
  · rfl

omit [DecidableEq N] [PeerSet P N S] in
theorem forEach_append {α : Type} (f : α → P → P × List (Event N)) (xs ys : List α) (pset : P) :
    forEach f (xs ++ ys) pset =
      ((forEach f ys (forEach f xs pset).1).1,
        (forEach f xs pset).2 ++ (forEach f ys (forEach f xs pset).1).2) := by
  induction xs generalizing pset with
  | nil => rfl
  | cons x xs ih =>
    simp only [List.cons_append, forEach, ih, List.append_assoc]

/-- The loop makes the calls of its turns. -/
theorem forEach_applyEntry_eq (cfg : Config N) (created : N → Timeval) (altoList : List N)
    (entries : List (N × ℕ)) (pset : P) :
    forEach (applyEntry cfg created altoList) entries pset =
      forEach (perform created) ((turns cfg created altoList entries pset).flatMap Turn.calls)
        pset := by
  induction entries generalizing pset with
  | nil => rfl
  | cons entry entries ih =>
    rw [turns, List.flatMap_cons, forEach_append, ← applyEntry_eq, ← ih]
    rfl

/-! ## A turn -/

/-- A full peer set has a member that is no other entry of the list. -/
theorem exists_victim {ns : Finset N} (hlen : altoList.length ≤ ns.card) (hi : i < altoList.length) :
    ∃ id ∈ ns, id ∉ altoList.eraseIdx i := by
  have hcard : (altoList.eraseIdx i).toFinset.card < ns.card := by
    have hle := (altoList.eraseIdx i).toFinset_card_le
    rw [List.length_eraseIdx_of_lt hi] at hle
    omega
  obtain ⟨id, hid, hother⟩ := Finset.exists_mem_notMem_of_card_lt_card hcard
  exact ⟨id, hid, fun h => hother (List.mem_toFinset.2 h)⟩

/-- What a turn does for the entry `n`, when the list has room in the peer set. -/
inductive Does (cfg : Config N) (altoList : List N) (n : N) (pset : P) : List (PeerCall N) → Prop
  | nothing (hmem : n ∈ members pset) : Does cfg altoList n pset []
  | add (hmem : n ∉ members pset) (hroom : ¬ Full cfg pset) :
    Does cfg altoList n pset [.addPeer n]
  | replace (id : N) (hmem : n ∉ members pset) (hfull : Full cfg pset) (hid : id ∈ members pset)
    (hlist : id ∉ altoList) : Does cfg altoList n pset [.removePeer id, .addPeer n]

variable [LawfulPeerSet P N S]

theorem does_calls {entry : N × ℕ}
    (hlen : cfg.target ≠ 0 → (altoList.length : Int) ≤ cfg.target)
    (hn : altoList[entry.2]? = some entry.1) (pset : P) :
    Does cfg altoList entry.1 pset (calls cfg altoList entry pset) := by
  obtain ⟨hi, hget⟩ := List.getElem?_eq_some_iff.1 hn
  unfold calls
  split_ifs with hmem hfull
  · exact .nothing (getPeer_isSome_iff.1 hmem)
  · rw [getPeer_isSome_iff] at hmem
    have hcard : altoList.length ≤ (members pset).card := by
      have hle := hlen hfull.1
      have hge := hfull.2
      rw [card_members]
      omega
    obtain ⟨id, hid, hother⟩ := exists_victim hcard hi
    cases hfind : (PeerSet.ids pset).find? fun id => id ∉ altoList.eraseIdx entry.2 with
    | none =>
      have hall := List.find?_eq_none.1 hfind id (mem_members.1 hid)
      exact absurd (decide_eq_true hother) hall
    | some id =>
      have hid : id ∈ members pset := mem_members.2 (List.mem_of_find?_eq_some hfind)
      refine .replace id hmem hfull hid fun hlist => ?_
      -- The entry itself is no member, so the victim would be another entry.
      have hother : id ∉ altoList.eraseIdx entry.2 := by simpa using List.find?_some hfind
      rw [List.mem_eraseIdx_iff_getElem?] at hother
      obtain ⟨j, hj⟩ := List.mem_iff_getElem?.1 hlist
      refine hother ⟨j, ?_, hj⟩
      rintro rfl
      rw [hn] at hj
      obtain rfl := Option.some.inj hj
      exact hmem hid
  · exact .add (fun h => hmem (getPeer_isSome_iff.2 h)) hfull

/-! ## The loop -/

/-- The other nodes of the list stay members. -/
theorem mem_members_of_does {cs : List (PeerCall N)} (h : Does cfg altoList n pset cs)
    (hm : m ∈ altoList) (hmem : m ∈ members pset) :
    m ∈ members (forEach (perform created) cs pset).1 := by
  cases h with
  | nothing => exact hmem
  | add =>
    show m ∈ members (PeerSet.addPeer pset n _)
    rw [members_addPeer]
    exact Finset.mem_insert_of_mem hmem
  | replace id _ _ _ hlist =>
    show m ∈ members (PeerSet.addPeer (PeerSet.removePeer pset id) n _)
    rw [members_addPeer, members_removePeer]
    refine Finset.mem_insert_of_mem (Finset.mem_erase.2 ⟨?_, hmem⟩)
    rintro rfl
    exact hlist hm

theorem self_mem_members_of_does {cs : List (PeerCall N)} (h : Does cfg altoList n pset cs) :
    n ∈ members (forEach (perform created) cs pset).1 := by
  cases h with
  | nothing hmem => exact hmem
  | add =>
    show n ∈ members (PeerSet.addPeer pset n _)
    rw [members_addPeer]
    exact Finset.mem_insert_self ..
  | replace id =>
    show n ∈ members (PeerSet.addPeer (PeerSet.removePeer pset id) n _)
    rw [members_addPeer]
    exact Finset.mem_insert_self ..

/-- A turn keeps the size of a full peer set, and adds one at most to another. -/
theorem card_of_does {cs : List (PeerCall N)} (created : N → Timeval)
    (h : Does cfg altoList n pset cs) :
    (members pset).card ≤ (members (forEach (perform created) cs pset).1).card ∧
      (members (forEach (perform created) cs pset).1).card ≤
        (members pset).card + if Full cfg pset then 0 else 1 := by
  cases h with
  | nothing => exact ⟨le_rfl, Nat.le_add_right ..⟩
  | add hmem hroom =>
    show _ ≤ (members (PeerSet.addPeer pset n _)).card ∧
      (members (PeerSet.addPeer pset n _)).card ≤ _
    rw [members_addPeer, Finset.card_insert_of_notMem hmem, if_neg hroom]
    exact ⟨Nat.le_succ _, le_rfl⟩
  | replace id hmem hfull hid =>
    show _ ≤ (members (PeerSet.addPeer (PeerSet.removePeer pset id) n _)).card ∧
      (members (PeerSet.addPeer (PeerSet.removePeer pset id) n _)).card ≤ _
    have hnew : n ∉ (members pset).erase id := fun h => hmem (Finset.mem_of_mem_erase h)
    rw [members_addPeer, members_removePeer, Finset.card_insert_of_notMem hnew,
      Finset.card_erase_add_one hid, if_pos hfull]
    exact ⟨le_rfl, le_rfl⟩

section Loop

variable {entries : List (N × ℕ)}

/-- The entries are those of the list. -/
def Entries (altoList : List N) (entries : List (N × ℕ)) : Prop :=
  ∀ entry ∈ entries, altoList[entry.2]? = some entry.1

omit [DecidableEq N] in
theorem entries_zipIdx (altoList : List N) : Entries altoList altoList.zipIdx :=
  fun _ h => List.mem_zipIdx_iff_getElem?.1 h

variable (hlen : cfg.target ≠ 0 → (altoList.length : Int) ≤ cfg.target)

include hlen

theorem does_turns (created : N → Timeval) (hentries : Entries altoList entries) (pset : P) :
    ∀ t ∈ turns cfg created altoList entries pset, ∃ n, Does cfg altoList n t.found t.calls := by
  induction entries generalizing pset with
  | nil => exact fun _ h => absurd h List.not_mem_nil
  | cons entry entries ih =>
    rw [turns, List.forall_mem_cons]
    refine ⟨⟨entry.1, does_calls hlen (hentries entry (List.mem_cons_self ..)) pset⟩, ?_⟩
    exact ih (fun e he => hentries e (List.mem_cons_of_mem _ he)) _

/-- The nodes of the list that are members stay so, and those with a turn become so. -/
theorem mem_members_forEach (hentries : Entries altoList entries) (hm : m ∈ altoList)
    (h : m ∈ members pset ∨ m ∈ entries.map Prod.fst) :
    m ∈ members (forEach (applyEntry cfg created altoList) entries pset).1 := by
  induction entries generalizing pset with
  | nil => exact h.resolve_right List.not_mem_nil
  | cons entry entries ih =>
    have hdoes := does_calls hlen (hentries entry (List.mem_cons_self ..)) pset
    have hnext : m ∈ members (applyEntry cfg created altoList entry pset).1 ∨
        m ∈ entries.map Prod.fst := by
      rw [applyEntry_eq]
      rw [List.map_cons, List.mem_cons] at h
      rcases h with h | rfl | h
      · exact .inl (mem_members_of_does hdoes hm h)
      · exact .inl (self_mem_members_of_does hdoes)
      · exact .inr h
    exact ih (fun e he => hentries e (List.mem_cons_of_mem _ he)) hnext

theorem card_le_forEach (hentries : Entries altoList entries) (pset : P) :
    (members pset).card ≤
      (members (forEach (applyEntry cfg created altoList) entries pset).1).card := by
  induction entries generalizing pset with
  | nil => exact le_rfl
  | cons entry entries ih =>
    have hdoes := does_calls hlen (hentries entry (List.mem_cons_self ..)) pset
    have hstep := (card_of_does created hdoes).1
    rw [← applyEntry_eq] at hstep
    exact hstep.trans (ih (fun e he => hentries e (List.mem_cons_of_mem _ he)) _)

/-- The loop does not grow the peer set beyond the target. -/
theorem card_forEach_le {k : Int} (hT : 0 < cfg.target) (hk : cfg.target ≤ k)
    (hentries : Entries altoList entries) (hle : (members pset).card ≤ k) :
    (members (forEach (applyEntry cfg created altoList) entries pset).1).card ≤ k := by
  induction entries generalizing pset with
  | nil => exact hle
  | cons entry entries ih =>
    have hdoes := does_calls hlen (hentries entry (List.mem_cons_self ..)) pset
    have hstep := (card_of_does created hdoes).2
    rw [← applyEntry_eq] at hstep
    have hnext : ((members (applyEntry cfg created altoList entry pset).1).card : Int) ≤ k := by
      split_ifs at hstep with hfull
      · omega
      · have hroom : ((PeerSet.peers pset).length : Int) < cfg.target :=
          not_le.1 fun h => hfull ⟨hT.ne', h⟩
        rw [← card_members] at hroom
        omega
    exact ih (fun e he => hentries e (List.mem_cons_of_mem _ he)) hnext

end Loop

/-! ## The turns -/

section Turns

variable {cs : List (PeerCall N)} {ts : List (Turn N P)}

omit [LawfulPeerSet P N S] in
theorem not_mem_of_mem_removed (h : Does cfg altoList n pset cs) (hm : m ∈ removed cs) :
    m ∉ altoList := by
  cases h with
  | nothing => exact absurd hm List.not_mem_nil
  | add => exact absurd hm List.not_mem_nil
  | replace id _ _ _ hlist =>
    obtain rfl : m = id := List.mem_singleton.1 hm
    exact hlist

omit [LawfulPeerSet P N S] in
/-- A turn removes a peer if it adds one to a full peer set. -/
theorem length_removed_of_does (h : Does cfg altoList n pset cs) :
    (removed cs).length = if Full cfg pset then (added cs).length else 0 := by
  cases h with
  | nothing => exact (ite_self 0).symm
  | add _ hroom => exact (if_neg hroom).symm
  | replace id _ hfull => exact (if_pos hfull).symm

omit [LawfulPeerSet P N S] in
/-- No node of the list is removed. -/
theorem removed_disjoint (h : ∀ t ∈ ts, ∃ n, Does cfg altoList n t.found t.calls) :
    ∀ m ∈ removed (ts.flatMap Turn.calls), m ∉ altoList := by
  intro m hm
  rw [removed, List.filterMap_flatMap] at hm
  obtain ⟨t, ht, hm⟩ := List.mem_flatMap.1 hm
  obtain ⟨n, hdoes⟩ := h t ht
  exact not_mem_of_mem_removed hdoes hm

omit [LawfulPeerSet P N S] in
/-- As many peers are removed as are added to a full peer set. -/
theorem length_removed (h : ∀ t ∈ ts, ∃ n, Does cfg altoList n t.found t.calls) :
    (removed (ts.flatMap Turn.calls)).length =
      (added ((ts.filter fun t => Full cfg t.found).flatMap Turn.calls)).length := by
  induction ts with
  | nil => rfl
  | cons t ts ih =>
    obtain ⟨⟨n, hdoes⟩, hts⟩ := List.forall_mem_cons.1 h
    have hturn := length_removed_of_does hdoes
    have hrest := ih hts
    unfold removed added at hturn hrest ⊢
    rw [List.flatMap_cons, List.filterMap_append, List.length_append, hturn, hrest,
      List.filter_cons]
    by_cases hfull : Full cfg t.found
    · rw [if_pos hfull, if_pos (decide_eq_true hfull), List.flatMap_cons, List.filterMap_append,
        List.length_append]
    · rw [if_neg hfull, if_neg (fun h => hfull (of_decide_eq_true h)), Nat.zero_add]

end Turns

/-! ## The goals -/

/-- When the list is put in the peer set, each of its nodes becomes a member; the peer set does not
grow beyond the target, or beyond its size if it was larger; none of the nodes is removed; and a
peer is removed for each one that is added to a full peer set, so that it never shrinks. -/
theorem applyEntry_goals (hlen : cfg.target ≠ 0 → (altoList.length : Int) ≤ cfg.target)
    (created : N → Timeval) (pset : P) :
    forEach (applyEntry cfg created altoList) altoList.zipIdx pset =
      forEach (perform created)
        ((turns cfg created altoList altoList.zipIdx pset).flatMap Turn.calls) pset ∧
    (∀ n ∈ altoList, n ∈ PeerSet.ids
      (forEach (applyEntry cfg created altoList) altoList.zipIdx pset).1) ∧
    (0 < cfg.target → ((PeerSet.peers
      (forEach (applyEntry cfg created altoList) altoList.zipIdx pset).1).length : Int) ≤
      max cfg.target (PeerSet.peers pset).length) ∧
    (∀ n ∈ removed ((turns cfg created altoList altoList.zipIdx pset).flatMap Turn.calls),
      n ∉ altoList) ∧
    (removed ((turns cfg created altoList altoList.zipIdx pset).flatMap Turn.calls)).length =
      (added (((turns cfg created altoList altoList.zipIdx pset).filter fun t =>
        Full cfg t.found).flatMap Turn.calls)).length ∧
    ∀ k, (PeerSet.peers pset).length ≤ (PeerSet.peers
      (forEach (applyEntry cfg created altoList) (altoList.zipIdx.take k) pset).1).length := by
  have hentries := entries_zipIdx altoList
  have hdoes := does_turns hlen created hentries pset
  refine ⟨forEach_applyEntry_eq .., ?_, ?_, removed_disjoint hdoes, length_removed hdoes, ?_⟩
  · intro n hn
    refine mem_members.1 (mem_members_forEach hlen hentries hn (.inr ?_))
    rwa [List.zipIdx_map_fst]
  · intro hT
    rw [← card_members, ← card_members]
    exact card_forEach_le hlen hT (le_max_left ..) hentries (le_max_right ..)
  · intro k
    rw [← card_members, ← card_members]
    exact card_le_forEach hlen (fun e he => hentries e (List.mem_of_mem_take he)) pset

/-- The list asks for nodes 3, 1 and 4, and node 1 is a member. -/
def mixed : ListPeers ℕ ListIDSet :=
  ((ListPeers.empty.add 8 (.ofUsec 0)).add 1 (.ofUsec 0)).add 9 (.ofUsec 0)

def guidedToThree : Config ℕ := { guided with neighborhoodTargetSize := 3 }

/-- Nodes 3 and 4 replace nodes 8 and 9. -/
theorem applyEntry_goals_three :
    3 ∈ PeerSet.ids (forEach (applyEntry guidedToThree (fun _ => .ofUsec 0) [3, 1, 4])
      [3, 1, 4].zipIdx mixed).1 ∧
    ((PeerSet.peers (forEach (applyEntry guidedToThree (fun _ => .ofUsec 0) [3, 1, 4])
      [3, 1, 4].zipIdx mixed).1).length : Int) ≤ 3 := by
  have hlen : guidedToThree.target ≠ 0 → (([3, 1, 4] : List ℕ).length : Int) ≤
      guidedToThree.target := fun _ => by decide
  obtain ⟨-, hall, hsize, -⟩ := applyEntry_goals hlen (fun _ => .ofUsec 0) mixed
  exact ⟨hall 3 (by simp), hsize (by decide)⟩

end PeerStreamer.TopologyAlto
