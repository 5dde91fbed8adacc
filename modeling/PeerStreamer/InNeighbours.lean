import PeerStreamer.CInt
import PeerStreamer.Lib.Run
import PeerStreamer.TopologyProof

/-!
# The in-neighbours of a node

A node that selects only in-neighbours keeps the ones it has asked in `savedids`.  It drops a peer
that has been silent, and tells it so, without a look at `savedids`: a node that is both a peer and
an in-neighbour is told that it is removed, and stays an in-neighbour.  As long as no call finds
such a node silent, `savedids` has exactly the nodes that were last told that they are added
(`mem_savedids_iff`).
-/

namespace PeerStreamer.Topology

open Mirror

/-- A call of `update_peers`, or a store of the rest of the streamer into the record of a peer. -/
inductive Input (N S : Type) where
  | call (msg : Option (N × List UInt8)) (c : Choices N)
  | store (n : N) (f : Peer N S → Peer N S) (hf : ∀ p, (f p).id = p.id)

variable {N P S : Type} [DecidableEq N] [PeerSet P N S] {cfg : Config} {clock : ℕ → Timeval}
  {x : N} {s s' : State N P} {events : List (Event N)}

def step (cfg : Config) (clock : ℕ → Timeval) (i : Input N S) (s : State N P) :
    Except Fault (State N P × List (Event N)) :=
  match i with
  | .call msg c => .ok (updatePeers cfg clock msg c s)
  | .store n f _ => .ok ({ s with pset := PeerSet.update s.pset n f }, [])

/-- The call finds no in-neighbour silent. -/
def SavedActive (clock : ℕ → Timeval) (s : State N P) : Input N S → Prop
  | .call _ _ => ∀ x ∈ inactiveIds (clock s.reads) s.pset, x ∉ s.savedids
  | .store .. => True

/-- A call says to `x` what it does to `savedids`, if and only if it does not drop an in-neighbour
that it keeps. -/
theorem settled_told_updatePeers_iff (hout : cfg.topoOut = false) (hin : cfg.topoIn = true) (x : N)
    (msg : Option (N × List UInt8)) (c : Choices N) (s : State N P) :
    settled (decide (x ∈ s.savedids)) (told x (updatePeers cfg clock msg c s).2) =
        decide (x ∈ (updatePeers cfg clock msg c s).1.savedids) ↔
      ¬ (x ∈ inactiveIds (clock s.reads) s.pset ∧ x ∈ s.savedids ∧
        x ∈ (updatePeers cfg clock msg c s).1.savedids) := by
  have hdrop := settled_told_dropInactive clock x (decide (x ∈ s.savedids)) s
  have hsaved := savedids_dropInactive clock s
  -- without a selection `savedids` stays
  have hkept : ∀ m, m = (if x ∈ inactiveIds (clock s.reads) s.pset then false
      else decide (x ∈ s.savedids)) → (m = decide (x ∈ s.savedids) ↔
        ¬ (x ∈ inactiveIds (clock s.reads) s.pset ∧ x ∈ s.savedids ∧ x ∈ s.savedids)) := by
    rintro m rfl
    split_ifs with h <;> simp [h]
  rcases msg with _ | ⟨fromid, buff⟩
  · have hsame : (updatePeers cfg clock none c s).1.savedids = s.savedids := hsaved
    rw [hsame]
    exact hkept _ hdrop
  by_cases hbuff : buff.head? = some MSG_TYPE_STREAMER_TOPOLOGY
  · have hsame : (updatePeers cfg clock (some (fromid, buff)) c s).1.savedids = s.savedids := by
      simp only [updatePeers, hin, hbuff, and_self, if_true, savedids_explicit, hsaved]
    rw [hsame]
    apply hkept
    simp only [updatePeers, hin, hbuff, and_self, if_true, told_append, told_explicit,
      List.append_nil]
    exact hdrop
  · have hselect := settled_told_reselect clock hout hin x c
      (if x ∈ inactiveIds (clock s.reads) s.pset then false else decide (x ∈ s.savedids))
      (dropInactive clock s).1
    rw [hsaved] at hselect
    simp only [updatePeers, hbuff, and_false, if_false, told_append, settled_append]
    rw [hdrop, hselect]
    split_ifs with hnew hgone hsilent
    · simp [hnew]
    · simp [hgone]
    · by_cases hx : x ∈ s.savedids
      · simp [hx, hsilent]
      · simpa [hx] using hnew
    · simp only [hsilent, false_and, not_false_iff, iff_true, decide_eq_decide]
      constructor
      · intro hx
        by_contra hnot
        exact hgone ⟨hx, hnot⟩
      · intro hx
        by_contra hnot
        exact hnew ⟨hx, hnot⟩

/-- As long as no call finds an in-neighbour silent, the in-neighbours are the nodes that were last
told that they are added. -/
theorem mem_savedids_iff (cfg : Config) (clock : ℕ → Timeval) (hout : cfg.topoOut = false)
    (hin : cfg.topoIn = true) (inputs : List (Input N S)) (pset : P) (s : State N P)
    (events : List (Event N))
    (hactive : Run.Along (step cfg clock) (SavedActive clock) inputs (State.init pset))
    (h : Run.run (step cfg clock) inputs (State.init pset) = .ok (s, events)) (x : N) :
    x ∈ s.savedids ↔ (told x events).getLast? = some true := by
  have hinv := Run.invariant
    (fun _ s events => settled false (told x events) = decide (x ∈ s.savedids)) rfl ?_ hactive h
  · cases hlast : (told x events).getLast? with
    | none =>
      rw [List.getLast?_eq_none_iff.1 hlast] at hinv
      simpa using hinv
    | some b =>
      rw [settled_of_getLast? _ hlast] at hinv
      simp [hinv]
  · intro pre i s out s' more hs hi hstep
    rw [told_append, settled_append, hs]
    cases i with
    | call msg c =>
      obtain ⟨rfl, rfl⟩ := Prod.mk.inj (Except.ok.inj hstep)
      exact (settled_told_updatePeers_iff hout hin x msg c s).2 fun ⟨hx, hmem, _⟩ => hi x hx hmem
    | store n f hf =>
      obtain ⟨rfl, rfl⟩ := Prod.mk.inj (Except.ok.inj hstep)
      rfl

/-! ## A silent in-neighbour -/

/-- The selection of in-neighbours only. -/
def inConfig : Config := { defaultConfig with topoOut := false }

/-- Node 1 is selected and asks to be added itself; then the main loop calls. -/
def selectedThenCalled : List (Input ℕ ListIDSet) :=
  [.call (some (9, [0x10])) (gossiped [1]),
    .call (some (1, [MSG_TYPE_STREAMER_TOPOLOGY, STREAMER_TOPOLOGY_MSG_ADD])) (gossiped []),
    .call none (gossiped [])]

theorem mem_savedids_iff_selectedThenCalled : ∃ s events,
    Run.run (step inConfig stillReadings) selectedThenCalled
      (State.init (ListPeers.empty : ListPeers ℕ ListIDSet)) = .ok (s, events) ∧
    ∀ x, x ∈ s.savedids ↔ (told x events).getLast? = some true := by
  refine ⟨_, _, rfl, mem_savedids_iff inConfig stillReadings rfl rfl selectedThenCalled
    _ _ _ ?_ rfl⟩
  refine Run.along_cons.2 ⟨nofun, fun s out h => ?_⟩
  obtain ⟨rfl, rfl⟩ := Prod.mk.inj (Except.ok.inj h)
  refine Run.along_cons.2 ⟨?_, fun s out h => ?_⟩
  · show ∀ x ∈ inactiveIds _ _, _
    decide +kernel
  obtain ⟨rfl, rfl⟩ := Prod.mk.inj (Except.ok.inj h)
  refine Run.along_cons.2 ⟨?_, fun s out h => Run.along_nil⟩
  show ∀ x ∈ inactiveIds _ _, _
  decide +kernel

/-- Node 1 has been silent when the main loop calls: it is told that it is removed, and stays. -/
theorem not_mem_savedids_iff : ¬ ∀ s events,
    Run.run (step inConfig slowReadings) selectedThenCalled
      (State.init (ListPeers.empty : ListPeers ℕ ListIDSet)) = .ok (s, events) →
    ∀ x, x ∈ s.savedids ↔ (told x events).getLast? = some true := by
  intro h
  have hone := h _ _ rfl 1
  revert hone
  decide +kernel

end PeerStreamer.Topology
