import Mathlib.Data.Fintype.EquivFin
import PeerStreamer.ChunkSignaling
import PeerStreamer.Lib.Threads
import PeerStreamer.Overlay
import PeerStreamer.StreamingProof

/-!
# The threads of the streamer (`loop-mt.c`)

Built with threads, a peer and a source run each of their activities in a thread of its own, and
guard the calls by two mutexes: `topology_mutex` and `cb_mutex`, always taken in this order.  The
sleeps of the threads are left out, so that they take turns in any order.

No thread is ever shut out (`loops_proceed`).  The mutexes do not keep all calls apart, though: a
chunk is stored under `cb_mutex` alone, and topology and signalling messages are handled under
`topology_mutex` alone.  So the chunk buffer, and in a peer the set of the peers, can be used by two
threads at once (`loops_shared_iff`).
-/

namespace PeerStreamer.LoopMt

open Threads

inductive Mutex where
  | topologyMutex
  | cbMutex
  deriving DecidableEq, Repr

instance : Fintype Mutex := ⟨{.topologyMutex, .cbMutex}, fun l => by cases l <;> decide⟩

/-- The order in which the mutexes are taken. -/
def Mutex.rank : Mutex → ℕ
  | .topologyMutex => 0
  | .cbMutex => 1

instance : Preorder Mutex := Preorder.lift Mutex.rank

instance : DecidableLT Mutex := fun l k => inferInstanceAs (Decidable (l.rank < k.rank))

/-- The functions that the threads call. -/
inductive Call where
  | updatePeers
  | sigParseData
  | receivedChunk
  | sendOffer
  | sendChunk
  | addChunk
  | generatedChunk
  deriving DecidableEq, Repr

instance : Fintype Call where
  elems := {.updatePeers, .sigParseData, .receivedChunk, .sendOffer, .sendChunk, .addChunk,
    .generatedChunk}
  complete c := by cases c <;> decide

/-! ## The code -/

/-- `receive`; messages of unknown types and failures to receive change nothing. -/
def receive : Program Mutex Call where
  start := []
  rounds := [[], guarded [.topologyMutex] .updatePeers, guarded [.cbMutex] .receivedChunk,
    guarded [.topologyMutex] .sigParseData]

/-- `source_receive`, which ignores chunks. -/
def sourceReceive : Program Mutex Call where
  start := []
  rounds := [[], guarded [.topologyMutex] .updatePeers, guarded [.topologyMutex] .sigParseData]

def topologySending : Program Mutex Call where
  start := guarded [.topologyMutex] .updatePeers
  rounds := [guarded [.topologyMutex] .updatePeers]

def chunkTrading : Program Mutex Call where
  start := []
  rounds := [guarded [.topologyMutex, .cbMutex] .sendOffer]

def chunkSending : Program Mutex Call where
  start := []
  rounds := [guarded [.topologyMutex, .cbMutex] .sendChunk]

/-- `chunk_forging`: a chunk is added when one was generated. -/
def chunkForging : Program Mutex Call where
  start := []
  rounds := [guarded [] .generatedChunk, guarded [] .generatedChunk ++ guarded [.cbMutex] .addChunk]

inductive PeerThread where
  | receiveThread
  | gossipingThread
  | distributingThread
  deriving DecidableEq, Repr

instance : Fintype PeerThread where
  elems := {.receiveThread, .gossipingThread, .distributingThread}
  complete t := by cases t <;> decide

def loop : PeerThread → Program Mutex Call
  | .receiveThread => receive
  | .gossipingThread => topologySending
  | .distributingThread => chunkTrading

inductive SourceThread where
  | generateThread
  | receiveThread
  | gossipingThread
  | distributingThread
  deriving DecidableEq, Repr

instance : Fintype SourceThread where
  elems := {.generateThread, .receiveThread, .gossipingThread, .distributingThread}
  complete t := by cases t <;> decide

def sourceLoop : SourceThread → Program Mutex Call
  | .generateThread => chunkForging
  | .receiveThread => sourceReceive
  | .gossipingThread => topologySending
  | .distributingThread => chunkSending

/-- The mutexes that are held around each call. -/
def guards : Call → Finset Mutex
  | .updatePeers | .sigParseData => {.topologyMutex}
  | .receivedChunk | .addChunk => {.cbMutex}
  | .sendOffer | .sendChunk => {.topologyMutex, .cbMutex}
  | .generatedChunk => ∅

theorem loop_safe (t : PeerThread) : (loop t).Safe guards := by
  revert t
  decide

theorem sourceLoop_safe (t : SourceThread) : (sourceLoop t).Safe guards := by
  revert t
  decide

/-! ## Progress -/

section Threads

variable {T : Type} [DecidableEq T] {prog : T → Program Mutex Call}

theorem ordered_run (hsafe : ∀ t, (prog t).Safe guards) {moves : List (T × ℕ)}
    {s : State T Mutex Call} {out : List (T × Op Mutex Call)}
    (h : Run.run (step prog) moves (.init prog) = .ok (s, out)) : Ordered prog guards s :=
  (Ordered.init hsafe).run hsafe h

/-- Whatever has happened, each thread can still come to each of its calls. -/
def Proceeds (prog : T → Program Mutex Call) : Prop :=
  ∀ moves s out, Run.run (step prog) moves (.init prog) = .ok (s, out) →
    ∀ t, ∀ c ∈ (prog t).calls, ∃ s', Leads prog s s' ∧ Inside s' t c

theorem proceeds_of_safe (hsafe : ∀ t, (prog t).Safe guards)
    (hround : ∀ t, ∀ c ∈ (prog t).calls, ∃ body ∈ (prog t).rounds, .leave c ∈ body) :
    Proceeds prog := by
  intro moves s out h t c hc
  obtain ⟨body, hbody, hmem⟩ := hround t c hc
  exact exists_inside hsafe (ordered_run hsafe h) t hbody hmem

/-- Neither the threads of a peer nor those of a source can block each other for good. -/
theorem loops_proceed : Proceeds loop ∧ Proceeds sourceLoop :=
  ⟨proceeds_of_safe loop_safe (by decide), proceeds_of_safe sourceLoop_safe (by decide)⟩

/-! ## Calls at the same time -/

/-- Two threads can be in these calls at once. -/
def Overlap (prog : T → Program Mutex Call) (t t' : T) (c c' : Call) : Prop :=
  ∃ moves s out, Run.run (step prog) moves (.init prog) = .ok (s, out) ∧
    Inside s t c ∧ Inside s t' c'

/-- The moves of a thread that go straight to a call. -/
def enterMoves (prog : T → Program Mutex Call) (t : T) (c : Call) : List (T × ℕ) :=
  let p := prog t
  let k := p.rounds.findIdx fun body => body.contains (.leave c)
  let body := p.rounds.getD k []
  List.replicate p.start.length (t, 0) ++
    (t, k) :: List.replicate (body.findIdx fun op => op = .leave c) (t, 0)

/-- One thread goes straight to its call, and then the other one. -/
def meets (prog : T → Program Mutex Call) (t t' : T) (c c' : Call) : Bool :=
  match Run.run (step prog) (enterMoves prog t c ++ enterMoves prog t' c') (.init prog) with
  | .error _ => false
  | .ok (s, _) => (s.todo t).head? = some (.leave c) ∧ (s.todo t').head? = some (.leave c')

theorem overlap_of_meets {t t' : T} {c c' : Call} (h : meets prog t t' c c' = true) :
    Overlap prog t t' c c' := by
  unfold meets at h
  split at h
  · cases h
  · rename_i s out hr
    obtain ⟨hc, hc'⟩ := of_decide_eq_true h
    obtain ⟨ops, htodo⟩ := List.head?_eq_some_iff.1 hc
    obtain ⟨ops', htodo'⟩ := List.head?_eq_some_iff.1 hc'
    exact ⟨_, s, out, hr, ⟨ops, htodo⟩, ops', htodo'⟩

/-- Calls of two threads can overlap when they have no guard in common, and only then. -/
theorem overlap_iff (hsafe : ∀ t, (prog t).Safe guards)
    (hmeets : ∀ t t', t ≠ t' → ∀ c ∈ (prog t).calls, ∀ c' ∈ (prog t').calls,
      Disjoint (guards c) (guards c') → meets prog t t' c c' = true) {t t' : T} (hne : t ≠ t')
    (c c' : Call) : Overlap prog t t' c c' ↔
      c ∈ (prog t).calls ∧ c' ∈ (prog t').calls ∧ Disjoint (guards c) (guards c') := by
  constructor
  · rintro ⟨moves, s, out, h, hc, hc'⟩
    have hord := ordered_run hsafe h
    exact ⟨hord.mem_calls hc, hord.mem_calls hc', exclusive hord hne hc hc'⟩
  · rintro ⟨hc, hc', hdisj⟩
    exact overlap_of_meets (hmeets t t' hne c hc c' hc' hdisj)

end Threads

theorem loop_overlap_iff {t t' : PeerThread} (hne : t ≠ t') (c c' : Call) :
    Overlap loop t t' c c' ↔
      c ∈ (loop t).calls ∧ c' ∈ (loop t').calls ∧ Disjoint (guards c) (guards c') :=
  overlap_iff loop_safe (by decide +kernel) hne c c'

theorem sourceLoop_overlap_iff {t t' : SourceThread} (hne : t ≠ t') (c c' : Call) :
    Overlap sourceLoop t t' c c' ↔
      c ∈ (sourceLoop t).calls ∧ c' ∈ (sourceLoop t').calls ∧ Disjoint (guards c) (guards c') :=
  overlap_iff sourceLoop_safe (by decide +kernel) hne c c'

/-! ## What the calls work on -/

/-- The static variables of a node. -/
inductive Data where
  | cb
  | locks
  | pset
  | transactions
  | rate
  deriving DecidableEq, Repr

instance : Fintype Data where
  elems := {.cb, .locks, .pset, .transactions, .rate}
  complete d := by cases d <;> decide

/-- The data that a call reads or changes; `update_peers` sends a new neighbour the buffer map. -/
def uses : Call → Finset Data
  | .updatePeers => {.pset, .cb}
  | .sigParseData => Finset.univ
  | .receivedChunk => {.cb, .locks, .pset}
  | .sendOffer => {.cb, .pset, .transactions}
  | .sendChunk => {.cb, .pset}
  | .addChunk => {.cb}
  | .generatedChunk => ∅

section Footprint

open Streaming

variable {N B P S : Type} [DecidableEq N] [ChunkIDSet S] [ChunkBuffer B] [PeerSet P N S]
  {cfg : Config} {clock : Clock}

def callOf : Input N P S → Call
  | .chunk .. => .receivedChunk
  | .signal .. => .sigParseData
  | .sendChunk .. => .sendChunk
  | .sendOffer .. => .sendOffer
  | .addChunk _ => .addChunk
  | .updatePeers _ => .updatePeers

/-- These data of one state, and the other ones of another. -/
def merge (u : Finset Data) (s rest : Streaming.State N B P) : Streaming.State N B P where
  cb := if .cb ∈ u then s.cb else rest.cb
  locks := if .locks ∈ u then s.locks else rest.locks
  pset := if .pset ∈ u then s.pset else rest.pset
  transactions := if .transactions ∈ u then s.transactions else rest.transactions
  rate := if .rate ∈ u then s.rate else rest.rate
  reads := s.reads

omit [DecidableEq N] [ChunkIDSet S] [ChunkBuffer B] [PeerSet P N S] in
theorem merge_univ (s rest : Streaming.State N B P) : merge Finset.univ s rest = s := by
  simp [merge]

omit [DecidableEq N] [PeerSet P N S] in
theorem offerLoop_merge (ps : List (OfferPeer N)) (s rest : Streaming.State N B P) :
    offerLoop (S := S) cfg clock ps (merge (uses .sendOffer) s rest) =
      (merge (uses .sendOffer) (offerLoop (S := S) cfg clock ps s).1 rest,
        (offerLoop (S := S) cfg clock ps s).2) := by
  induction ps generalizing s with
  | nil => rfl
  | cons p ps ih =>
    have hone : offerOne (S := S) cfg clock p (merge (uses .sendOffer) s rest) =
        (merge (uses .sendOffer) (offerOne (S := S) cfg clock p s).1 rest,
          (offerOne (S := S) cfg clock p s).2) := rfl
    simp only [offerLoop, hone, ih]

omit [DecidableEq N] [PeerSet P N S] in
/-- The buffer map that `update_peers` sends depends on the data of that call alone. -/
theorem sendBmap_merge (self toid : N) (s rest : Streaming.State N B P) :
    Overlay.sendBmap cfg self toid (merge (uses .updatePeers) s rest) =
      (Overlay.sendBmap cfg self toid s : N × Overlay.Message N S) :=
  rfl

/-- A call neither looks at other data than its own nor changes them.  What `update_peers` sends is
in `sendBmap_merge`. -/
theorem step_merge (input : Input N P S) (s rest : Streaming.State N B P) :
    Streaming.step cfg clock input (merge (uses (callOf input)) s rest) =
      (Streaming.step cfg clock input s).map fun r =>
        (merge (uses (callOf input)) r.1 rest, r.2) := by
  cases input with
  | chunk fromid msg ackSkipped =>
    rcases msg with _ | ⟨c, transId⟩
    · rfl
    have hpset : (merge (uses .receivedChunk) s rest).pset = s.pset := rfl
    simp only [Streaming.step, Except.map, receivedChunk, regSender, callOf, hpset]
    cases PeerSet.getPeer s.pset fromid <;> rfl
  | signal fromid msg sent =>
    have hall : ∀ t, merge (uses .sigParseData) t rest = t := fun t => merge_univ t rest
    simp only [callOf, hall]
    exact (congrFun Except.map_id _).symm
  | sendChunk pair sent =>
    have hpset : (merge (uses .sendChunk) s rest).pset = s.pset := rfl
    have hcb : (merge (uses .sendChunk) s rest).cb = s.cb := rfl
    simp only [Streaming.step, Except.map, Streaming.sendChunk, callOf, hpset, hcb]
    split_ifs
    · rfl
    · rcases pair with _ | ⟨toid, cid⟩
      · rfl
      · dsimp only
        cases ChunkBuffer.getChunk s.cb cid with
        | none => rfl
        | some c => cases sent <;> rfl
  | sendOffer skipped selected =>
    have hpset : (merge (uses .sendOffer) s rest).pset = s.pset := rfl
    have hcb : (merge (uses .sendOffer) s rest).cb = s.cb := rfl
    simp only [Streaming.step, Except.map, Streaming.sendOffer, callOf, hpset, hcb]
    split_ifs
    · rfl
    · rw [offerLoop_merge]
  | addChunk c => rfl
  | updatePeers pset => rfl

end Footprint

/-- Two threads can use these data at once. -/
def Shared {T : Type} [DecidableEq T] (prog : T → Program Mutex Call) (d : Data) : Prop :=
  ∃ t t' c c', t ≠ t' ∧ Overlap prog t t' c c' ∧ d ∈ uses c ∧ d ∈ uses c'

theorem shared_iff {T : Type} [DecidableEq T] {prog : T → Program Mutex Call}
    (hoverlap : ∀ {t t' : T}, t ≠ t' → ∀ c c', Overlap prog t t' c c' ↔
      c ∈ (prog t).calls ∧ c' ∈ (prog t').calls ∧ Disjoint (guards c) (guards c')) (d : Data) :
    Shared prog d ↔ ∃ t t' c c', t ≠ t' ∧ (c ∈ (prog t).calls ∧ c' ∈ (prog t').calls ∧
      Disjoint (guards c) (guards c')) ∧ d ∈ uses c ∧ d ∈ uses c' :=
  exists₄_congr fun _ _ c c' => and_congr_right fun hne => and_congr_left' (hoverlap hne c c')

/-- Two threads can use the chunk buffer at once, and in a peer also the set of the peers; but
neither the locks nor the transactions nor the rate, in a peer or in a source. -/
theorem loops_shared_iff (d : Data) :
    (Shared loop d ↔ d = .cb ∨ d = .pset) ∧ (Shared sourceLoop d ↔ d = .cb) := by
  rw [shared_iff loop_overlap_iff, shared_iff sourceLoop_overlap_iff]
  constructor
  · cases d <;> decide +kernel
  · cases d <;> decide +kernel

end PeerStreamer.LoopMt
