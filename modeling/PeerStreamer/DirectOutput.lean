import PeerStreamer.ChunkstreamPipe
import PeerStreamer.Playback
import PeerStreamer.PlayoutCount

/-!
# Playing without reordering

Built for chunkstreams, a node does not reorder what it plays: `output_deliver` writes every chunk
as soon as it arrives, and the reorder buffer only does the accounts.  What is written goes over a
connection to a player.

Here the two are put together with the overlay.  Whatever happens to the messages between the nodes
and however the bytes are cut on the way to the player, what the player reads is what some node has
generated, attributes apart, in the order in which it arrived at the node (`read_generated`).
-/

namespace PeerStreamer

variable {cfg : OutputConfig} {s s' : OutputState} {c : Chunk}

/-! ## The accounts write nothing -/

section Output

/-- Nothing was written from the one state to the other. -/
def Unwritten (s s' : OutputState) : Prop := written s'.trace = written s.trace

theorem Unwritten.trans {s'' : OutputState} (h : Unwritten s s') (h' : Unwritten s' s'') :
    Unwritten s s'' := Eq.trans h' h

variable (hr : cfg.reorder = false)

include hr

theorem unwritten_playOut (c : Chunk) (s : OutputState) : Unwritten s (playOut cfg c s) := by
  unfold Unwritten playOut
  simp only [hr, Bool.false_eq_true, if_false]
  split_ifs <;> simp [written, OutputState.log]

theorem unwritten_bufferFree {site : FreeSite} {i : Int}
    (h : bufferFree cfg site i c s = .ok s') : Unwritten s s' := by
  obtain ⟨next, -, h⟩ := bind_eq_ok.1 h
  obtain rfl := Except.ok.inj h
  have hplay := unwritten_playOut hr c (s.log (.bufferFree site c))
  unfold Unwritten at hplay ⊢
  simp only [OutputState.log_trace, written_append, hplay]
  simp [written]

theorem unwritten_evictStep {i : Int} (h : evictStep cfg c i s = .ok s') : Unwritten s s' := by
  unfold evictStep at h
  split at h
  · exact unwritten_bufferFree hr h
  · obtain ⟨next, -, h⟩ := bind_eq_ok.1 h
    obtain rfl := Except.ok.inj h
    simp [Unwritten, written]

theorem unwritten_evictLoop {n : ℕ} {i : Int} (h : evictLoop cfg c n i s = .ok s') :
    Unwritten s s' := by
  induction n generalizing i s with
  | zero =>
    obtain rfl := Except.ok.inj h
    exact rfl
  | succ n ih =>
    obtain ⟨s₁, hs, h⟩ := bind_eq_ok.1 h
    obtain ⟨j, -, h⟩ := bind_eq_ok.1 h
    exact (unwritten_evictStep hr hs).trans (ih h)

theorem unwritten_flushLoop {start : Int} {fuel : ℕ} {i : Int}
    (h : flushLoop cfg start fuel i s = .ok s') : Unwritten s s' := by
  induction fuel generalizing i s with
  | zero => cases h
  | succ fuel ih =>
    rw [flushLoop] at h
    split at h
    · obtain rfl := Except.ok.inj h
      exact rfl
    · obtain ⟨s₁, hs, h⟩ := bind_eq_ok.1 h
      obtain ⟨j, -, h⟩ := bind_eq_ok.1 h
      have hfree := unwritten_bufferFree hr hs
      dsimp only at h
      split_ifs at h
      · obtain rfl := Except.ok.inj h
        exact hfree
      · exact hfree.trans (ih h)

theorem unwritten_makeRoom (h : makeRoom cfg c s = .ok s') : Unwritten s s' := by
  obtain ⟨ahead, -, h⟩ := bind_eq_ok.1 h
  split_ifs at h
  · obtain ⟨last, -, h⟩ := bind_eq_ok.1 h
    obtain ⟨s₁, hevict, h⟩ := bind_eq_ok.1 h
    exact (unwritten_evictLoop hr hevict).trans (unwritten_flushLoop hr h)
  · obtain rfl := Except.ok.inj h
    exact rfl

theorem unwritten_playOrStore (h : playOrStore cfg c s = .ok s') : Unwritten s s' := by
  unfold playOrStore at h
  split_ifs at h
  · obtain ⟨next, -, h⟩ := bind_eq_ok.1 h
    have hplay := unwritten_playOut hr c s
    have hflush := unwritten_flushLoop hr h
    unfold Unwritten at hplay hflush ⊢
    rw [hflush]
    simp only [OutputState.log_trace, written_append, hplay]
    simp [written]
  · split at h
    · split_ifs at h
      obtain rfl := Except.ok.inj h
      simp [Unwritten, written]
    · obtain rfl := Except.ok.inj h
      exact rfl

/-- Every chunk is written when it arrives, and not again. -/
theorem written_outputDeliver (h : outputDeliver cfg c s = .ok s') :
    written s'.trace = written s.trace ++ [c] := by
  have hwrite : written (s.log (.chunkWrite c)).trace = written s.trace ++ [c] := by
    simp [written]
  rcases lt_or_ge c.id s.nextChunk with hlt | hle
  · rw [outputDeliver_of_lt hlt, hr] at h
    obtain rfl := Except.ok.inj h
    exact hwrite
  · rw [outputDeliver_of_le hle] at h
    obtain ⟨s₁, hroom, h⟩ := bind_eq_ok.1 h
    have hentered : written (entered cfg c s).trace = written s.trace ++ [c] := by
      unfold entered
      simp only [hr, Bool.false_eq_true, if_false]
      split_ifs <;> simp [written]
    have hplay := (unwritten_makeRoom hr hroom).trans (unwritten_playOrStore hr h)
    exact Eq.trans hplay hentered

end Output

end PeerStreamer

namespace PeerStreamer.Overlay

open Streaming Network InputChunkstream ChunkstreamPipe

variable {N B P S : Type}

/-- A chunk without its attributes is the generated one without its attributes. -/
theorem Genuine.removeAttributes {generated : Chunk → Prop} {c : Chunk}
    (h : Genuine generated c) :
    ∃ g, generated g ∧ InputChunkstream.removeAttributes g =
      InputChunkstream.removeAttributes c := by
  obtain ⟨g, hg, hid, htime, hdata⟩ := h
  refine ⟨g, hg, ?_⟩
  unfold InputChunkstream.removeAttributes
  rw [hid, htime, hdata]

/-- A node whose chunks are genuine, those in its buffer and those it has written. -/
structure Relaying [ChunkBuffer B] (generated : Chunk → Prop) (p : Player N B P) : Prop where
  buffer : ∀ c ∈ ChunkBuffer.getChunks p.node.cb, Genuine generated c
  written : ∀ c ∈ written p.output.trace, Genuine generated c

section Runs

variable [DecidableEq N] [ChunkIDSet S] [LawfulChunkIDSet S] [ChunkBuffer B] [LawfulChunkBuffer B]
  [PeerSet P N S] {generated : Chunk → Prop}

omit [LawfulChunkIDSet S] in
/-- A chunk that arrives is stored and written. -/
theorem relaying_chunk {ocfg : OutputConfig} (hr : ocfg.reorder = false)
    (hgen : ∀ g, generated g → 0 ≤ g.id) {cfg : Config} {clock : Clock} {b : Choices} {src : N}
    {c : Chunk} {transId : UInt16} {p p' : Player N B P} {outs : List (N × Message N S)}
    (hc : Genuine generated c) (hp : Relaying generated p)
    (h : playHandle (S := S) cfg ocfg clock b src (.chunk c transId) p = .ok (p', outs)) :
    Relaying generated p' ∧ ∀ o ∈ outs, Bears generated o.2 := by
  obtain ⟨hcb, hbears⟩ := genuine_receivedChunk (S := S) hgen clock src b.ackSkipped transId hc
    hp.buffer
  rw [playHandle_chunk] at h
  obtain ⟨output, ho, h⟩ := bind_eq_ok.1 h
  obtain ⟨rfl, rfl⟩ := Prod.mk.inj (Except.ok.inj h)
  refine ⟨⟨hcb, fun d hd => ?_⟩, hbears⟩
  rw [written_outputDeliver hr ho] at hd
  rcases List.mem_append.1 hd with hd | hd
  · exact hp.written d hd
  · obtain rfl := List.mem_singleton.1 hd
    exact hc.updateAttributes _

theorem localOn_relays (cfg : N → Config) (ocfg : N → OutputConfig) (clock : N → Clock)
    (hr : ∀ n, (ocfg n).reorder = false) (hgen : ∀ g, generated g → 0 ≤ g.id) :
    LocalOn (players (B := B) (P := P) (S := S) cfg ocfg clock)
      (fun _ a => ∀ c, a = .addChunk c → generated c)
      (fun _ p => Relaying generated p) fun _ _ m => Bears generated m where
  act n a p p' outs ha hp h := by
    obtain ⟨rfl, rfl⟩ := Prod.mk.inj (Except.ok.inj h)
    obtain ⟨hcb, hout⟩ := genuine_act (S := S) hgen (cfg n) (clock n) n ha hp.buffer
    exact ⟨⟨hcb, hp.written⟩, hout⟩
  handle n b src m p p' outs hp hm h := by
    cases m with
    | chunk c transId =>
      have hchunk : playHandle (S := S) (cfg n) (ocfg n) (clock n) b src (.chunk c transId) p =
        .ok (p', outs) := h
      exact relaying_chunk (hr n) hgen hm hp hchunk
    | signal sig =>
      obtain ⟨s, events, hparse, rfl, rfl⟩ := playHandle_signal_ok h
      obtain ⟨hcb, hout⟩ := genuine_of_trail (trail_sigParseData hparse) hp.buffer
      exact ⟨⟨hcb, hp.written⟩, hout⟩

/-- In every run of an overlay without reordering, the player at the far end of a node's output
reads only chunks that were generated, attributes apart, in the order in which the node has written
them; and when the connection and the send buffer are empty, as many further calls as chunks were
written read the rest. -/
theorem read_generated (cfg : N → Config) (ocfg : N → OutputConfig) (clock : N → Clock)
    (hr : ∀ n, (ocfg n).reorder = false) (moves : List (Network.Move N (Action N P) Choices))
    (hids : ∀ m c, .act m (.addChunk c) ∈ moves → 0 ≤ c.id)
    (states : N → State N B P) (hempty : ∀ n, ChunkBuffer.getChunks (states n).cb = [])
    (w : Net N (Player N B P) (Message N S)) (sent : List (Packet N (Message N S)))
    (h : Run.run (Network.step (players cfg ocfg clock)) moves
      (Net.init fun n => ⟨states n, .init⟩) = .ok (w, sent))
    (n : N) (decodeChunk : List UInt8 → Option Chunk) (encodeChunk : Chunk → List UInt8)
    (mode : OutputChunkstream.Mode) (fd : Int) (hfd : 0 ≤ fd) (calls : List ChunkstreamPipe.Move)
    (hwritten : chunksWritten calls = written (w.states n).output.trace)
    (hready : Run.Along (ChunkstreamPipe.step decodeChunk encodeChunk)
      (ChunkstreamPipe.Ready decodeChunk encodeChunk) calls (.init mode fd)) :
    ∃ p chunks, Run.run (ChunkstreamPipe.step decodeChunk encodeChunk) calls (.init mode fd) =
        .ok (p, chunks) ∧
      (∀ c ∈ chunks, ∃ m g, .act m (.addChunk g) ∈ moves ∧ removeAttributes g = c) ∧
      chunks <+: (written (w.states n).output.trace).map removeAttributes ∧
      (p.wire = [] → p.output.pending = [] →
        ∀ cuts : List InputChunkstream.Cut, (chunksWritten calls).length ≤ cuts.length →
          ∃ p' rest, Run.run (ChunkstreamPipe.step decodeChunk encodeChunk)
              (calls ++ cuts.map .read) (.init mode fd) = .ok (p', chunks ++ rest) ∧
            chunks ++ rest = (written (w.states n).output.trace).map removeAttributes) := by
  set generated : Chunk → Prop := fun g => ∃ m, .act m (.addChunk g) ∈ moves with hdef
  have hallowed : ∀ m ∈ moves, m.Allowed fun _ a => ∀ c, a = .addChunk c → generated c := by
    intro m hm
    cases m with
    | act n a =>
      rintro c rfl
      exact ⟨n, hm⟩
    | deliver | lose => exact trivial
  have hkept := run_localOn
    (localOn_relays cfg ocfg clock hr fun g ⟨m, hm⟩ => hids m g hm) hallowed
    (fun n => ⟨by rw [hempty]; simp, by simp [OutputState.init, written]⟩) h
  obtain ⟨p, chunks, hrun, hconveyed⟩ := exists_conveyed decodeChunk encodeChunk mode hfd hready
  obtain ⟨left, -, hmap⟩ := id hconveyed
  rw [hwritten] at hmap
  refine ⟨p, chunks, hrun, fun c hc => ?_, ⟨_, hmap.symm⟩, fun hwire hpending cuts hcuts => ?_⟩
  · have hmem : c ∈ (written (w.states n).output.trace).map removeAttributes :=
      hmap ▸ List.mem_append_left _ hc
    obtain ⟨d, hd, rfl⟩ := List.mem_map.1 hmem
    obtain ⟨g, ⟨m, hm⟩, hg⟩ := ((hkept.states n).written d hd).removeAttributes
    exact ⟨m, g, hm, hg⟩
  · obtain ⟨p', rest, hrest, hall⟩ := hconveyed.drain hwire hpending hcuts
    exact ⟨p', rest, Run.run_append hrun hrest, hall.trans (by rw [hwritten])⟩

end Runs

/-- Node 0 generates two chunks and pushes them to node 1, which gets the second one first. -/
def pushedTwo : List (Network.Move ℕ (Action ℕ (ListPeers ℕ ListIDSet)) Choices) :=
  [.act 0 (.addChunk ⟨5, 0, [1], []⟩), .act 0 (.addChunk ⟨6, 40000, [2], []⟩),
    .act 0 (.sendChunk (some (1, 5)) true), .act 0 (.sendChunk (some (1, 6)) true),
    .deliver 1 ⟨true, fun _ => true⟩, .deliver 0 ⟨true, fun _ => true⟩]

/-- What node 1 writes; the connection takes five bytes at first, and then the rest. -/
def relayedCalls : List ChunkstreamPipe.Move :=
  [.write ⟨⟨6, 40000, [2], []⟩, -1, .wrote 5⟩, .read (.bytes 3),
    .write ⟨⟨5, 0, [1], []⟩, -1, .wrote 100⟩, .read (.bytes 100)]

theorem ready_relayedCalls : Run.Along (ChunkstreamPipe.step decodeLayout layout)
    (ChunkstreamPipe.Ready decodeLayout layout) relayedCalls (.init .tcp 3) := by
  refine Run.along_cons.2 ⟨⟨encodes_layout (by decide) (by decide) (by decide) (by decide),
    by decide, by decide⟩, fun p₁ out₁ h₁ => ?_⟩
  refine Run.along_cons.2 ⟨trivial, fun p₂ out₂ h₂ => ?_⟩
  have hpos : p₂.output.pos = 20 := by
    cases h₁
    cases h₂
    rfl
  refine Run.along_cons.2 ⟨⟨encodes_layout (by decide) (by decide) (by decide) (by decide), ?_,
    by decide⟩, fun p₃ out₃ _ => ?_⟩
  · rw [hpos]
    decide
  · exact Run.along_cons.2 ⟨trivial, fun _ _ _ => Run.along_nil⟩

/-- The player reads them as they come. -/
theorem read_generated_pushedTwo :
    ∃ p chunks, Run.run (ChunkstreamPipe.step decodeLayout layout) relayedCalls (.init .tcp 3) =
        .ok (p, chunks) ∧
      (∀ c ∈ chunks, ∃ m g, .act m (.addChunk g) ∈ pushedTwo ∧ removeAttributes g = c) ∧
      chunks <+: [⟨6, 40000, [2], []⟩, ⟨5, 0, [1], []⟩] := by
  have hrun : (Run.run (Network.step (players (fun _ => plainConfig) (fun _ => ⟨4, -1, -1, false⟩)
      fun _ => stillClock)) pushedTwo (Net.init fun n => ⟨pair n, .init⟩)).toOption.any (fun r =>
        written (r.1.states 1).output.trace = [⟨6, 40000, [2], []⟩, ⟨5, 0, [1], []⟩]) = true := by
    decide +kernel
  obtain ⟨⟨w, sent⟩, hw, hwritten⟩ := eq_ok_of_any hrun
  have hids : ∀ m c, .act m (.addChunk c) ∈ pushedTwo → 0 ≤ c.id := by
    intro m c hc
    simp only [pushedTwo, List.mem_cons, Move.act.injEq, Action.addChunk.injEq, reduceCtorEq,
      and_false, List.not_mem_nil, or_false] at hc
    rcases hc with ⟨-, rfl⟩ | ⟨-, rfl⟩ <;> decide
  obtain ⟨p, chunks, hread, hgenerated, hprefix, -⟩ := read_generated (fun _ => plainConfig)
    (fun _ => ⟨4, -1, -1, false⟩) (fun _ => stillClock) (fun _ => rfl) pushedTwo hids pair
    (fun _ => rfl) w sent hw 1 decodeLayout layout .tcp 3 (by decide) relayedCalls
    (of_decide_eq_true hwritten).symm ready_relayedCalls
  rw [of_decide_eq_true hwritten] at hprefix
  exact ⟨p, chunks, hread, hgenerated, hprefix⟩

end PeerStreamer.Overlay
