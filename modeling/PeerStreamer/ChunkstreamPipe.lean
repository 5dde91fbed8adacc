import PeerStreamer.InputChunkstream
import PeerStreamer.Lib.Run
import PeerStreamer.OutputChunkstream

/-!
# From one chunkstream to the other

The chunkstream that one program writes is read by another one, over a connection that delivers
bytes in order.  The two take turns in any order: the connection takes any part of the send buffer,
and any part of what it holds is received.

The bytes in the receive buffer, on the connection and in the send buffer are always the frames of
the chunks that are still to be read (`Carried`), so that the reader gets the chunks that were
written one by one and in order (`read_written`).
-/

namespace PeerStreamer.ChunkstreamPipe

open Bytes ChunkstreamBuffer OutputChunkstream InputChunkstream

/-- The output of one program, the bytes on the connection and the input of the other program. -/
structure Pipe where
  output : OutputChunkstream.State
  wire : List UInt8
  input : InputChunkstream.State

inductive Move where
  | write (call : Call)
  | read (cut : Cut)

def Pipe.init (mode : Mode) (fd : Int) : Pipe := ⟨.init mode fd, [], .init⟩

/-- An `encodeChunk` that fails when there is not enough space. -/
def within (encodeChunk : Chunk → List UInt8) (c : Chunk) (space : Int) : Option (List UInt8) :=
  if (encodeChunk c).length ≤ space then some (encodeChunk c) else none

variable (decodeChunk : List UInt8 → Option Chunk) (encodeChunk : Chunk → List UInt8)

/-- One call of `chunk_write` or of `input_get`, with the chunk that is read. -/
def step (m : Move) (p : Pipe) : Except Fault (Pipe × List Chunk) :=
  match m with
  | .write call => do
    let output ← chunkWrite (within encodeChunk) call p.output
    return ({ p with
      output := output
      wire := p.wire ++ output.sent.drop p.output.sent.length }, [])
  | .read cut => do
    let (r, wire) := answer cut p.input p.wire
    let (reply, input) ← inputGet decodeChunk r p.input
    return ({ p with wire := wire, input := input }, reply.delivered.toList)

/-- The chunks that are written, in order. -/
def chunksWritten (moves : List Move) : List Chunk :=
  moves.filterMap fun
    | .write call => some call.chunk
    | .read _ => none

/-- A chunk is written when its frame fits in the send buffer, and the connection stays. -/
def Ready (p : Pipe) : Move → Prop
  | .write call => Encodes decodeChunk encodeChunk call.chunk ∧
      p.output.pos + 4 + (encodeChunk call.chunk).length ≤ BUFSIZE ∧ call.result ≠ .failed
  | .read _ => True

/-! ## One move -/

/-- The chunks `left` are still to be read. -/
structure Carried (left : List Chunk) (p : Pipe) : Prop where
  opened : Open p.output
  inBounds : InBounds p.input
  encodes : ∀ c ∈ left, Encodes decodeChunk encodeChunk c
  frames : p.input.pending ++ (p.wire ++ p.output.pending) = stream encodeChunk left

variable {decodeChunk encodeChunk} {left : List Chunk} {p : Pipe}

/-- What the descriptor has taken is not given back. -/
theorem sent_chunkWrite {encode : Chunk → Int → Option (List UInt8)} {call : Call}
    {s s' : OutputChunkstream.State} (h : chunkWrite encode call s = .ok s') :
    ∃ taken, s'.sent = s.sent ++ taken := by
  obtain ⟨s₁, happ, h⟩ := bind_eq_ok.1 h
  have hsent : s₁.sent = s.sent := by
    obtain ⟨⟨buf, ret⟩, -, happ⟩ := bind_eq_ok.1 happ
    dsimp only at happ
    split_ifs at happ
    · rw [← Except.ok.inj happ]
    · obtain ⟨buf', -, happ⟩ := bind_eq_ok.1 happ
      rw [← Except.ok.inj happ]
  have hflush : ∀ t : OutputChunkstream.State, t.sent = s.sent →
      ∃ taken, (flushOut call.result t).sent = s.sent ++ taken := by
    intro t ht
    cases call.result with
    | wrote n => exact ⟨_, congrArg (· ++ _) ht⟩
    | stalled => exact ⟨[], by rw [List.append_nil]; exact ht⟩
    | failed => exact ⟨[], by rw [List.append_nil]; exact ht⟩
  dsimp only at h
  split_ifs at h
  · exact ⟨[], by rw [← Except.ok.inj h, List.append_nil]; exact hsent⟩
  · rw [← Except.ok.inj h]
    exact hflush _ hsent
  · exact ⟨[], by rw [← Except.ok.inj h, List.append_nil]; exact hsent⟩
  · rw [← Except.ok.inj h]
    exact hflush _ hsent

theorem Carried.write (h : Carried decodeChunk encodeChunk left p) {call : Call}
    (hready : Ready decodeChunk encodeChunk p (.write call)) :
    ∃ p', step decodeChunk encodeChunk (.write call) p = .ok (p', []) ∧
      Carried decodeChunk encodeChunk (left ++ [call.chunk]) p' := by
  obtain ⟨henc, hroom, hresult⟩ := hready
  have hsome : within encodeChunk call.chunk (BUFSIZE - p.output.pos) =
      some (encodeChunk call.chunk) := if_pos (by omega)
  have hfits : Fits (within encodeChunk) call.chunk p.output :=
    ⟨_, hsome, List.length_pos_iff.1 henc.nonempty, hroom⟩
  obtain ⟨s', hs', hopen, hstream⟩ := chunkWrite_fits h.opened hfits hresult
  obtain ⟨taken, htaken⟩ := sent_chunkWrite hs'
  have hnew : taken ++ s'.pending = p.output.pending ++ frame (encodeChunk call.chunk) := by
    rw [htaken, frameOf, hsome, List.append_assoc, List.append_assoc] at hstream
    exact List.append_cancel_left hstream
  refine ⟨⟨s', p.wire ++ s'.sent.drop p.output.sent.length, p.input⟩, ?_, hopen, h.inBounds, ?_, ?_⟩
  · simp only [step, hs']
    rfl
  · intro c hc
    rcases List.mem_append.1 hc with hc | hc
    · exact h.encodes c hc
    · exact List.mem_singleton.1 hc ▸ henc
  · show p.input.pending ++ ((p.wire ++ s'.sent.drop p.output.sent.length) ++ s'.pending) = _
    rw [htaken, List.drop_left, List.append_assoc, hnew, stream, List.flatMap_append,
      List.flatMap_singleton, ← stream, ← h.frames]
    simp only [List.append_assoc]

/-- What is received of the front of the bytes to come can be received of all of them. -/
theorem exists_answer (cut : Cut) (s : InputChunkstream.State) (wire more : List UInt8) :
    ∃ cut', answer cut' s (wire ++ more) =
      ((answer cut s wire).1, (answer cut s wire).2 ++ more) := by
  cases cut with
  | wouldBlock => exact ⟨.wouldBlock, rfl⟩
  | bytes n =>
    refine ⟨.bytes (min n wire.length), ?_⟩
    have hk : min (min n wire.length) (BUFSIZE - s.pos).toNat =
        min (min n (BUFSIZE - s.pos).toNat) wire.length := by omega
    simp only [answer]
    rw [hk, List.take_append_of_le_length (Nat.min_le_right ..),
      List.drop_append_of_le_length (Nat.min_le_right ..), ← List.take_eq_take_min,
      ← List.drop_eq_drop_min]

/-- A call of `input_get` reads the next chunk or none; when nothing is on its way, it reads a chunk
as long as one is left. -/
theorem Carried.read (h : Carried decodeChunk encodeChunk left p) (cut : Cut) :
    ∃ p' chunks left', step decodeChunk encodeChunk (.read cut) p = .ok (p', chunks) ∧
      Carried decodeChunk encodeChunk left' p' ∧
      left.map removeAttributes = chunks ++ left'.map removeAttributes ∧ left' <:+ left ∧
      p'.output = p.output ∧
      (p.wire = [] → p.output.pending = [] → p'.wire = [] ∧ left'.length ≤ left.length - 1) := by
  obtain ⟨cut', hanswer⟩ := exists_answer cut p.input p.wire p.output.pending
  have hleft : Left encodeChunk left p.input (p.wire ++ p.output.pending) := ⟨h.inBounds, h.frames⟩
  obtain ⟨reply, s', left', hcall, hleft', hmap, hsuffix, hone⟩ :=
    inputGet_left h.encodes hleft cut'
  rw [hanswer] at hcall hleft' hone
  refine ⟨⟨p.output, (answer cut p.input p.wire).2, s'⟩, reply.delivered.toList, left', ?_,
    ⟨h.opened, hleft'.inBounds, fun c hc => h.encodes c (hsuffix.subset hc), hleft'.frames⟩, hmap,
    hsuffix, rfl, ?_⟩
  · simp only [step, hcall]
    rfl
  · intro hwire hpending
    have hparts := answer_bytes cut p.input p.wire
    rw [hwire, List.append_eq_nil_iff] at hparts
    rw [hwire, hpending, List.append_nil] at hleft
    rw [hwire, hparts.1, List.append_nil] at hone
    exact ⟨hwire ▸ hparts.2, hone.drains h.encodes hleft hmap⟩

/-! ## Runs -/

/-- What was read and what is left make up what was written. -/
def Conveyed (decodeChunk : List UInt8 → Option Chunk) (encodeChunk : Chunk → List UInt8)
    (written : List Chunk) (p : Pipe) (chunks : List Chunk) : Prop :=
  ∃ left, Carried decodeChunk encodeChunk left p ∧
    written.map removeAttributes = chunks ++ left.map removeAttributes

theorem Conveyed.init (decodeChunk : List UInt8 → Option Chunk) (encodeChunk : Chunk → List UInt8)
    (mode : Mode) {fd : Int} (hfd : 0 ≤ fd) :
    Conveyed decodeChunk encodeChunk [] (.init mode fd) [] := by
  have hle : (0 : Int) ≤ BUFSIZE := by decide
  exact ⟨[], ⟨⟨hfd, le_refl (0 : Int), hle⟩, ⟨le_refl (0 : Int), hle⟩, by simp, rfl⟩, rfl⟩

theorem Conveyed.step {written chunks : List Chunk} {m : Move}
    (h : Conveyed decodeChunk encodeChunk written p chunks)
    (hready : Ready decodeChunk encodeChunk p m) :
    ∃ p' more, ChunkstreamPipe.step decodeChunk encodeChunk m p = .ok (p', more) ∧
      Conveyed decodeChunk encodeChunk (written ++ chunksWritten [m]) p' (chunks ++ more) := by
  obtain ⟨left, hcarried, hmap⟩ := h
  cases m with
  | write call =>
    obtain ⟨p', hp', hcarried'⟩ := hcarried.write hready
    refine ⟨p', [], hp', _, hcarried', ?_⟩
    rw [List.append_nil, List.map_append, hmap, List.map_append, List.append_assoc]
    rfl
  | read cut =>
    obtain ⟨p', more, left', hp', hcarried', hmap', -⟩ := hcarried.read cut
    refine ⟨p', more, hp', left', hcarried', ?_⟩
    show (written ++ []).map removeAttributes = _
    rw [List.append_nil, hmap, hmap', List.append_assoc]

/-- A run in which every frame fits does not fail. -/
theorem exists_conveyed (decodeChunk : List UInt8 → Option Chunk)
    (encodeChunk : Chunk → List UInt8) (mode : Mode) {fd : Int} (hfd : 0 ≤ fd) {moves : List Move}
    (hready : Run.Along (ChunkstreamPipe.step decodeChunk encodeChunk)
      (Ready decodeChunk encodeChunk) moves (.init mode fd)) :
    ∃ p chunks, Run.run (ChunkstreamPipe.step decodeChunk encodeChunk) moves (.init mode fd) =
        .ok (p, chunks) ∧
      Conveyed decodeChunk encodeChunk (chunksWritten moves) p chunks := by
  refine Run.exists_run
    (fun pre p chunks => Conveyed decodeChunk encodeChunk (chunksWritten pre) p chunks)
    (.init decodeChunk encodeChunk mode hfd) ?_ hready
  intro pre m p chunks h hm
  obtain ⟨p', more, hp', h'⟩ := h.step hm
  refine ⟨p', more, hp', ?_⟩
  rwa [chunksWritten, List.filterMap_append]

/-- When nothing is on its way any more, as many calls as chunks are left read them all. -/
theorem Carried.drain (h : Carried decodeChunk encodeChunk left p) (hwire : p.wire = [])
    (hpending : p.output.pending = []) {cuts : List Cut} (hcuts : left.length ≤ cuts.length) :
    ∃ p', Run.run (ChunkstreamPipe.step decodeChunk encodeChunk) (cuts.map .read) p =
      .ok (p', left.map removeAttributes) := by
  induction cuts generalizing left p with
  | nil =>
    obtain rfl := List.length_eq_zero_iff.1 (Nat.le_zero.1 hcuts)
    exact ⟨p, rfl⟩
  | cons cut cuts ih =>
    obtain ⟨p₁, chunks, left₁, hp₁, h₁, hmap, -, hout, hdrain⟩ := h.read cut
    obtain ⟨hwire₁, hlen⟩ := hdrain hwire hpending
    rw [List.length_cons] at hcuts
    obtain ⟨p', hrun⟩ := ih h₁ hwire₁ (hout ▸ hpending) (by omega)
    exact ⟨p', hmap ▸ Run.run_cons hp₁ hrun⟩

theorem Conveyed.drain {written chunks : List Chunk}
    (h : Conveyed decodeChunk encodeChunk written p chunks) (hwire : p.wire = [])
    (hpending : p.output.pending = []) {cuts : List Cut} (hcuts : written.length ≤ cuts.length) :
    ∃ p' rest, Run.run (ChunkstreamPipe.step decodeChunk encodeChunk) (cuts.map .read) p =
        .ok (p', rest) ∧ chunks ++ rest = written.map removeAttributes := by
  obtain ⟨left, hcarried, hmap⟩ := h
  have hlen : left.length ≤ cuts.length := by
    have hlength := congrArg List.length hmap
    simp only [List.length_append, List.length_map] at hlength
    omega
  obtain ⟨p', hrest⟩ := hcarried.drain hwire hpending hlen
  exact ⟨p', left.map removeAttributes, hrest, hmap.symm⟩

/-- The reader gets the chunks that were written, in order and without their attributes: what it has
read is always a prefix of what was written; and when the connection and the send buffer are empty,
as many further calls as chunks were written read the rest. -/
theorem read_written (decodeChunk : List UInt8 → Option Chunk) (encodeChunk : Chunk → List UInt8)
    (mode : Mode) (fd : Int) (hfd : 0 ≤ fd) (moves : List Move)
    (hready : Run.Along (step decodeChunk encodeChunk) (Ready decodeChunk encodeChunk) moves
      (.init mode fd)) :
    ∃ p chunks, Run.run (step decodeChunk encodeChunk) moves (.init mode fd) = .ok (p, chunks) ∧
      chunks <+: (chunksWritten moves).map removeAttributes ∧
      (p.wire = [] → p.output.pending = [] →
        ∀ cuts : List Cut, (chunksWritten moves).length ≤ cuts.length →
          ∃ p' rest, Run.run (step decodeChunk encodeChunk) (moves ++ cuts.map .read)
              (.init mode fd) = .ok (p', chunks ++ rest) ∧
            chunks ++ rest = (chunksWritten moves).map removeAttributes) := by
  obtain ⟨p, chunks, hrun, hconveyed⟩ := exists_conveyed decodeChunk encodeChunk mode hfd hready
  obtain ⟨left, -, hmap⟩ := id hconveyed
  refine ⟨p, chunks, hrun, ⟨_, hmap.symm⟩, ?_⟩
  intro hwire hpending cuts hcuts
  obtain ⟨p', rest, hrest, hall⟩ := hconveyed.drain hwire hpending hcuts
  exact ⟨p', rest, Run.run_append hrun hrest, hall⟩

/-- Two chunks: the connection takes five bytes at first, of which three are read, and then the
rest. -/
theorem read_written_two :
    ∃ p chunks, Run.run (step decodeLayout layout) [.write ⟨⟨1, 0, [7], [8, 9]⟩, -1, .wrote 5⟩,
        .read (.bytes 3), .write ⟨⟨2, 0, [7, 7], []⟩, -1, .wrote 100⟩] (.init .tcp 3) =
          .ok (p, chunks) ∧
      chunks <+: [⟨1, 0, [7], []⟩, ⟨2, 0, [7, 7], []⟩] ∧
      (p.wire = [] → p.output.pending = [] →
        ∀ cuts : List Cut, 2 ≤ cuts.length →
          ∃ p' rest, Run.run (step decodeLayout layout)
              ([.write ⟨⟨1, 0, [7], [8, 9]⟩, -1, .wrote 5⟩, .read (.bytes 3),
                .write ⟨⟨2, 0, [7, 7], []⟩, -1, .wrote 100⟩] ++ cuts.map .read) (.init .tcp 3) =
                .ok (p', chunks ++ rest) ∧
            chunks ++ rest = [⟨1, 0, [7], []⟩, ⟨2, 0, [7, 7], []⟩]) := by
  refine read_written decodeLayout layout .tcp 3 (by decide) _ ?_
  rw [Run.along_cons]
  refine ⟨⟨encodes_layout (by decide) (by decide) (by decide) (by decide), by decide, by decide⟩,
    ?_⟩
  intro p₁ out₁ h₁
  rw [Run.along_cons]
  refine ⟨trivial, ?_⟩
  intro p₂ out₂ h₂
  rw [Run.along_cons]
  have hpos : p₂.output.pos = 22 := by
    cases h₁
    cases h₂
    rfl
  refine ⟨⟨encodes_layout (by decide) (by decide) (by decide) (by decide), ?_, by decide⟩, ?_⟩
  · rw [hpos]
    decide
  · intro p₃ out₃ _
    exact Run.along_nil

end PeerStreamer.ChunkstreamPipe
