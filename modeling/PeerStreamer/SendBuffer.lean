import PeerStreamer.OutputChunkstream

/-!
# The bounds of the send buffer

`chunk_write` tells `encodeChunk` that it may use `BUFSIZE - pos` bytes, but the encoding starts four
bytes later, behind its length.  A chunk whose encoding leaves less than four bytes of this space
free is written beyond the end, and so is the length that is stored after a failure when `pos` is
that close to the end (`chunkWrite_overrun`).  Every other call stays within the buffer.
-/

namespace PeerStreamer.OutputChunkstream

open Bytes ChunkstreamBuffer

variable {encodeChunk : Chunk → Int → Option (List UInt8)} {s s' : State} {call : Call}

/-- The bytes in use are bytes of the buffer. -/
structure Bounded (s : State) : Prop where
  nonneg : 0 ≤ s.pos
  le_bufsize : s.pos ≤ BUFSIZE

/-- The length field fits, and so does the encoding behind it. -/
def HasRoom (encodeChunk : Chunk → Int → Option (List UInt8)) (c : Chunk) (s : State) : Prop :=
  match encodeChunk c (BUFSIZE - s.pos) with
  | some bs => s.pos + 4 + bs.length ≤ BUFSIZE
  | none => s.pos + 4 ≤ BUFSIZE

/-! ## One call -/

theorem appendChunk_bounded {c : Chunk} (hb : Bounded s) (hroom : HasRoom encodeChunk c s) :
    ∃ s', appendChunk encodeChunk c s = .ok s' ∧ Bounded s' := by
  have h0 := hb.nonneg
  have hle := hb.le_bufsize
  cases henc : encodeChunk c (BUFSIZE - s.pos) with
  | none =>
    rw [HasRoom, henc] at hroom
    obtain ⟨s', hs', -, -, hpos, -⟩ := append_failure h0 henc hroom
    exact ⟨s', hs', by omega, by omega⟩
  | some bs =>
    rw [HasRoom, henc] at hroom
    by_cases hne : bs = []
    · subst hne
      obtain ⟨s', hs', -, hpos, -⟩ := append_empty h0 henc (by simpa using hroom)
      exact ⟨s', hs', by omega, by omega⟩
    · obtain ⟨s', hs', -, -, hpos, -⟩ := append_fits h0 henc hne hroom
      exact ⟨s', hs', by omega, by omega⟩

theorem flushOut_bounded (r : WriteResult) (hb : Bounded s) : Bounded (flushOut r s) := by
  have h0 := hb.nonneg
  have hle := hb.le_bufsize
  cases r with
  | failed => exact ⟨le_rfl, by show (0 : Int) ≤ _; decide⟩
  | stalled => exact hb
  | wrote n =>
    obtain ⟨-, -, hnonneg, hpos⟩ := flushOut_stream h0 (r := .wrote n) (by simp)
    exact ⟨hnonneg, hpos.trans hle⟩

/-- A call with room for its chunk stays within the buffer, whatever becomes of the descriptor. -/
theorem chunkWrite_bounded (hb : Bounded s) (hroom : HasRoom encodeChunk call.chunk s) :
    ∃ s', chunkWrite encodeChunk call s = .ok s' ∧ Bounded s' := by
  obtain ⟨s₁, hs₁, hb₁⟩ := appendChunk_bounded hb hroom
  have hconnect : Bounded { s₁ with fd := call.connect } := ⟨hb₁.nonneg, hb₁.le_bufsize⟩
  unfold chunkWrite
  simp only [hs₁, bind, Except.bind]
  split_ifs
  · exact ⟨_, rfl, hconnect⟩
  · exact ⟨_, rfl, flushOut_bounded call.result hconnect⟩
  · exact ⟨_, rfl, hb₁⟩
  · exact ⟨_, rfl, flushOut_bounded call.result hb₁⟩

/-- A call without room for its chunk writes beyond the end. -/
theorem chunkWrite_overrun (hroom : ¬ HasRoom encodeChunk call.chunk s) :
    chunkWrite encodeChunk call s = .error .outOfBounds := by
  apply chunkWrite_error
  cases henc : encodeChunk call.chunk (BUFSIZE - s.pos) with
  | none =>
    rw [HasRoom, henc] at hroom
    exact append_failure_overrun henc (not_le.1 hroom)
  | some bs =>
    rw [HasRoom, henc] at hroom
    exact append_overrun henc (not_le.1 hroom)

/-! ## Runs -/

/-- Every call of the run writes within the buffer, and leaves it bounded. -/
def WithinBuffer (encodeChunk : Chunk → Int → Option (List UInt8)) (calls : List Call)
    (s₀ : State) : Prop :=
  ∀ pre, pre <+: calls → ∃ s, run encodeChunk pre s₀ = .ok s ∧ Bounded s

/-- A run stays within the send buffer if and only if every call has room for its chunk. -/
theorem withinBuffer_iff (encodeChunk : Chunk → Int → Option (List UInt8)) (mode : Mode) (fd : Int)
    (calls : List Call) :
    WithinBuffer encodeChunk calls (.init mode fd) ↔
      ∀ pre call, pre ++ [call] <+: calls → ∀ s, run encodeChunk pre (.init mode fd) = .ok s →
        HasRoom encodeChunk call.chunk s := by
  have hinit : Bounded (.init mode fd) := ⟨le_refl (0 : Int), by show (0 : Int) ≤ _; decide⟩
  constructor
  · intro h pre call hp s hs
    obtain ⟨s', hs', -⟩ := h _ hp
    by_contra hnot
    rw [run_concat, hs] at hs'
    exact absurd ((chunkWrite_overrun hnot).symm.trans hs') nofun
  · intro h pre
    induction pre using List.reverseRecOn with
    | nil => exact fun _ => ⟨_, rfl, hinit⟩
    | append_singleton pre call ih =>
      intro hp
      obtain ⟨s, hs, hb⟩ := ih ((List.prefix_append pre [call]).trans hp)
      obtain ⟨s', hs', hb'⟩ := chunkWrite_bounded hb (h pre call hp s hs)
      refine ⟨s', ?_, hb'⟩
      rw [run_concat, hs]
      exact hs'

/-- A chunk that fills the space it is given. -/
def fillingChunk : Chunk := ⟨1, 0, List.replicate 524268 0, []⟩

theorem length_layout_fillingChunk : (layout fillingChunk).length = 524288 := by
  have hdata : fillingChunk.data.length = 524268 := List.length_replicate
  have hattr : fillingChunk.attributes.length = 0 := rfl
  rw [length_layout, hdata, hattr]

theorem not_withinBuffer_filling :
    ¬ WithinBuffer encodeLayout [⟨fillingChunk, -1, .stalled⟩] (.init .tcp 3) := by
  intro h
  have hlen := length_layout_fillingChunk
  have hpos : (State.init .tcp 3).pos = 0 := rfl
  have henc : encodeLayout fillingChunk (BUFSIZE - (State.init .tcp 3).pos) =
      some (layout fillingChunk) := if_pos (by rw [hlen, hpos]; decide)
  have hroom : ¬ HasRoom encodeLayout fillingChunk (.init .tcp 3) := by
    rw [HasRoom, henc]
    simp only [hlen, hpos]
    decide
  have hover : chunkWrite encodeLayout ⟨fillingChunk, -1, .stalled⟩ (.init .tcp 3) =
      .error .outOfBounds := chunkWrite_overrun hroom
  obtain ⟨s, hs, -⟩ := h _ (List.prefix_refl _)
  rw [run, List.foldlM_cons] at hs
  obtain ⟨s₁, hs₁, -⟩ := bind_eq_ok.1 hs
  rw [hover] at hs₁
  cases hs₁

end PeerStreamer.OutputChunkstream
