import Mathlib.Tactic
import PeerStreamer.ChunkCodec
import PeerStreamer.ChunkstreamBuffer

/-!
# The chunkstream output (`output-chunkstream.c`)

`chunkWrite` appends the frame of a chunk (its length as a 32-bit big-endian number, then what
`encodeChunk` wrote) to the send buffer and hands the buffer to the descriptor, which may take any
part of it.  `encodeChunk` is GRAPES code and a parameter: it gets the chunk and the space it may
use and either writes some bytes or fails.

The code keeps the result of `encodeChunk` in a `uint32_t` before it looks for a failure.  The
failure value `-1` becomes `2 ^ 32 - 1` there, passes for a length, and three bytes of the length
field it leaves behind enter the stream (`append_failure`).
-/

namespace PeerStreamer.OutputChunkstream

open Bytes ChunkstreamBuffer

inductive Mode where
  | file
  | tcp
  deriving DecidableEq, Repr

/-- The static variables of the module, and the bytes the descriptor has taken so far. -/
structure State where
  sendbuf : Memory
  pos : Int
  fd : Int
  mode : Mode
  sent : List UInt8

/-- The outcome of `send` or `write`: some bytes taken (at most the ones offered), `EAGAIN` or
`EWOULDBLOCK`, or another error. -/
inductive WriteResult where
  | wrote (n : ℕ)
  | stalled
  | failed
  deriving DecidableEq, Repr

/-- A call of `chunk_write` with what its surroundings answer: the descriptor `output_connect`
would open, and the outcome of the write. -/
structure Call where
  chunk : Chunk
  connect : Int
  result : WriteResult

def State.init (mode : Mode) (fd : Int) : State where
  sendbuf := fun _ => 0
  pos := 0
  fd := fd
  mode := mode
  sent := []

/-- The bytes that wait in the send buffer. -/
def State.pending (s : State) : List UInt8 := read s.sendbuf 0 s.pos.toNat

/-! ## The code -/

variable (encodeChunk : Chunk → Int → Option (List UInt8))

/-- The call of `encodeChunk` behind the place of the length: the buffer and the returned value. -/
def encodeAt (c : Chunk) (s : State) : Except Fault (Memory × Int) :=
  match encodeChunk c (BUFSIZE - s.pos) with
  | some bs => do
    let buf ← store s.sendbuf (s.pos + 4) bs
    return (buf, bs.length)
  | none => .ok (s.sendbuf, -1)

/-- The first part of `chunk_write`: encode the chunk and put its length before it. -/
def appendChunk (c : Chunk) (s : State) : Except Fault State := do
  let (buf, ret) ← encodeAt encodeChunk c s
  let size := uint32 ret
  if size = 0 then return { s with sendbuf := buf }
  let buf ← store buf s.pos (be 4 size)
  return { s with sendbuf := buf, pos := toInt (sizeT (sizeT s.pos + (4 + size))) }

/-- The last part of `chunk_write`: offer the buffer to the descriptor. -/
def flushOut (r : WriteResult) (s : State) : State :=
  match r with
  | .wrote n =>
    let ret := min n s.pos.toNat
    let pos := s.pos - ret
    { s with
      sent := s.sent ++ read s.sendbuf 0 ret
      pos := pos
      sendbuf := shift s.sendbuf ret pos.toNat }
  | .stalled => s
  | .failed => { s with pos := 0, fd := -1 }

def chunkWrite (call : Call) (s : State) : Except Fault State := do
  let s ← appendChunk encodeChunk call.chunk s
  let s := if s.mode = .tcp ∧ s.fd < 0 then { s with fd := call.connect } else s
  if s.fd < 0 then return s
  return flushOut call.result s

/-- A run: the calls in order. -/
def run (calls : List Call) (s : State) : Except Fault State :=
  calls.foldlM (fun s call => chunkWrite encodeChunk call s) s

/-! ## One call -/

variable {encodeChunk} {s s' : State} {c : Chunk} {bs : List UInt8}

/-- The descriptor is open and the buffer is within its bounds. -/
structure Open (s : State) : Prop where
  fd : 0 ≤ s.fd
  nonneg : 0 ≤ s.pos
  bounded : s.pos ≤ BUFSIZE

/-- The chunk is encoded in the space it is given, into at least one byte, and the frame fits. -/
def Fits (encodeChunk : Chunk → Int → Option (List UInt8)) (c : Chunk) (s : State) : Prop :=
  ∃ bs, encodeChunk c (BUFSIZE - s.pos) = some bs ∧ bs ≠ [] ∧ s.pos + 4 + bs.length ≤ BUFSIZE

/-- A chunk that fits adds its frame to the pending bytes. -/
theorem append_fits (h0 : 0 ≤ s.pos) (henc : encodeChunk c (BUFSIZE - s.pos) = some bs)
    (hne : bs ≠ []) (hfit : s.pos + 4 + bs.length ≤ BUFSIZE) :
    ∃ s', appendChunk encodeChunk c s = .ok s' ∧ s'.fd = s.fd ∧ s'.sent = s.sent ∧
      s'.pos = s.pos + (4 + bs.length) ∧ s'.pending = s.pending ++ frame bs := by
  have hpos : 0 < bs.length := List.length_pos_of_ne_nil hne
  have hbuf : (BUFSIZE : Int) = 524288 := rfl
  have hsize : uint32 (bs.length : Int) = bs.length := uint32_natCast (by omega)
  have hnz : ¬ bs.length = 0 := by omega
  have hnext : toInt (sizeT (sizeT s.pos + (4 + (bs.length : Int)))) = s.pos + (4 + bs.length) := by
    rw [sizeT_of_nonneg h0 (by omega), sizeT_of_nonneg (by omega) (by omega),
      toInt_of_nonneg (by omega) (by unfold INT_MAX; omega)]
  have hlen : ((be 4 bs.length).length : Int) = 4 := by simp
  refine ⟨{ s with
    sendbuf := write (write s.sendbuf (s.pos + 4).toNat bs) s.pos.toNat (be 4 bs.length)
    pos := s.pos + (4 + bs.length) }, ?_, rfl, rfl, rfl, ?_⟩
  · simp only [appendChunk, encodeAt, henc, store_ok (by omega : 0 ≤ s.pos + 4) hfit, bind,
      Except.bind, pure, Except.pure, hsize, if_neg hnz, hnext,
      store_ok h0 (by omega : s.pos + (be 4 bs.length).length ≤ BUFSIZE)]
  · have h4 : (s.pos + 4).toNat = s.pos.toNat + 4 := by omega
    have hn : (s.pos + (4 + (bs.length : Int))).toNat = s.pos.toNat + (4 + bs.length) := by omega
    simp only [State.pending, h4, hn, read_frame]

/-- When `encodeChunk` fails, three bytes of the value `-1` enter the buffer. -/
theorem append_failure (h0 : 0 ≤ s.pos) (henc : encodeChunk c (BUFSIZE - s.pos) = none)
    (hfit : s.pos + 4 ≤ BUFSIZE) :
    ∃ s', appendChunk encodeChunk c s = .ok s' ∧ s'.fd = s.fd ∧ s'.sent = s.sent ∧
      s'.pos = s.pos + 3 ∧ s'.pending = s.pending ++ [255, 255, 255] := by
  have hbuf : (BUFSIZE : Int) = 524288 := rfl
  have hsize : uint32 (-1) = 4294967295 := by decide
  have hbe : be 4 4294967295 = [255, 255, 255, 255] := by decide
  have hnext : toInt (sizeT (sizeT s.pos + (4 + ((4294967295 : ℕ) : Int)))) = s.pos + 3 := by
    rw [sizeT_of_nonneg h0 (by omega), sizeT_of_nonneg (by omega) (by omega)]
    rw [show s.pos + (4 + ((4294967295 : ℕ) : Int)) = s.pos + 3 + 2 ^ 32 by push_cast; ring,
      toInt_add_two_pow]
    exact toInt_of_nonneg (by omega) (by unfold INT_MAX; omega)
  refine ⟨{ s with sendbuf := write s.sendbuf s.pos.toNat (be 4 4294967295), pos := s.pos + 3 },
    ?_, rfl, rfl, rfl, ?_⟩
  · have hstore : s.pos + (be 4 4294967295).length ≤ BUFSIZE := by rwa [length_be]
    simp only [appendChunk, encodeAt, henc, bind, Except.bind, pure, Except.pure, hsize,
      if_neg (by decide : ¬ 4294967295 = 0), store_ok h0 hstore, hnext]
  · have hn : (s.pos + 3).toNat = s.pos.toNat + 3 := by omega
    have happ : read (write s.sendbuf s.pos.toNat [255, 255, 255, 255]) 0 (s.pos.toNat + 4) =
        s.pending ++ [255, 255, 255, 255] :=
      read_write_append s.sendbuf s.pos.toNat [255, 255, 255, 255]
    have hlen : s.pending.length = s.pos.toNat := length_read ..
    show read (write s.sendbuf s.pos.toNat (be 4 4294967295)) 0 (s.pos + 3).toNat = _
    rw [hn, hbe, ← take_read _ _ (by omega : s.pos.toNat + 3 ≤ s.pos.toNat + 4), happ,
      List.take_append, hlen, List.take_of_length_le (by omega), Nat.add_sub_cancel_left]
    rfl

/-- Without room for the length field the store leaves the buffer. -/
theorem append_failure_overrun (henc : encodeChunk c (BUFSIZE - s.pos) = none)
    (hfull : BUFSIZE < s.pos + 4) : appendChunk encodeChunk c s = .error .outOfBounds := by
  have hsize : uint32 (-1) = 4294967295 := by decide
  have hstore : BUFSIZE < s.pos + (be 4 4294967295).length := by rwa [length_be]
  simp only [appendChunk, encodeAt, henc, bind, Except.bind, hsize,
    if_neg (by decide : ¬ 4294967295 = 0), store_overrun hstore]

/-- So does the encoding when it ends less than four bytes before the end of its space. -/
theorem append_overrun (henc : encodeChunk c (BUFSIZE - s.pos) = some bs)
    (hlong : BUFSIZE < s.pos + 4 + bs.length) :
    appendChunk encodeChunk c s = .error .outOfBounds := by
  simp only [appendChunk, encodeAt, henc, bind, Except.bind, store_overrun hlong]

/-- An empty encoding is dropped, its length field included. -/
theorem append_empty (h0 : 0 ≤ s.pos) (henc : encodeChunk c (BUFSIZE - s.pos) = some [])
    (hfit : s.pos + 4 ≤ BUFSIZE) :
    ∃ s', appendChunk encodeChunk c s = .ok s' ∧ s'.sent = s.sent ∧ s'.pos = s.pos ∧
      s'.fd = s.fd ∧ s'.pending = s.pending := by
  refine ⟨{ s with sendbuf := write s.sendbuf (s.pos + 4).toNat [] }, ?_, rfl, rfl, rfl, ?_⟩
  · have hstore : s.pos + 4 + ([] : List UInt8).length ≤ BUFSIZE := by simpa using hfit
    simp only [appendChunk, encodeAt, henc, store_ok (by omega : 0 ≤ s.pos + 4) hstore, bind,
      Except.bind, pure, Except.pure]
    rfl
  · show read (write s.sendbuf (s.pos + 4).toNat []) 0 s.pos.toNat = read s.sendbuf 0 s.pos.toNat
    exact read_write_before s.sendbuf [] (by omega)

/-- Writing out moves bytes from the buffer to the descriptor and loses none. -/
theorem flushOut_stream (h0 : 0 ≤ s.pos) {r : WriteResult} (hr : r ≠ .failed) :
    (flushOut r s).sent ++ (flushOut r s).pending = s.sent ++ s.pending ∧
      (flushOut r s).fd = s.fd ∧ 0 ≤ (flushOut r s).pos ∧ (flushOut r s).pos ≤ s.pos := by
  cases r with
  | failed => exact absurd rfl hr
  | stalled => exact ⟨rfl, rfl, h0, le_rfl⟩
  | wrote n =>
    refine ⟨?_, rfl, by simp only [flushOut]; omega, by simp only [flushOut]; omega⟩
    have hsplit : s.pos.toNat =
        min n s.pos.toNat + (s.pos - (min n s.pos.toNat : ℕ)).toNat := by omega
    simp only [flushOut, State.pending, read_shift, List.append_assoc]
    conv_rhs => rw [hsplit, read_add, Nat.zero_add]

/-- A call on an open descriptor appends, then writes out. -/
theorem chunkWrite_open (call : Call) (happ : appendChunk encodeChunk call.chunk s = .ok s')
    (hfd : 0 ≤ s'.fd) : chunkWrite encodeChunk call s = .ok (flushOut call.result s') := by
  have hopen : ¬ s'.fd < 0 := by omega
  have hconn : ¬ (s'.mode = .tcp ∧ s'.fd < 0) := fun h => hopen h.2
  simp only [chunkWrite, happ, bind, Except.bind, if_neg hconn, if_neg hopen]
  rfl

theorem chunkWrite_error {call : Call} {e : Fault}
    (happ : appendChunk encodeChunk call.chunk s = .error e) :
    chunkWrite encodeChunk call s = .error e := by
  simp only [chunkWrite, happ, bind, Except.bind]

/-! ## Runs -/

/-- The frame that a call owes to the stream: none when `encodeChunk` fails. -/
def frameOf (encodeChunk : Chunk → Int → Option (List UInt8)) (c : Chunk) (s : State) :
    List UInt8 :=
  match encodeChunk c (BUFSIZE - s.pos) with
  | some bs => frame bs
  | none => []

/-- The frames of the successfully encoded chunks of a run, in call order. -/
def frames (encodeChunk : Chunk → Int → Option (List UInt8)) : List Call → State → List UInt8
  | [], _ => []
  | call :: calls, s => frameOf encodeChunk call.chunk s ++
    match chunkWrite encodeChunk call s with
    | .ok s' => frames encodeChunk calls s'
    | .error _ => []

theorem run_concat (calls : List Call) (call : Call) (s : State) :
    run encodeChunk (calls ++ [call]) s =
      run encodeChunk calls s >>= chunkWrite encodeChunk call := by
  simp only [run, List.foldlM_append, List.foldlM_cons, List.foldlM_nil, bind_pure]

theorem frames_concat {calls : List Call} (call : Call) (h : run encodeChunk calls s = .ok s') :
    frames encodeChunk (calls ++ [call]) s =
      frames encodeChunk calls s ++ frameOf encodeChunk call.chunk s' := by
  induction calls generalizing s with
  | nil =>
    obtain rfl : s = s' := Except.ok.inj h
    simp only [List.nil_append, frames]
    cases chunkWrite encodeChunk call s <;> simp
  | cons first calls ih =>
    simp only [run, List.foldlM_cons] at h
    cases hf : chunkWrite encodeChunk first s with
    | error e =>
      rw [hf] at h
      cases h
    | ok s₁ =>
      rw [hf] at h
      simp only [List.cons_append, frames, hf, ih h, List.append_assoc]

/-- What the stream promises: after every call the bytes taken and the pending bytes are the frames
of the encoded chunks, and a chunk that cannot be encoded leaves the buffer as it is. -/
def StreamIntact (encodeChunk : Chunk → Int → Option (List UInt8)) (calls : List Call)
    (s₀ : State) : Prop :=
  ∀ pre, pre <+: calls → ∃ s, run encodeChunk pre s₀ = .ok s ∧
    s.sent ++ s.pending = frames encodeChunk pre s₀ ∧
    ∀ call, pre ++ [call] <+: calls → encodeChunk call.chunk (BUFSIZE - s.pos) = none →
      ∃ s', appendChunk encodeChunk call.chunk s = .ok s' ∧ s'.pos = s.pos ∧
        s'.pending = s.pending

/-- Every chunk of the run fits when its call is made. -/
def AllFit (encodeChunk : Chunk → Int → Option (List UInt8)) (calls : List Call) (s₀ : State) :
    Prop :=
  ∀ pre call, pre ++ [call] <+: calls → ∀ s, run encodeChunk pre s₀ = .ok s →
    Fits encodeChunk call.chunk s

/-- One call with a chunk that fits keeps the stream. -/
theorem chunkWrite_fits (ho : Open s) {call : Call} (hfit : Fits encodeChunk call.chunk s)
    (hr : call.result ≠ .failed) :
    ∃ s', chunkWrite encodeChunk call s = .ok s' ∧ Open s' ∧
      s'.sent ++ s'.pending = s.sent ++ s.pending ++ frameOf encodeChunk call.chunk s := by
  obtain ⟨bs, henc, hne, hlen⟩ := hfit
  have h0 := ho.nonneg
  obtain ⟨s₁, happ, hfd₁, hsent, hpos, hpend⟩ := append_fits h0 henc hne hlen
  have hopen : 0 ≤ s₁.fd := hfd₁ ▸ ho.fd
  obtain ⟨hstream, hfd, hnn, hle⟩ := flushOut_stream (s := s₁) (by omega) hr
  refine ⟨_, chunkWrite_open _ happ hopen, ⟨hfd ▸ hopen, hnn, by omega⟩, ?_⟩
  rw [hstream, hsent, hpend, frameOf, henc, List.append_assoc]

/-- One call with a chunk that does not fit breaks the stream. -/
theorem chunkWrite_not_fits (ho : Open s) {call : Call}
    (hfit : ¬ Fits encodeChunk call.chunk s) (hr : call.result ≠ .failed) :
    (∃ e, chunkWrite encodeChunk call s = .error e) ∨
      ∃ s', chunkWrite encodeChunk call s = .ok s' ∧
        s'.sent ++ s'.pending ≠ s.sent ++ s.pending ++ frameOf encodeChunk call.chunk s := by
  by_cases hfull : BUFSIZE < s.pos + 4
  · cases henc : encodeChunk call.chunk (BUFSIZE - s.pos) with
    | none =>
      exact Or.inl ⟨_, chunkWrite_error (append_failure_overrun henc hfull)⟩
    | some bs =>
      exact Or.inl ⟨_, chunkWrite_error (append_overrun henc (by omega))⟩
  rw [not_lt] at hfull
  cases henc : encodeChunk call.chunk (BUFSIZE - s.pos) with
  | none =>
    obtain ⟨s₁, happ, hfd, hsent, hpos, hpend⟩ := append_failure ho.nonneg henc hfull
    have h0 := ho.nonneg
    obtain ⟨hstream, -⟩ := flushOut_stream (s := s₁) (by omega) hr
    refine Or.inr ⟨_, chunkWrite_open _ happ (hfd ▸ ho.fd), fun heq => ?_⟩
    rw [hstream, hsent, hpend, frameOf, henc, List.append_nil, ← List.append_assoc] at heq
    exact absurd (List.append_right_eq_self.1 heq) (by decide)
  | some bs =>
    by_cases hne : bs = []
    · subst hne
      obtain ⟨s₁, happ, hsent, hpos, hfd, hpend⟩ := append_empty ho.nonneg henc hfull
      obtain ⟨hstream, -⟩ := flushOut_stream (s := s₁) (hpos ▸ ho.nonneg) hr
      refine Or.inr ⟨_, chunkWrite_open _ happ (hfd ▸ ho.fd), fun heq => ?_⟩
      rw [hstream, hsent, hpend, frameOf, henc] at heq
      exact absurd (List.self_eq_append_right.1 heq) (by decide)
    · have hlong : BUFSIZE < s.pos + 4 + bs.length :=
        not_le.1 fun hle => hfit ⟨bs, henc, hne, hle⟩
      exact Or.inl ⟨_, chunkWrite_error (append_overrun henc hlong)⟩

/-- Runs in which every chunk fits keep the stream. -/
theorem run_allFit {calls : List Call} (ho : Open s) (hr : ∀ call ∈ calls, call.result ≠ .failed)
    (hfit : AllFit encodeChunk calls s) :
    ∃ s', run encodeChunk calls s = .ok s' ∧ Open s' ∧
      s'.sent ++ s'.pending = s.sent ++ s.pending ++ frames encodeChunk calls s := by
  induction calls using List.reverseRecOn with
  | nil => exact ⟨s, rfl, ho, by simp [frames]⟩
  | append_singleton calls call ih =>
    obtain ⟨s₁, hs₁, ho₁, hstream⟩ := ih (fun a ha => hr a (List.mem_append_left _ ha))
      fun pre a hpre => hfit pre a (hpre.trans (List.prefix_append _ _))
    obtain ⟨s', hs', ho', hstream'⟩ := chunkWrite_fits ho₁
      (hfit calls call (List.prefix_refl _) s₁ hs₁) (hr call (by simp))
    refine ⟨s', ?_, ho', ?_⟩
    · rw [run_concat, hs₁]
      exact hs'
    · rw [hstream', hstream, frames_concat call hs₁, List.append_assoc]

theorem AllFit.of_isPrefix {calls pre : List Call} (h : AllFit encodeChunk calls s)
    (hpre : pre <+: calls) : AllFit encodeChunk pre s :=
  fun p call hp => h p call (hp.trans hpre)

theorem AllFit.concat {calls : List Call} {call : Call} (h : AllFit encodeChunk calls s)
    (hlast : ∀ t, run encodeChunk calls s = .ok t → Fits encodeChunk call.chunk t) :
    AllFit encodeChunk (calls ++ [call]) s := by
  intro pre a hp
  rcases List.prefix_concat_iff.1 hp with heq | hp
  · obtain ⟨rfl, hcall⟩ := List.append_inj' heq rfl
    obtain rfl := List.singleton_injective hcall
    exact hlast
  · exact h pre a hp

theorem StreamIntact.of_isPrefix {calls pre : List Call} (h : StreamIntact encodeChunk calls s)
    (hpre : pre <+: calls) : StreamIntact encodeChunk pre s := by
  intro p hp
  obtain ⟨t, ht, hstream, hskip⟩ := h p (hp.trans hpre)
  exact ⟨t, ht, hstream, fun call hcall => hskip call (hcall.trans hpre)⟩

/-- If the stream is still intact after a call, the chunk of the call fits. -/
theorem StreamIntact.fits {calls : List Call} {call : Call} {mode : Mode} {fd : Int}
    (h : StreamIntact encodeChunk (calls ++ [call]) (.init mode fd)) (ho : Open (.init mode fd))
    (hr : ∀ c ∈ calls ++ [call], c.result ≠ .failed)
    (hfit : AllFit encodeChunk calls (.init mode fd)) :
    ∀ t, run encodeChunk calls (.init mode fd) = .ok t → Fits encodeChunk call.chunk t := by
  obtain ⟨s, hs, ho', hstream⟩ := run_allFit ho (fun c hc => hr c (List.mem_append_left _ hc)) hfit
  obtain ⟨s', hs', hstream', -⟩ := h (calls ++ [call]) (List.prefix_refl _)
  rw [run_concat, hs] at hs'
  intro t ht
  obtain rfl : s = t := Except.ok.inj (hs.symm.trans ht)
  by_contra hno
  rcases chunkWrite_not_fits ho' hno (hr call (by simp)) with ⟨e, he⟩ | ⟨t, ht, hne⟩
  · exact absurd (hs'.symm.trans he) (by simp)
  · obtain rfl : s' = t := Except.ok.inj (hs'.symm.trans ht)
    apply hne
    rw [hstream', frames_concat call hs, hstream]
    simp [State.init, State.pending]

theorem StreamIntact.allFit {calls : List Call} {mode : Mode} {fd : Int}
    (h : StreamIntact encodeChunk calls (.init mode fd)) (ho : Open (.init mode fd))
    (hr : ∀ call ∈ calls, call.result ≠ .failed) : AllFit encodeChunk calls (.init mode fd) := by
  induction calls using List.reverseRecOn with
  | nil =>
    intro p call hp
    exact absurd (List.prefix_nil.1 hp) (by simp)
  | append_singleton calls call ih =>
    have hfit := ih (h.of_isPrefix (List.prefix_append ..)) fun c hc =>
      hr c (List.mem_append_left _ hc)
    exact hfit.concat (h.fits ho hr hfit)

/-- On an open descriptor the stream is intact after every call of a run exactly when every chunk
of the run fits at its call: it is encoded in the space it is given, into at least one byte, and
leaves room for the length field. -/
theorem streamIntact_iff_allFit (encodeChunk : Chunk → Int → Option (List UInt8)) (mode : Mode)
    (fd : Int) (hfd : 0 ≤ fd) (calls : List Call)
    (hr : ∀ call ∈ calls, call.result ≠ .failed) :
    StreamIntact encodeChunk calls (.init mode fd) ↔
      AllFit encodeChunk calls (.init mode fd) := by
  have ho : Open (.init mode fd) := ⟨hfd, le_refl (0 : Int), by show (0 : Int) ≤ _; decide⟩
  constructor
  · intro h
    exact h.allFit ho hr
  · intro h pre hpre
    obtain ⟨s, hs, ho', hstream⟩ := run_allFit ho (fun call hc => hr call (hpre.subset hc))
      (h.of_isPrefix hpre)
    refine ⟨s, hs, by simpa [State.init, State.pending] using hstream, ?_⟩
    intro call hcall hnone
    obtain ⟨bs, hsome, -⟩ := h pre call hcall s hs
    rw [hnone] at hsome
    cases hsome

theorem streamIntact_short_write :
    StreamIntact encodeLayout [⟨⟨1, 0, [7], []⟩, -1, .wrote 5⟩] (.init .tcp 3) := by
  apply (streamIntact_iff_allFit encodeLayout .tcp 3 (by decide) _ (by decide)).2
  intro pre call hpre s hs
  have hlen := hpre.length_le
  obtain rfl : pre = [] := List.length_eq_zero_iff.1 (by simpa using hlen)
  obtain rfl := List.singleton_injective (hpre.eq_of_length rfl)
  obtain rfl : State.init .tcp 3 = s := Except.ok.inj hs
  exact ⟨layout ⟨1, 0, [7], []⟩, by decide, by decide, by decide⟩

/-- A chunk of 300000 bytes. -/
def largeChunk : Chunk := ⟨1, 0, List.replicate 300000 0, []⟩

theorem length_layout_largeChunk : (layout largeChunk).length = 300020 := by
  have hdata : largeChunk.data.length = 300000 := List.length_replicate
  have hattr : largeChunk.attributes.length = 0 := rfl
  rw [length_layout, hdata, hattr]

/-- Two large chunks while the output is stalled: the second one does not fit in the space that is
left, and the stream is damaged. -/
theorem not_streamIntact_stalled :
    ¬ StreamIntact encodeLayout [⟨largeChunk, -1, .stalled⟩, ⟨largeChunk, -1, .stalled⟩]
      (.init .tcp 3) := by
  intro h
  have hlen := length_layout_largeChunk
  have hfirst : encodeLayout largeChunk (BUFSIZE - (State.init .tcp 3).pos) =
      some (layout largeChunk) := if_pos (by rw [hlen]; decide)
  have ho : Open (.init .tcp 3) := ⟨by decide, by decide, by decide⟩
  have hne : layout largeChunk ≠ [] := by
    intro h0
    rw [h0] at hlen
    cases hlen
  obtain ⟨s₁, happ, hfd, -, hnext, -⟩ := append_fits le_rfl hfirst hne (by rw [hlen]; decide)
  have hrun : run encodeLayout [⟨largeChunk, -1, .stalled⟩] (.init .tcp 3) = .ok s₁ := by
    have hone := chunkWrite_open ⟨largeChunk, -1, .stalled⟩ happ (hfd ▸ ho.fd)
    simp only [run, List.foldlM_cons, List.foldlM_nil, hone]
    rfl
  have hpos : s₁.pos = 300024 := by
    rw [hnext, hlen]
    rfl
  have hsecond : encodeLayout largeChunk (BUFSIZE - s₁.pos) = none :=
    if_neg (by rw [hlen, hpos]; decide)
  obtain ⟨t, ht, -, hskip⟩ := h [⟨largeChunk, -1, .stalled⟩] ⟨[_], rfl⟩
  obtain rfl : s₁ = t := Except.ok.inj (hrun.symm.trans ht)
  obtain ⟨s', hs', hsame, -⟩ := hskip ⟨largeChunk, -1, .stalled⟩ ⟨[], rfl⟩ hsecond
  obtain ⟨s₂, hs₂, -, -, hmoved, -⟩ := append_failure (by omega) hsecond (by rw [hpos]; decide)
  obtain rfl : s' = s₂ := Except.ok.inj (hs'.symm.trans hs₂)
  omega

end PeerStreamer.OutputChunkstream
