import Mathlib.Data.List.Induction
import PeerStreamer.ChunkCodec
import PeerStreamer.ChunkstreamBuffer

/-!
# The chunkstream input (`input-chunkstream.c`)

`inputGet` reads what the connection has into the receive buffer, takes the first frame off the
buffer once all of it is there, and says whether another whole frame follows.  `decodeChunk` is
GRAPES code and a parameter.

Whatever the pieces in which the bytes of a frame sequence arrive, the frames come out one by one
and in order (`pull_decodes`): the buffered bytes followed by the bytes to come are always the
frames that are left (`Left`).
-/

namespace PeerStreamer.InputChunkstream

open Bytes ChunkstreamBuffer

/-- The static variables of `input_get`. -/
structure State where
  recvbuf : Memory
  pos : Int

/-- The outcome of `recv`: some bytes (none at the end of the stream), `EAGAIN` or `EWOULDBLOCK`,
or another error. -/
inductive RecvResult where
  | received (bs : List UInt8)
  | wouldBlock
  | failed
  deriving DecidableEq, Repr

/-- The bytes that arrive. -/
def RecvResult.bytes : RecvResult → List UInt8
  | .received bs => bs
  | .wouldBlock => []
  | .failed => []

/-- The result of a call, and the chunk it leaves in `c`. -/
structure Reply where
  ret : Int
  chunk : Option Chunk
  deriving DecidableEq, Repr

/-- The chunk of a call that leaves `c->data` non-NULL. -/
def Reply.delivered (r : Reply) : Option Chunk := r.chunk.filter fun c => c.data ≠ []

def State.init : State := ⟨fun _ => 0, 0⟩

/-- The bytes received and not yet decoded. -/
def State.pending (s : State) : List UInt8 := read s.recvbuf 0 s.pos.toNat

/-! ## The code -/

/-- The call of `recv`. -/
def receive (r : RecvResult) (s : State) : Except Fault State :=
  match r with
  | .received bs => do
    let recvbuf ← store s.recvbuf s.pos bs
    let pos ← int (s.pos + bs.length)
    return ⟨recvbuf, pos⟩
  | .wouldBlock => .ok s
  | .failed => .error (.exit 1)

/-- The length field at the front of the buffer. -/
def frontSize (s : State) : ℕ := ofBe (read s.recvbuf 0 4)

/-- Take the first frame off the buffer. -/
def dropFrame (size : ℕ) (s : State) : State :=
  let pos := toInt (sizeT (sizeT s.pos - (4 + size)))
  ⟨shift s.recvbuf (4 + size) pos.toNat, pos⟩

/-- The check for other chunks in the buffer. -/
def lookAhead (s : State) : Int :=
  if 4 ≤ sizeT s.pos ∧ 4 + frontSize s ≤ sizeT s.pos then 0 else INT_MAX

/-- What streams out has no attributes. -/
def removeAttributes (c : Chunk) : Chunk := { c with attributes := [] }

variable (decodeChunk : List UInt8 → Option Chunk)

/-- The part of `input_get` after the data was read. -/
def takeChunk (s : State) : Reply × State :=
  if sizeT s.pos < 4 then (⟨INT_MAX, none⟩, s)
  else
    let size := frontSize s
    if 4 + size ≤ sizeT s.pos then
      match decodeChunk (read s.recvbuf 4 size) with
      | none => (⟨INT_MAX, none⟩, s)
      | some c => (⟨lookAhead (dropFrame size s), some (removeAttributes c)⟩, dropFrame size s)
    else (⟨lookAhead s, none⟩, s)

def inputGet (r : RecvResult) (s : State) : Except Fault (Reply × State) := do
  let s ← receive r s
  return takeChunk decodeChunk s

/-- How the connection answers a `recv`: with at most `n` of the bytes to come, or not at all. -/
inductive Cut where
  | bytes (n : ℕ)
  | wouldBlock
  deriving DecidableEq, Repr

/-- The answer to a `recv` that has room for `BUFSIZE - pos` bytes, and the bytes left to come. -/
def answer (cut : Cut) (s : State) (rest : List UInt8) : RecvResult × List UInt8 :=
  match cut with
  | .bytes n =>
    let k := min n (BUFSIZE - s.pos).toNat
    (.received (rest.take k), rest.drop k)
  | .wouldBlock => (.wouldBlock, rest)

/-- Successive calls while `rest` arrives in the given pieces. -/
def pull : List Cut → State → List UInt8 → Except Fault (List Reply × State × List UInt8)
  | [], s, rest => .ok ([], s, rest)
  | cut :: cuts, s, rest => do
    let (r, rest) := answer cut s rest
    let (reply, s) ← inputGet decodeChunk r s
    let (replies, s, rest) ← pull cuts s rest
    return (reply :: replies, s, rest)

/-! ## One call -/

variable {decodeChunk} {s s' : State} {c : Chunk} {body tail : List UInt8}

/-- The buffer is within its bounds. -/
structure InBounds (s : State) : Prop where
  nonneg : 0 ≤ s.pos
  bounded : s.pos ≤ BUFSIZE

theorem length_pending (s : State) : s.pending.length = s.pos.toNat := length_read ..

/-- The length comparisons of the code, which are made in `size_t`. -/
theorem sizeT_pos (h : InBounds s) : sizeT s.pos = s.pending.length := by
  have h0 := h.nonneg
  have h1 : s.pos ≤ 524288 := h.bounded
  rw [sizeT_of_nonneg h0 (by omega), length_pending]
  omega

theorem frontSize_eq (h : 4 ≤ s.pending.length) : frontSize s = ofBe (s.pending.take 4) := by
  rw [length_pending] at h
  rw [frontSize, State.pending, take_read _ _ h]

/-- The test for a frame in the buffer. -/
theorem complete_iff (h : InBounds s) :
    (4 ≤ sizeT s.pos ∧ 4 + (frontSize s : Int) ≤ sizeT s.pos) ↔ Complete s.pending := by
  rw [sizeT_pos h]
  constructor
  · intro ⟨h4, hle⟩
    have h4' : 4 ≤ s.pending.length := by omega
    rw [frontSize_eq h4'] at hle
    exact ⟨h4', by omega⟩
  · intro ⟨h4, hle⟩
    rw [frontSize_eq h4]
    omega

theorem lookAhead_eq (h : InBounds s) :
    lookAhead s = if Complete s.pending then 0 else INT_MAX :=
  if_congr (complete_iff h) rfl rfl

/-- What `recv` stores is appended to the pending bytes. -/
theorem receive_ok (h : InBounds s) {r : RecvResult} (hr : r ≠ .failed)
    (hlen : s.pos + r.bytes.length ≤ BUFSIZE) :
    ∃ s', receive r s = .ok s' ∧ InBounds s' ∧ s'.pending = s.pending ++ r.bytes := by
  have h0 := h.nonneg
  cases r with
  | failed => exact absurd rfl hr
  | wouldBlock => exact ⟨s, rfl, h, (List.append_nil _).symm⟩
  | received bs =>
    have hlen' : s.pos + bs.length ≤ BUFSIZE := hlen
    have hmax : (BUFSIZE : Int) = 524288 := rfl
    refine ⟨⟨write s.recvbuf s.pos.toNat bs, s.pos + bs.length⟩, ?_,
      ⟨by show 0 ≤ s.pos + _; omega, hlen'⟩, ?_⟩
    · simp only [receive, store_ok h0 hlen', int_nonneg (by omega : 0 ≤ s.pos + bs.length)
        (by unfold INT_MAX; omega), bind, Except.bind, pure, Except.pure]
    · have hn : (s.pos + (bs.length : Int)).toNat = s.pos.toNat + bs.length := by omega
      simp only [State.pending, RecvResult.bytes, hn, read_write_append]

/-- Without a whole frame in the buffer nothing is taken off. -/
theorem takeChunk_incomplete (h : InBounds s) (hc : ¬ Complete s.pending) :
    takeChunk decodeChunk s = (⟨INT_MAX, none⟩, s) := by
  by_cases h4 : sizeT s.pos < 4
  · exact if_pos h4
  · have hle : ¬ 4 + (frontSize s : Int) ≤ sizeT s.pos := fun hle =>
      hc ((complete_iff h).1 ⟨by omega, hle⟩)
    simp only [takeChunk, if_neg h4, if_neg hle, lookAhead_eq h, if_neg hc]

/-- What the code reads of a whole frame at the front. -/
structure Front (body : List UInt8) (s : State) : Prop where
  four : ¬ sizeT s.pos < 4
  size : frontSize s = body.length
  whole : 4 + (body.length : Int) ≤ sizeT s.pos
  body : read s.recvbuf 4 body.length = body

theorem front_of_pending (h : InBounds s) (hs : s.pending = frame body ++ tail)
    (hb : body.length < 256 ^ 4) : Front body s := by
  have hlen : s.pending.length = 4 + body.length + tail.length := by
    rw [hs, List.length_append, length_frame]
  have hpos : s.pos.toNat = 4 + body.length + tail.length := by rw [← length_pending, hlen]
  refine ⟨?_, ?_, ?_, ?_⟩
  · rw [sizeT_pos h]
    omega
  · rw [frontSize_eq (by omega)]
    exact ofBe_take_of_isPrefix hb ((List.append_nil _).trans hs) (by omega)
  · rw [sizeT_pos h]
    omega
  · have hdrop := congrArg (fun l => (l.drop 4).take body.length) hs
    simp only [State.pending, frame, List.append_assoc, List.drop_left' (length_be ..),
      List.take_left'] at hdrop
    rwa [drop_read _ _ (by omega : 4 ≤ s.pos.toNat), take_read _ _ (by omega)] at hdrop

theorem dropFrame_front (h : InBounds s) (hs : s.pending = frame body ++ tail) :
    InBounds (dropFrame body.length s) ∧ (dropFrame body.length s).pending = tail := by
  have h0 := h.nonneg
  have h1 : s.pos ≤ 524288 := h.bounded
  have hlen : s.pos.toNat = 4 + body.length + tail.length := by
    rw [← length_pending, hs, List.length_append, length_frame]
  have hpos : toInt (sizeT (sizeT s.pos - (4 + (body.length : Int)))) = tail.length := by
    rw [sizeT_of_nonneg h0 (by omega), sizeT_of_nonneg (by omega) (by omega),
      toInt_of_nonneg (by omega) (by unfold INT_MAX; omega)]
    omega
  refine ⟨⟨?_, ?_⟩, ?_⟩
  · show 0 ≤ toInt _
    omega
  · show toInt _ ≤ (524288 : Int)
    omega
  · have hn : (toInt (sizeT (sizeT s.pos - (4 + (body.length : Int))))).toNat = tail.length := by
      omega
    have hdrop := congrArg (List.drop (4 + body.length)) hs
    rw [List.drop_left' (length_frame body), State.pending,
      drop_read _ _ (by omega : 4 + body.length ≤ s.pos.toNat), Nat.zero_add] at hdrop
    rw [(by omega : s.pos.toNat - (4 + body.length) = tail.length)] at hdrop
    simp only [dropFrame, State.pending, hn, read_shift]
    exact hdrop

/-- A whole frame that decodes is taken off. -/
theorem takeChunk_frame (h : InBounds s) (hs : s.pending = frame body ++ tail)
    (hb : body.length < 256 ^ 4) (hd : decodeChunk body = some c) :
    ∃ s', takeChunk decodeChunk s =
        (⟨if Complete s'.pending then 0 else INT_MAX, some (removeAttributes c)⟩, s') ∧
      InBounds s' ∧ s'.pending = tail := by
  have hf := front_of_pending h hs hb
  obtain ⟨hin, htail⟩ := dropFrame_front h hs
  refine ⟨dropFrame body.length s, ?_, hin, htail⟩
  simp only [takeChunk, if_neg hf.four, hf.size, if_pos hf.whole, hf.body, hd, lookAhead_eq hin]

/-- A whole frame that does not decode stays where it is. -/
theorem takeChunk_undecodable (h : InBounds s) (hs : s.pending = frame body ++ tail)
    (hb : body.length < 256 ^ 4) (hd : decodeChunk body = none) :
    takeChunk decodeChunk s = (⟨INT_MAX, none⟩, s) := by
  have hf := front_of_pending h hs hb
  simp only [takeChunk, if_neg hf.four, hf.size, if_pos hf.whole, hf.body, hd]

/-! ## Runs -/

/-- The bytes of a sequence of chunks, each in its frame. -/
def stream (encodeChunk : Chunk → List UInt8) (cs : List Chunk) : List UInt8 :=
  cs.flatMap fun c => frame (encodeChunk c)

/-- A chunk with a payload whose encoding fits behind its length and is undone by `decodeChunk`. -/
structure Encodes (decodeChunk : List UInt8 → Option Chunk) (encodeChunk : Chunk → List UInt8)
    (c : Chunk) : Prop where
  payload : c.data ≠ []
  nonempty : 1 ≤ (encodeChunk c).length
  fits : (encodeChunk c).length ≤ BUFSIZE - 4
  decodes : decodeChunk (encodeChunk c) = some c

/-- The chunks `left` are still to be returned: their frames are the buffered bytes followed by the
bytes to come. -/
structure Left (encodeChunk : Chunk → List UInt8) (left : List Chunk) (s : State)
    (rest : List UInt8) : Prop where
  inBounds : InBounds s
  frames : s.pending ++ rest = stream encodeChunk left

/-- What the next call does: it returns the chunk of a whole frame at the front of the received
bytes and consumes this frame, or it consumes nothing; and it says whether a whole frame is left in
the buffer. -/
structure OneFrame (encodeChunk : Chunk → List UInt8) (received : List UInt8) (reply : Reply)
    (s' : State) : Prop where
  whole : Complete received → ∃ c, reply.delivered = some (removeAttributes c) ∧
    received = frame (encodeChunk c) ++ s'.pending
  nothing : ¬ Complete received → reply.delivered = none ∧ s'.pending = received
  more : reply.ret = if Complete s'.pending then 0 else INT_MAX

variable {encodeChunk : Chunk → List UInt8} {left : List Chunk} {rest : List UInt8}

theorem answer_bytes (cut : Cut) (s : State) (rest : List UInt8) :
    (answer cut s rest).1.bytes ++ (answer cut s rest).2 = rest := by
  cases cut with
  | bytes n => exact List.take_append_drop ..
  | wouldBlock => rfl

theorem answer_fits (h : InBounds s) (cut : Cut) (rest : List UInt8) :
    (answer cut s rest).1 ≠ .failed ∧
      s.pos + (answer cut s rest).1.bytes.length ≤ BUFSIZE := by
  have h1 := h.bounded
  cases cut with
  | bytes n =>
    refine ⟨nofun, ?_⟩
    show s.pos + ((rest.take _).length : Int) ≤ _
    rw [List.length_take]
    omega
  | wouldBlock => exact ⟨nofun, by simpa [answer, RecvResult.bytes] using h1⟩

/-- One call: either the front chunk is returned, or everything is kept. -/
theorem inputGet_left (henc : ∀ c ∈ left, Encodes decodeChunk encodeChunk c)
    (h : Left encodeChunk left s rest) (cut : Cut) :
    ∃ reply s' left', inputGet decodeChunk (answer cut s rest).1 s = .ok (reply, s') ∧
      Left encodeChunk left' s' (answer cut s rest).2 ∧
      left.map removeAttributes = reply.delivered.toList ++ left'.map removeAttributes ∧
      left' <:+ left ∧
      OneFrame encodeChunk (s.pending ++ (answer cut s rest).1.bytes) reply s' := by
  obtain ⟨hr, hfit⟩ := answer_fits h.inBounds cut rest
  obtain ⟨s₁, hs₁, hin, hpend⟩ := receive_ok h.inBounds hr hfit
  have hframes : s₁.pending ++ (answer cut s rest).2 = stream encodeChunk left := by
    rw [hpend, List.append_assoc, answer_bytes, h.frames]
  have hcall : inputGet decodeChunk (answer cut s rest).1 s = .ok (takeChunk decodeChunk s₁) := by
    simp only [inputGet, hs₁, bind, Except.bind, pure, Except.pure]
  rw [hcall, ← hpend]
  by_cases hc : Complete s₁.pending
  · cases left with
    | nil =>
      have hnil : s₁.pending = [] := (List.append_eq_nil_iff.1 hframes).1
      exact absurd (hnil ▸ hc) not_complete_nil
    | cons c left =>
      have hcenc := henc c (List.mem_cons_self ..)
      have hmax : (BUFSIZE : Int) = 524288 := rfl
      have hb : (encodeChunk c).length < 256 ^ 4 := by
        have := hcenc.fits
        omega
      obtain ⟨tail, -, hsplit, htail⟩ := deframe_of_isPrefix hb hframes hc
      obtain ⟨s', hs', hin', hpend'⟩ := takeChunk_frame hin hsplit hb hcenc.decodes
      have hdel : Reply.delivered ⟨if Complete s'.pending then 0 else INT_MAX,
          some (removeAttributes c)⟩ = some (removeAttributes c) := by
        simp [Reply.delivered, removeAttributes, hcenc.payload]
      refine ⟨_, s', left, congrArg _ hs', ⟨hin', by rw [hpend', htail]; rfl⟩, ?_,
        List.suffix_cons .., fun _ => ⟨c, hdel, by rw [hpend', hsplit]⟩,
        fun hn => absurd hc hn, rfl⟩
      rw [hdel]
      rfl
  · refine ⟨_, s₁, left, congrArg _ (takeChunk_incomplete hin hc), ⟨hin, hframes⟩, rfl,
      List.suffix_refl _, fun h => absurd h hc, fun _ => ⟨rfl, rfl⟩, ?_⟩
    rw [if_neg hc]

theorem pull_append (cuts more : List Cut) (s : State) (rest : List UInt8) :
    pull decodeChunk (cuts ++ more) s rest = (do
      let (replies, s, rest) ← pull decodeChunk cuts s rest
      let (replies', s, rest) ← pull decodeChunk more s rest
      return (replies ++ replies', s, rest)) := by
  induction cuts generalizing s rest with
  | nil =>
    simp only [List.nil_append, pull, bind, Except.bind]
    cases pull decodeChunk more s rest <;> rfl
  | cons cut cuts ih => simp [pull, ih]

/-- A further call at the end of a run. -/
theorem pull_concat {cuts : List Cut} {cut : Cut} {replies : List Reply} {reply : Reply}
    {s₁ : State} {rest₁ : List UInt8}
    (hpull : pull decodeChunk cuts s rest = .ok (replies, s₁, rest₁))
    (hcall : inputGet decodeChunk (answer cut s₁ rest₁).1 s₁ = .ok (reply, s')) :
    pull decodeChunk (cuts ++ [cut]) s rest =
      .ok (replies ++ [reply], s', (answer cut s₁ rest₁).2) := by
  simp only [pull_append, hpull, pull, hcall, bind, Except.bind, pure, Except.pure]

/-- When all bytes have arrived, every chunk that is left has a whole frame in the buffer. -/
theorem Left.complete (henc : ∀ c ∈ left, Encodes decodeChunk encodeChunk c)
    (h : Left encodeChunk left s []) (hne : left ≠ []) : Complete s.pending := by
  cases left with
  | nil => exact absurd rfl hne
  | cons c left =>
    have hframes : s.pending ++ [] = frame (encodeChunk c) ++ stream encodeChunk left := h.frames
    have hfits := (henc c (List.mem_cons_self ..)).fits
    have hmax : (BUFSIZE : Int) = 524288 := rfl
    apply (complete_iff_of_isPrefix (by omega) hframes).2
    rw [List.append_nil] at hframes
    rw [hframes, List.length_append]
    exact Nat.le_add_right ..

/-- When all bytes have arrived, a call takes off a chunk as long as one is left. -/
theorem OneFrame.drains {reply : Reply} {left' : List Chunk}
    (henc : ∀ c ∈ left, Encodes decodeChunk encodeChunk c) (h : Left encodeChunk left s [])
    (hmap : left.map removeAttributes = reply.delivered.toList ++ left'.map removeAttributes)
    (hone : OneFrame encodeChunk s.pending reply s') : left'.length ≤ left.length - 1 := by
  have hlen := congrArg List.length hmap
  rw [List.length_append, List.length_map, List.length_map] at hlen
  by_cases hne : left = []
  · rw [hne, List.length_nil] at hlen
    omega
  · obtain ⟨d, hd, -⟩ := hone.whole (h.complete henc hne)
    rw [hd, Option.toList_some, List.length_singleton] at hlen
    omega

/-- Any number of calls: what was returned and what is left make up the list, and after the last
byte every call makes progress. -/
theorem pull_left (henc : ∀ c ∈ left, Encodes decodeChunk encodeChunk c)
    (h : Left encodeChunk left s rest) (cuts : List Cut) :
    ∃ replies s' rest' left', pull decodeChunk cuts s rest = .ok (replies, s', rest') ∧
      Left encodeChunk left' s' rest' ∧
      left.map removeAttributes = replies.filterMap Reply.delivered ++ left'.map removeAttributes ∧
      left' <:+ left ∧
      (∀ r ∈ replies.getLast?, r.ret = if Complete s'.pending then 0 else INT_MAX) ∧
      (rest = [] → rest' = [] ∧ left'.length ≤ left.length - cuts.length) := by
  induction cuts using List.reverseRecOn with
  | nil =>
    exact ⟨[], s, rest, left, rfl, h, rfl, List.suffix_refl _, nofun, fun h => ⟨h, Nat.le_refl _⟩⟩
  | append_singleton cuts cut ih =>
    obtain ⟨replies, s₁, rest₁, left₁, hpull, h₁, hmap₁, hsuf₁, -, hend⟩ := ih
    have henc₁ : ∀ c ∈ left₁, Encodes decodeChunk encodeChunk c :=
      fun c hc => henc c (hsuf₁.subset hc)
    obtain ⟨reply, s', left', hcall, h', hmap', hsuf', hone⟩ := inputGet_left henc₁ h₁ cut
    refine ⟨_, s', _, left', pull_concat hpull hcall, h', ?_, hsuf'.trans hsuf₁, ?_, ?_⟩
    · rw [hmap₁, hmap', List.filterMap_append, List.append_assoc]
      cases hd : reply.delivered <;> simp [hd]
    · intro r hr
      obtain rfl : reply = r := by simpa using hr
      exact hone.more
    · intro hrest
      obtain ⟨hrest₁, hlen⟩ := hend hrest
      have hparts := answer_bytes cut s₁ rest₁
      rw [hrest₁, List.append_eq_nil_iff] at hparts
      subst hrest₁
      rw [hparts.1, List.append_nil] at hone
      have hdrain := hone.drains henc₁ h₁ hmap'
      rw [List.length_append, List.length_singleton]
      exact ⟨hparts.2, by omega⟩

/-- What the decoder promises after the calls `cuts`: the buffer is in bounds, the chunks returned
are a prefix of the list, the next call takes off one whole frame or nothing, and once all bytes
have been received the call that returns `INT_MAX` is the one that has yielded every chunk. -/
structure Decoded (decodeChunk : List UInt8 → Option Chunk) (encodeChunk : Chunk → List UInt8)
    (cs : List Chunk) (replies : List Reply) (s : State) (rest : List UInt8) : Prop where
  inBounds : InBounds s
  inOrder : replies.filterMap Reply.delivered <+: cs.map removeAttributes
  next : ∀ cut, ∃ reply s', inputGet decodeChunk (answer cut s rest).1 s = .ok (reply, s') ∧
    OneFrame encodeChunk (s.pending ++ (answer cut s rest).1.bytes) reply s'
  finished : rest = [] → (∃ r ∈ replies.getLast?, r.ret = INT_MAX) →
    replies.filterMap Reply.delivered = cs.map removeAttributes

/-- The decoding undoes the framing under every segmentation: it keeps its promises after any
calls, and when all bytes have been received, as many further calls as there are chunks yield every
chunk and end with `INT_MAX`. -/
theorem pull_decodes (decodeChunk : List UInt8 → Option Chunk) (encodeChunk : Chunk → List UInt8)
    (cs : List Chunk) (henc : ∀ c ∈ cs, Encodes decodeChunk encodeChunk c) (cuts : List Cut) :
    ∃ replies s rest, pull decodeChunk cuts .init (stream encodeChunk cs) = .ok (replies, s, rest) ∧
      Decoded decodeChunk encodeChunk cs replies s rest ∧
      (rest = [] → ∀ more, cs.length ≤ more.length → ∃ replies' s',
        pull decodeChunk (cuts ++ more) .init (stream encodeChunk cs) = .ok (replies', s', []) ∧
          replies'.filterMap Reply.delivered = cs.map removeAttributes ∧
          ∀ r ∈ replies'.getLast?, r.ret = INT_MAX) := by
  have hinit : Left encodeChunk cs .init (stream encodeChunk cs) := by
    refine ⟨⟨Int.le_refl 0, ?_⟩, rfl⟩
    show (0 : Int) ≤ 524288
    decide
  obtain ⟨replies, s, rest, left, hpull, hleft, hmap, hsuf, hlast, -⟩ := pull_left henc hinit cuts
  have hlenc : ∀ c ∈ left, Encodes decodeChunk encodeChunk c := fun c hc => henc c (hsuf.subset hc)
  refine ⟨replies, s, rest, hpull, ⟨hleft.inBounds, ⟨_, hmap.symm⟩, ?_, ?_⟩, ?_⟩
  · intro cut
    obtain ⟨reply, s', -, hcall, -, -, -, hone⟩ := inputGet_left hlenc hleft cut
    exact ⟨reply, s', hcall, hone⟩
  · intro hrest ⟨r, hr, hret⟩
    subst hrest
    have hnil : left = [] := by
      by_contra hne
      rw [hlast r hr, if_pos (hleft.complete hlenc hne)] at hret
      exact absurd hret (by decide)
    rw [hmap, hnil, List.map_nil, List.append_nil]
  · intro hrest more hmore
    subst hrest
    obtain ⟨replies', s', rest', left', hpull', hleft', hmap', -, hlast', hend⟩ :=
      pull_left hlenc hleft more
    obtain ⟨rfl, hlen⟩ := hend rfl
    have hle := hsuf.length_le
    obtain rfl : left' = [] := List.length_eq_zero_iff.1 (by omega)
    have hnil : s'.pending = [] := (List.append_eq_nil_iff.1 hleft'.frames).1
    have hall : pull decodeChunk (cuts ++ more) .init (stream encodeChunk cs) =
        .ok (replies ++ replies', s', []) := by
      simp only [pull_append, hpull, hpull', bind, Except.bind, pure, Except.pure]
    obtain ⟨_, _, _, _, hwhole, -, -, -, hfinal, -⟩ := pull_left henc hinit (cuts ++ more)
    obtain ⟨rfl, rfl, rfl⟩ : _ = _ ∧ _ = _ ∧ _ = _ := by
      simpa using Except.ok.inj (hwhole.symm.trans hall)
    refine ⟨_, _, hall, ?_, ?_⟩
    · rw [List.filterMap_append, hmap, hmap', List.map_nil, List.append_nil]
    · intro r hr
      rw [hfinal r hr, if_neg (by rw [hnil]; exact not_complete_nil)]

/-- The concrete encoding is one the decoder works with. -/
theorem encodes_layout {c : Chunk} (h0 : INT_MIN ≤ c.id) (h1 : c.id ≤ INT_MAX) (hd : c.data ≠ [])
    (hfits : 20 + c.data.length + c.attributes.length ≤ BUFSIZE - 4) :
    Encodes decodeLayout layout c := by
  have hmax : (BUFSIZE : Int) = 524288 := rfl
  refine ⟨hd, ?_, ?_, decodeLayout_layout h0 h1 (by omega) (by omega)⟩
  · rw [length_layout]
    omega
  · rw [length_layout]
    push_cast
    exact hfits

/-- Two chunks, of which the first arrives in two pieces. -/
theorem pull_decodes_layout :
    ∃ replies s rest, pull decodeLayout [.bytes 3, .wouldBlock, .bytes 30] .init
        (stream layout [⟨1, 0, [7], [8, 9]⟩, ⟨2, 0, [7, 7], []⟩]) = .ok (replies, s, rest) ∧
      Decoded decodeLayout layout [⟨1, 0, [7], [8, 9]⟩, ⟨2, 0, [7, 7], []⟩] replies s rest ∧
      (rest = [] → ∀ more, 2 ≤ more.length → ∃ replies' s',
        pull decodeLayout ([.bytes 3, .wouldBlock, .bytes 30] ++ more) .init
            (stream layout [⟨1, 0, [7], [8, 9]⟩, ⟨2, 0, [7, 7], []⟩]) = .ok (replies', s', []) ∧
          replies'.filterMap Reply.delivered = [⟨1, 0, [7], []⟩, ⟨2, 0, [7, 7], []⟩] ∧
          ∀ r ∈ replies'.getLast?, r.ret = INT_MAX) := by
  refine pull_decodes decodeLayout layout [⟨1, 0, [7], [8, 9]⟩, ⟨2, 0, [7, 7], []⟩] ?_ _
  simp only [List.forall_mem_cons, List.not_mem_nil, false_imp_iff, implies_true, and_true]
  exact ⟨encodes_layout (by decide) (by decide) (by decide) (by decide),
    encodes_layout (by decide) (by decide) (by decide) (by decide)⟩

end PeerStreamer.InputChunkstream
