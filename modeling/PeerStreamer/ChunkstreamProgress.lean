import Mathlib.Data.List.Infix
import PeerStreamer.InputChunkstream

/-!
# The progress of the chunkstream input

`input_get` takes a frame off the receive buffer only after it has decoded it.  A frame that does not
decode stays at the front and is looked at again by every later call; and a frame that does not fit
in the buffer can never become complete.  The input makes progress in a state if and only if neither
of these is at the front (`progresses_iff_goodFront`).
-/

namespace PeerStreamer.InputChunkstream

open Bytes ChunkstreamBuffer

variable {decodeChunk : List UInt8 → Option Chunk} {s s' : State} {rest body tail : List UInt8}

/-! ## Calls -/

/-- What a call finds in the buffer. -/
theorem inputGet_answer (decodeChunk : List UInt8 → Option Chunk) (h : InBounds s) (cut : Cut)
    (rest : List UInt8) :
    ∃ s₁, InBounds s₁ ∧ s₁.pending = s.pending ++ (answer cut s rest).1.bytes ∧
      inputGet decodeChunk (answer cut s rest).1 s = .ok (takeChunk decodeChunk s₁) := by
  obtain ⟨hr, hfit⟩ := answer_fits h cut rest
  obtain ⟨s₁, hs₁, hin, hpend⟩ := receive_ok h hr hfit
  refine ⟨s₁, hin, hpend, ?_⟩
  rw [inputGet, hs₁]
  rfl

/-- The buffer after the look at its front: as it was, or without its first frame. -/
theorem takeChunk_state (decodeChunk : List UInt8 → Option Chunk) (h : InBounds s) :
    InBounds (takeChunk decodeChunk s).2 ∧ (takeChunk decodeChunk s).2.pending =
      match deframe s.pending with
      | some (body, tail) => if (decodeChunk body).isSome then tail else s.pending
      | none => s.pending := by
  cases hfront : deframe s.pending with
  | none =>
    rw [takeChunk_incomplete h (deframe_eq_none_iff.1 hfront)]
    exact ⟨h, rfl⟩
  | some front =>
    obtain ⟨body, tail⟩ := front
    obtain ⟨hb, hs⟩ := deframe_eq_some_iff.1 hfront
    cases hd : decodeChunk body with
    | none =>
      rw [takeChunk_undecodable h hs hb hd]
      exact ⟨h, by simp [hd]⟩
    | some c =>
      obtain ⟨s', hs', hin, htail⟩ := takeChunk_frame h hs hb hd
      rw [hs']
      exact ⟨hin, by simp [hd, htail]⟩

/-- The first of several calls. -/
theorem pull_cons_ok {cut : Cut} {cuts : List Cut} {replies : List Reply} {rest' : List UInt8}
    (h : pull decodeChunk (cut :: cuts) s rest = .ok (replies, s', rest')) :
    ∃ reply s₁ more, inputGet decodeChunk (answer cut s rest).1 s = .ok (reply, s₁) ∧
      pull decodeChunk cuts s₁ (answer cut s rest).2 = .ok (more, s', rest') := by
  obtain ⟨⟨reply, s₁⟩, hcall, h⟩ := bind_eq_ok.1 h
  obtain ⟨⟨more, s₂, rest₂⟩, hmore, h⟩ := bind_eq_ok.1 h
  obtain ⟨-, rfl, rfl⟩ : _ ∧ s₂ = s' ∧ rest₂ = rest' := by simpa using Except.ok.inj h
  exact ⟨reply, s₁, more, hcall, hmore⟩

/-- Calls return, whatever the bytes are. -/
theorem pull_ok (decodeChunk : List UInt8 → Option Chunk) (h : InBounds s) (cuts : List Cut)
    (rest : List UInt8) :
    ∃ replies s' rest', pull decodeChunk cuts s rest = .ok (replies, s', rest') ∧ InBounds s' := by
  induction cuts generalizing s rest with
  | nil => exact ⟨[], s, rest, rfl, h⟩
  | cons cut cuts ih =>
    obtain ⟨s₁, hin₁, -, hcall⟩ := inputGet_answer decodeChunk h cut rest
    obtain ⟨replies, s', rest', hpull, hin⟩ :=
      ih (takeChunk_state decodeChunk hin₁).1 (answer cut s rest).2
    refine ⟨(takeChunk decodeChunk s₁).1 :: replies, s', rest', ?_, hin⟩
    simp only [pull, hcall, hpull, bind, Except.bind]
    rfl

/-! ## Progress -/

/-- The next call takes the frame at the front off, whatever arrives with it. -/
def TakesFrame (decodeChunk : List UInt8 → Option Chunk) (s : State) : Prop :=
  ∀ body tail, deframe s.pending = some (body, tail) → ∀ cut rest, ∃ reply s',
    inputGet decodeChunk (answer cut s rest).1 s = .ok (reply, s') ∧
      s'.pending = tail ++ (answer cut s rest).1.bytes

/-- No calls take any byte off the buffer or receive any. -/
def Stuck (decodeChunk : List UInt8 → Option Chunk) (s : State) : Prop :=
  ∀ cuts rest replies s' rest', pull decodeChunk cuts s rest = .ok (replies, s', rest') →
    s'.pending = s.pending ∧ rest' = rest

structure Progresses (decodeChunk : List UInt8 → Option Chunk) (s : State) : Prop where
  takesFrame : TakesFrame decodeChunk s
  not_stuck : ¬ Stuck decodeChunk s

/-- A whole frame at the front decodes, and one that is not whole yet fits in the buffer. -/
structure GoodFront (decodeChunk : List UInt8 → Option Chunk) (s : State) : Prop where
  decodes : ∀ body tail, deframe s.pending = some (body, tail) → (decodeChunk body).isSome
  fits : s.pos = BUFSIZE → 4 + (frontSize s : Int) ≤ BUFSIZE

theorem takesFrame_iff (h : InBounds s) : TakesFrame decodeChunk s ↔
    ∀ body tail, deframe s.pending = some (body, tail) → (decodeChunk body).isSome := by
  constructor
  · intro htakes body tail hfront
    obtain ⟨reply, s', hcall, hpend⟩ := htakes body tail hfront .wouldBlock []
    obtain ⟨s₁, hin₁, hpend₁, hcall₁⟩ := inputGet_answer decodeChunk h .wouldBlock []
    have hpend₁ : s₁.pending = s.pending := hpend₁.trans (List.append_nil _)
    have hpend : s'.pending = tail := hpend.trans (List.append_nil _)
    obtain ⟨-, hstate⟩ := takeChunk_state decodeChunk hin₁
    have hsame : s' = (takeChunk decodeChunk s₁).2 :=
      congrArg Prod.snd (Except.ok.inj (hcall.symm.trans hcall₁))
    by_contra hnone
    rw [← hsame, hpend, hpend₁, hfront] at hstate
    simp only [if_neg hnone] at hstate
    obtain ⟨-, hsplit⟩ := deframe_eq_some_iff.1 hfront
    have hlen := congrArg List.length (hstate.trans hsplit)
    rw [List.length_append, length_frame] at hlen
    omega
  · intro hdec body tail hfront cut rest
    obtain ⟨s₁, hin₁, hpend₁, hcall₁⟩ := inputGet_answer decodeChunk h cut rest
    refine ⟨(takeChunk decodeChunk s₁).1, (takeChunk decodeChunk s₁).2, hcall₁, ?_⟩
    rw [(takeChunk_state decodeChunk hin₁).2, hpend₁, deframe_append hfront]
    exact if_pos (hdec body tail hfront)

/-- In a full buffer a frame that is not whole stays for ever. -/
theorem stuck_of_full (h : InBounds s) (hfull : s.pos = BUFSIZE) (hc : ¬ Complete s.pending) :
    Stuck decodeChunk s := by
  intro cuts
  induction cuts generalizing s with
  | nil =>
    intro rest replies s' rest' hpull
    obtain ⟨-, rfl, rfl⟩ : [] = replies ∧ s = s' ∧ rest = rest' := by
      simpa [pull] using hpull
    exact ⟨rfl, rfl⟩
  | cons cut cuts ih =>
    intro rest replies s' rest' hpull
    obtain ⟨s₁, hin₁, hpend₁, hcall⟩ := inputGet_answer decodeChunk h cut rest
    have hnothing : (answer cut s rest).1.bytes = [] ∧ (answer cut s rest).2 = rest := by
      cases cut with
      | wouldBlock => exact ⟨rfl, rfl⟩
      | bytes n => simp [answer, RecvResult.bytes, hfull]
    rw [hnothing.1, List.append_nil] at hpend₁
    have hpos₁ : s₁.pos = BUFSIZE := by
      have hlen := congrArg List.length hpend₁
      rw [length_pending, length_pending] at hlen
      have h0 := hin₁.nonneg
      have h0' := h.nonneg
      omega
    have hc₁ : ¬ Complete s₁.pending := hpend₁ ▸ hc
    rw [takeChunk_incomplete hin₁ hc₁] at hcall
    obtain ⟨reply, s₂, more, hcall₂, hmore⟩ := pull_cons_ok hpull
    obtain ⟨-, rfl⟩ := Prod.mk.inj (Except.ok.inj (hcall₂.symm.trans hcall))
    rw [hnothing.2] at hmore
    obtain ⟨hpend, hrest⟩ := ih hin₁ hpos₁ hc₁ rest more s' rest' hmore
    exact ⟨hpend.trans hpend₁, hrest⟩

/-- In a buffer that is not full there is room for a byte. -/
theorem not_stuck_of_room (h : InBounds s) (hroom : s.pos < BUFSIZE) : ¬ Stuck decodeChunk s := by
  intro hstuck
  obtain ⟨s₁, -, -, hcall⟩ := inputGet_answer decodeChunk h (.bytes 1) [0]
  have hrest : (answer (.bytes 1) s [0]).2 = [] := by
    have hone : min 1 (BUFSIZE - s.pos).toNat = 1 := by omega
    simp only [answer, hone]
    rfl
  have hpull : pull decodeChunk [.bytes 1] s [0] =
      .ok ([(takeChunk decodeChunk s₁).1], (takeChunk decodeChunk s₁).2, []) := by
    simp only [pull, hcall, hrest, bind, Except.bind]
    rfl
  exact absurd (hstuck _ _ _ _ _ hpull).2.symm (List.cons_ne_nil _ _)

/-- A frame that is taken off leaves the buffer. -/
theorem not_stuck_of_takesFrame (htakes : TakesFrame decodeChunk s) (hc : Complete s.pending) :
    ¬ Stuck decodeChunk s := by
  intro hstuck
  obtain ⟨⟨body, tail⟩, hfront⟩ := Option.ne_none_iff_exists'.1 fun h =>
    deframe_eq_none_iff.1 h hc
  obtain ⟨reply, s', hcall, hpend⟩ := htakes body tail hfront .wouldBlock []
  have hpull : pull decodeChunk [.wouldBlock] s [] = .ok ([reply], s', []) := by
    simp only [pull, hcall, bind, Except.bind]
    rfl
  have hsame := (hstuck _ _ _ _ _ hpull).1
  obtain ⟨-, hsplit⟩ := deframe_eq_some_iff.1 hfront
  have hlen := congrArg List.length (hpend.symm.trans (hsame.trans hsplit))
  have hbytes : (answer .wouldBlock s []).1.bytes = [] := rfl
  rw [hbytes, List.append_nil, List.length_append, length_frame] at hlen
  omega

/-- The input makes progress in a state if and only if the frame at the front is a good one. -/
theorem progresses_iff_goodFront (h : InBounds s) :
    Progresses decodeChunk s ↔ GoodFront decodeChunk s := by
  have hwhole : s.pos = BUFSIZE → (4 + (frontSize s : Int) ≤ BUFSIZE ↔ Complete s.pending) := by
    intro hfull
    rw [← complete_iff h, hfull]
    have hsize : sizeT BUFSIZE = BUFSIZE := by decide
    rw [hsize]
    exact (and_iff_right (by decide)).symm
  constructor
  · intro hp
    refine ⟨(takesFrame_iff h).1 hp.takesFrame, fun hfull => ?_⟩
    by_contra hlong
    exact hp.not_stuck (stuck_of_full h hfull fun hc => hlong ((hwhole hfull).2 hc))
  · intro hg
    have htakes := (takesFrame_iff h).2 hg.decodes
    refine ⟨htakes, ?_⟩
    by_cases hfull : s.pos = BUFSIZE
    · exact not_stuck_of_takesFrame htakes ((hwhole hfull).1 (hg.fits hfull))
    · have hle := h.bounded
      exact not_stuck_of_room h (by omega)

/-! ## Runs -/

/-- The input makes progress in every state of the run. -/
def ProgressesAlong (decodeChunk : List UInt8 → Option Chunk) (cuts : List Cut) (s₀ : State)
    (rest : List UInt8) : Prop :=
  ∀ pre, pre <+: cuts → ∃ replies s rest',
    pull decodeChunk pre s₀ rest = .ok (replies, s, rest') ∧ Progresses decodeChunk s

/-- Whatever the buffer holds and whatever arrives, the input makes progress throughout a run if and
only if it finds a good frame at the front in every state. -/
theorem progressesAlong_iff (decodeChunk : List UInt8 → Option Chunk) (cuts : List Cut) {s₀ : State}
    (h : InBounds s₀) (rest : List UInt8) :
    ProgressesAlong decodeChunk cuts s₀ rest ↔
      ∀ pre, pre <+: cuts → ∀ replies s rest',
        pull decodeChunk pre s₀ rest = .ok (replies, s, rest') → GoodFront decodeChunk s := by
  constructor
  · intro hall pre hpre replies s rest' hpull
    obtain ⟨_, t, _, hpull₁, hp⟩ := hall pre hpre
    obtain ⟨_, t', _, hpull₂, hin⟩ := pull_ok decodeChunk h pre rest
    obtain rfl : t = s := congrArg (fun r => r.2.1) (Except.ok.inj (hpull₁.symm.trans hpull))
    obtain rfl : t' = t := congrArg (fun r => r.2.1) (Except.ok.inj (hpull₂.symm.trans hpull₁))
    exact (progresses_iff_goodFront hin).1 hp
  · intro hall pre hpre
    obtain ⟨replies, s, rest', hpull, hin⟩ := pull_ok decodeChunk h pre rest
    exact ⟨replies, s, rest', hpull,
      (progresses_iff_goodFront hin).2 (hall pre hpre replies s rest' hpull)⟩

theorem inBounds_init : InBounds .init := ⟨Int.le_refl 0, by show (0 : Int) ≤ _; decide⟩

/-- A frame without a body does not decode. -/
theorem not_progressesAlong_empty :
    ¬ ProgressesAlong decodeLayout [.bytes 4] .init [0, 0, 0, 0] := by
  intro h
  obtain ⟨replies, s, rest, hpull, hp⟩ := h _ (List.prefix_refl _)
  obtain ⟨_, t, _, hpull', hin⟩ := pull_ok decodeLayout inBounds_init [.bytes 4] [0, 0, 0, 0]
  obtain rfl : t = s := congrArg (fun r => r.2.1) (Except.ok.inj (hpull'.symm.trans hpull))
  have hrun : (pull decodeLayout [.bytes 4] .init [0, 0, 0, 0]).toOption.any
      (fun r => deframe r.2.1.pending = some ([], [])) = true := by decide +kernel
  obtain ⟨r, hr, hfront⟩ := eq_ok_of_any hrun
  obtain rfl : r = (replies, t, rest) := Except.ok.inj (hr.symm.trans hpull)
  have hdec := (takesFrame_iff hin).1 hp.takesFrame [] [] (of_decide_eq_true hfront)
  exact absurd hdec (by decide)

/-- Two frames that decode, and half of the length field of the next. -/
def twoFrames : List UInt8 :=
  frame (layout ⟨1, 0, [7], []⟩) ++ frame (layout ⟨2, 0, [7, 8], []⟩) ++ [0, 0]

/-- The first frame comes in two pieces, the second one with the end of the first. -/
def pieces : List Cut := [.bytes 10, .bytes 1000, .wouldBlock]

theorem progressesAlong_iff_twoFrames : ProgressesAlong decodeLayout pieces .init twoFrames := by
  refine (progressesAlong_iff decodeLayout pieces inBounds_init twoFrames).2 ?_
  intro pre hpre replies s rest hpull
  have hrun : ∀ p ∈ pieces.inits, (pull decodeLayout p .init twoFrames).toOption.any
      (fun r => (deframe r.2.1.pending).all (fun f => (decodeLayout f.1).isSome) ∧
        r.2.1.pos ≠ BUFSIZE) = true := by decide +kernel
  obtain ⟨r, hr, hstate⟩ := eq_ok_of_any (hrun pre ((List.mem_inits ..).2 hpre))
  obtain rfl : r = (replies, s, rest) := Except.ok.inj (hr.symm.trans hpull)
  obtain ⟨hall, hpos⟩ := of_decide_eq_true hstate
  refine ⟨fun body tail hfront => ?_, fun hfull => absurd hfull hpos⟩
  rw [hfront] at hall
  exact hall

end PeerStreamer.InputChunkstream
