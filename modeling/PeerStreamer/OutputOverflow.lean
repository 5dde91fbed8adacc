import PeerStreamer.OutputGrapesProof

/-!
# The ids at which the reorder buffer overflows

`output_deliver` adds `buff_size` to `next_chunk` before it looks at an id, and one to the id it has
played.  A call goes wrong if it finds `next_chunk` in the last `buff_size` ids, or if the last id of
all is next to play when it arrives (`outputDeliver_overflow`).  Any other call returns, so that a run
is in order as long as every one of its calls fits (`sound_iff`).
-/

namespace PeerStreamer

open OutputState

variable {cfg : OutputConfig} {accepted : List Chunk} {s s' : OutputState} {c : Chunk}

theorem int_overflow {x : Int} (h : INT_MAX < x) : int x = .error .overflow :=
  if_neg fun hx => not_lt.2 hx.2 h

/-! ## One call -/

/-- The last id of all is next to play, or there are fewer than `buff_size` ids from `nextChunk` on. -/
theorem deliver_overflow (hB : 0 < cfg.buffSize) (hd : DistinctIds accepted)
    (st : Settled cfg accepted s) (hc : s.nextChunk ≤ c.id) (hmax : c.id ≤ INT_MAX)
    (hfits : ¬ Fits cfg s c) :
    (makeRoom cfg c s >>= playOrStore cfg c) = .error .overflow := by
  by_cases hahead : s.nextChunk + cfg.buffSize ≤ INT_MAX
  · have hlast : c.id = INT_MAX ∧
        ∀ x, INT_MAX - cfg.buffSize < x → x < INT_MAX → ∃ d, Ring.Stored s.buff d ∧ d.id = x := by
      by_contra hnot
      refine hfits ⟨hahead, fun hid => ?_⟩
      by_contra hall
      refine hnot ⟨hid, fun x hx hx' => ?_⟩
      by_contra habsent
      exact hall ⟨x, hx, hx', fun d hs he => habsent ⟨d, hs, he⟩⟩
    obtain ⟨hid, hstored⟩ := hlast
    obtain ⟨s₁, hs₁, st₁, hempty, hle, hle', -⟩ := makeRoom_stage hB hd st hc hahead hmax
    have hnext : s₁.nextChunk = INT_MAX := by
      by_contra hne
      obtain ⟨d, hs, he⟩ := hstored s₁.nextChunk (by omega) (by omega)
      exact st₁.next_absent hempty ((st.stage.stored d).1 hs).1 he
    refine bind_eq_error.2 (.inr ⟨s₁, hs₁, ?_⟩)
    have hint : int (s₁.nextChunk + 1) = .error .overflow := int_overflow (by omega)
    simp only [playOrStore, if_pos (hid.trans hnext.symm), log_nextChunk, playOut_nextChunk, hint]
    rfl
  · refine bind_eq_error.2 (.inl (bind_eq_error.2 (.inl ?_)))
    exact int_overflow (not_le.1 hahead)

/-- The state of the output before a call: untouched, or settled. -/
def Ready (cfg : OutputConfig) (s : OutputState) : Prop :=
  s = init ∨ ∃ accepted, DistinctIds accepted ∧ Settled cfg accepted s

/-- The first chunk sets `nextChunk`. -/
def started (c : Chunk) (s : OutputState) : OutputState :=
  { s with nextChunk := if s.nextChunk = -1 then c.id else s.nextChunk }

/-- The chunk is late, or the values of the call stay in range. -/
def InBounds (cfg : OutputConfig) (s : OutputState) (c : Chunk) : Prop :=
  c.id < s.nextChunk ∨ Fits cfg (started c s) c

theorem fits_congr (hnext : s'.nextChunk = s.nextChunk) (hbuff : s'.buff = s.buff) (c : Chunk) :
    Fits cfg s' c ↔ Fits cfg s c := by
  constructor
  · intro h
    exact ⟨hnext ▸ h.ahead, hbuff ▸ h.last⟩
  · intro h
    exact ⟨hnext ▸ h.ahead, hbuff ▸ h.last⟩

/-- What a chunk that is not late finds. -/
theorem Ready.entered (h : Ready cfg s) (hc : 0 ≤ c.id) (hle : s.nextChunk ≤ c.id) :
    ∃ accepted, DistinctIds accepted ∧ Settled cfg accepted (entered cfg c s) ∧
      (PeerStreamer.entered cfg c s).nextChunk ≤ c.id ∧
      (InBounds cfg s c ↔ Fits cfg (PeerStreamer.entered cfg c s) c) := by
  have hbounds : (PeerStreamer.entered cfg c s).nextChunk = (started c s).nextChunk →
      (InBounds cfg s c ↔ Fits cfg (PeerStreamer.entered cfg c s) c) := by
    intro hnext
    rw [InBounds, or_iff_right (not_lt.2 hle)]
    exact (fits_congr hnext (entered_buff c s) c).symm
  rcases h with rfl | ⟨accepted, hd, st⟩
  · obtain ⟨st, hnext⟩ := settled_entered_init hc
    exact ⟨[], fun a ha => absurd ha List.not_mem_nil, st, hnext.le,
      hbounds (hnext.trans rfl)⟩
  · obtain ⟨st', hnext⟩ := st.entered c
    have hfirst : s.nextChunk ≠ -1 := by have := st.stage.nonneg; omega
    exact ⟨accepted, hd, st', hnext.trans_le hle, hbounds (hnext.trans (if_neg hfirst).symm)⟩

/-- A call that is in bounds returns. -/
theorem outputDeliver_ready (hB : 0 < cfg.buffSize) (h : Ready cfg s) (hc : 0 ≤ c.id)
    (hmax : c.id ≤ INT_MAX) (hbounds : InBounds cfg s c) :
    ∃ s', outputDeliver cfg c s = .ok s' ∧ Ready cfg s' ∧ 0 ≤ s'.nextChunk := by
  by_cases hlate : c.id < s.nextChunk
  · rcases h with rfl | ⟨accepted, hd, st⟩
    · have : c.id < -1 := hlate
      omega
    · obtain ⟨s', hs', st', -⟩ := outputDeliver_late st hlate
      exact ⟨s', hs', .inr ⟨accepted, hd, st'⟩, st'.stage.nonneg⟩
  · have hle := not_lt.1 hlate
    obtain ⟨accepted, hd, st, hle', hiff⟩ := h.entered hc hle
    obtain ⟨s', hs', st', -⟩ := deliver_settled hB hd st hle' hmax (hiff.1 hbounds)
    rw [outputDeliver_of_le hle]
    exact ⟨s', hs', .inr ⟨_, hd.acceptNew c, st'⟩, st'.stage.nonneg⟩

/-- A call that is not in bounds overflows. -/
theorem outputDeliver_overflow (hB : 0 < cfg.buffSize) (h : Ready cfg s) (hc : 0 ≤ c.id)
    (hmax : c.id ≤ INT_MAX) (hbounds : ¬ InBounds cfg s c) :
    outputDeliver cfg c s = .error .overflow := by
  have hle : s.nextChunk ≤ c.id := not_lt.1 fun hlate => hbounds (.inl hlate)
  obtain ⟨accepted, hd, st, hle', hiff⟩ := h.entered hc hle
  rw [outputDeliver_of_le hle]
  exact deliver_overflow hB hd st hle' hmax fun hfits => hbounds (hiff.2 hfits)

/-! ## Runs -/

/-- A run without an overflow leaves the output ready. -/
theorem deliverAll_ready (hB : 0 < cfg.buffSize) {cs : List Chunk}
    (hcs : ∀ c ∈ cs, 0 ≤ c.id ∧ c.id ≤ INT_MAX) (h : deliverAll cfg cs = .ok s) :
    Ready cfg s ∧ (cs ≠ [] → 0 ≤ s.nextChunk) := by
  induction cs using List.reverseRecOn generalizing s with
  | nil =>
    obtain rfl : init = s := Except.ok.inj h
    exact ⟨.inl rfl, fun hne => absurd rfl hne⟩
  | append_singleton cs c ih =>
    rw [deliverAll_concat] at h
    obtain ⟨s₁, hs₁, hs⟩ := bind_eq_ok.1 h
    obtain ⟨hc, hmax⟩ := hcs c (by simp)
    have ready := (ih (fun a ha => hcs a (by simp [ha])) hs₁).1
    have hbounds : InBounds cfg s₁ c := by
      by_contra hnot
      rw [outputDeliver_overflow hB ready hc hmax hnot] at hs
      cases hs
    obtain ⟨s', hs', hready, hnonneg⟩ := outputDeliver_ready hB ready hc hmax hbounds
    rw [hs] at hs'
    obtain rfl := Except.ok.inj hs'
    exact ⟨hready, fun _ => hnonneg⟩

/-- Throughout the run no value overflows, and `nextChunk` is not negative after the first call. -/
def Sound (cfg : OutputConfig) (cs : List Chunk) : Prop :=
  ∀ pre, pre <+: cs → ∃ s, deliverAll cfg pre = .ok s ∧ (pre ≠ [] → 0 ≤ s.nextChunk)

/-- A run is sound if and only if every call is in bounds. -/
theorem sound_iff (hB : 1 ≤ cfg.buffSize) (hB' : cfg.buffSize ≤ 2 ^ 16) (cs : List Chunk)
    (hcs : ∀ c ∈ cs, 0 ≤ c.id ∧ c.id ≤ INT_MAX) :
    Sound cfg cs ↔
      ∀ pre c, pre ++ [c] <+: cs → ∀ s, deliverAll cfg pre = .ok s → InBounds cfg s c := by
  have hpos : 0 < cfg.buffSize := by omega
  constructor
  · intro h pre c hp s hs
    obtain ⟨hc, hmax⟩ := hcs c (hp.subset (by simp))
    have ready := (deliverAll_ready hpos (fun a ha => hcs a (hp.subset (by simp [ha]))) hs).1
    obtain ⟨s', hs', -⟩ := h _ hp
    by_contra hnot
    rw [deliverAll_concat, hs] at hs'
    have herror := outputDeliver_overflow hpos ready hc hmax hnot
    exact absurd (herror.symm.trans hs') nofun
  · intro h pre
    induction pre using List.reverseRecOn with
    | nil => exact fun _ => ⟨init, rfl, fun hne => absurd rfl hne⟩
    | append_singleton pre c ih =>
      intro hp
      have hpre : pre <+: cs := (List.prefix_append pre [c]).trans hp
      obtain ⟨s, hs, -⟩ := ih hpre
      obtain ⟨hc, hmax⟩ := hcs c (hp.subset (by simp))
      have ready := (deliverAll_ready hpos (fun a ha => hcs a (hpre.subset ha)) hs).1
      obtain ⟨s', hs', -, hnonneg⟩ := outputDeliver_ready hpos ready hc hmax (h pre c hp s hs)
      refine ⟨s', ?_, fun _ => hnonneg⟩
      rw [deliverAll_concat, hs]
      exact hs'

/-- The last id that a source starts with comes first. -/
theorem not_sound_start : ¬ Sound ⟨8, -1, -1, true⟩ [⟨2147483646, 0, [7], []⟩] := by
  intro h
  obtain ⟨s, hs, -⟩ := h _ (List.prefix_refl _)
  cases hs

/-- The last id of all waits for a missing chunk. -/
theorem sound_iff_last : Sound ⟨2, -1, -1, true⟩
    [⟨2147483644, 0, [7], []⟩, ⟨2147483647, 0, [8], []⟩] := by
  refine (sound_iff (by decide) (by decide) _ (by decide)).2 ?_
  intro pre c hp s hs
  rcases pre with _ | ⟨a, _ | ⟨b, pre⟩⟩
  · obtain rfl : c = ⟨2147483644, 0, [7], []⟩ := by simpa using hp
    obtain rfl : init = s := Except.ok.inj hs
    exact .inr ⟨by decide, fun hid => absurd hid (by decide)⟩
  · obtain ⟨rfl, rfl⟩ : a = ⟨2147483644, 0, [7], []⟩ ∧ c = ⟨2147483647, 0, [8], []⟩ := by
      simpa [List.cons_prefix_cons] using hp
    obtain rfl := Except.ok.inj hs
    refine .inr ⟨by decide, fun _ => ⟨2147483646, by decide, by decide, ?_⟩⟩
    rintro d ⟨k, hk⟩
    cases hk
  · have hlen := hp.length_le
    simp at hlen

end PeerStreamer
