import Mathlib.Algebra.Order.Field.Basic
import Mathlib.Data.Rat.Floor
import Mathlib.Tactic.Linarith
import Mathlib.Tactic.Positivity
import Mathlib.Tactic.Ring
import PeerStreamer.Lib.Run
import PeerStreamer.RateControl

/-!
# The limits of the offer period

`update_period` takes one of four branches; two make the period shorter and two make it longer, and
each checks the limit on its own side only.  The other side is kept when the time since the last
update is not negative, and otherwise in a few cases more (`Steady`).  In a run the period stays
within its limits and moves the right way exactly as long as every update is steady
(`along_kept_iff`).
-/

namespace PeerStreamer.RateControl

variable {K : Type} [Field K] [LinearOrder K]

/-- An accept, or the delay of an acknowledgement and the time it is handled at. -/
inductive Sample (K : Type) where
  | accept (accepted : Bool)
  | ack (delay : K) (tnow : Timeval)

/-- What the samples do, with the periods they lead to. -/
def react [FloorRing K] (cfg : Config K) (i : Sample K) (s : State K) :
    Except Fault (State K × List Int) :=
  match i with
  | .accept accepted => .ok (updateOfferAccept cfg accepted s, [])
  | .ack delay tnow => do
    let (s, _) ← updateAccToAck cfg (fun _ => tnow) delay s 0
    return (s, [s.period.toUsec])

def InLimits (s : State K) : Prop := PERIOD_MIN ≤ s.period.toUsec ∧ s.period.toUsec ≤ PERIOD_MAX

instance (s : State K) : Decidable (InLimits s) := inferInstanceAs (Decidable (_ ∧ _))

/-! ## The four branches -/

omit [LinearOrder K] in
/-- `period_initial`, set by the first update. -/
def initial (s : State K) : Int :=
  if s.periodInitial = 0 then s.period.toUsec else s.periodInitial

omit [LinearOrder K] in
def dPeriod (cfg : Config K) (s : State K) : K :=
  cfg.log s.period.toUsec - cfg.log (initial s)

omit [LinearOrder K] in
def dAccToAck (cfg : Config K) (s : State K) : K :=
  (s.accToAck - cfg.accToAckMax) / cfg.accToAckMax

/-- The branches "be faster" and "recover speed". -/
def SpeedsUp (cfg : Config K) (s : State K) : Prop :=
  if dPeriod cfg s < 0 then s.offerAccept - cfg.offerAcceptMin > 0 ∧ dAccToAck cfg s < 0
  else ¬ dAccToAck cfg s > 0

instance (cfg : Config K) (s : State K) : Decidable (SpeedsUp cfg s) :=
  inferInstanceAs (Decidable (if dPeriod cfg s < 0
    then s.offerAccept - cfg.offerAcceptMin > 0 ∧ dAccToAck cfg s < 0 else ¬ dAccToAck cfg s > 0))

/-- The change rate of the branch that is taken. -/
def changeRate (cfg : Config K) (s : State K) : K :=
  if SpeedsUp cfg s then
    if dPeriod cfg s < 0 then cfg.periodChangeRateDown
    else cfg.periodChangeRateDown * (1 + |dPeriod cfg s|)
  else
    if dPeriod cfg s < 0 then cfg.periodChangeRateUp * (1 + |dPeriod cfg s|)
    else cfg.periodChangeRateUp

variable [FloorRing K]

theorem updatePeriod_eq {cfg : Config K} (hmax : cfg.accToAckMax ≠ 0) (tnow : Timeval)
    (s : State K) :
    updatePeriod cfg tnow s =
      if SpeedsUp cfg s then
        speedUp (changeRate cfg s) (elapsed tnow s)
          { s with periodInitial := initial s, periodLastUpdated := tnow }
      else
        slowDown (changeRate cfg s) (elapsed tnow s)
          { s with periodInitial := initial s, periodLastUpdated := tnow } := by
  have hstart : (if s.periodInitial = 0 then { s with periodInitial := s.period.toUsec } else s) =
      { s with periodInitial := initial s } := by
    unfold initial
    split_ifs <;> rfl
  have hquotient : quotient (s.accToAck - cfg.accToAckMax) cfg.accToAckMax =
      .ok (dAccToAck cfg s) := if_neg hmax
  unfold updatePeriod
  simp only [hstart, hquotient, bind, Except.bind]
  change (if dPeriod cfg s < 0 then _ else _) = _
  unfold changeRate
  by_cases hfast : dPeriod cfg s < 0
  · have hiff : SpeedsUp cfg s ↔ s.offerAccept - cfg.offerAcceptMin > 0 ∧ dAccToAck cfg s < 0 := by
      unfold SpeedsUp
      rw [if_pos hfast]
    simp only [hiff, if_pos hfast]
    split_ifs <;> rfl
  · have hiff : SpeedsUp cfg s ↔ ¬ dAccToAck cfg s > 0 := by
      unfold SpeedsUp
      rw [if_neg hfast]
    simp only [hiff, if_neg hfast]
    split_ifs <;> rfl

/-! ## What is set -/

omit [FloorRing K] in
theorem periodMin_pos : 0 < PERIOD_MIN := by decide

variable [IsStrictOrderedRing K]

/-- The conversion cuts off the fraction, so it does not cross a positive number. -/
theorem le_of_toInt64 {x : K} {t b : Int} (h : toInt64 x = .ok t) (hb : 0 < b) :
    b ≤ t ↔ (b : K) ≤ x := by
  unfold toInt64 at h
  dsimp only at h
  split_ifs at h with hx
  · cases h
    exact Int.le_floor
  · cases h
    have hceil : ⌈x⌉ ≤ 0 := Int.ceil_le.2 (by push_cast; exact (not_le.1 hx).le)
    have hcast : (0 : K) < b := by exact_mod_cast hb
    constructor
    · intro hle
      omega
    · intro hle
      exact absurd (hcast.le.trans hle) hx

theorem toInt64_le {x : K} {t b : Int} (h : toInt64 x = .ok t) (hb : 0 ≤ b) :
    t ≤ b ↔ x < b + 1 := by
  unfold toInt64 at h
  dsimp only at h
  split_ifs at h with hx
  · cases h
    rw [← Int.lt_add_one_iff, Int.floor_lt]
    push_cast
    rfl
  · cases h
    have hceil : ⌈x⌉ ≤ 0 := Int.ceil_le.2 (by push_cast; exact (not_le.1 hx).le)
    have hcast : (0 : K) ≤ b := by exact_mod_cast hb
    constructor
    · intro _
      linarith [not_le.1 hx]
    · intro _
      omega

omit [IsStrictOrderedRing K] in
theorem toInt64_of_le {x : K} {b : Int} (h0 : 0 ≤ x) (h : x < b + 1) (hb : b < 2 ^ 63) :
    toInt64 x = .ok ⌊x⌋ := by
  have hfloor : ⌊x⌋ < b + 1 := Int.floor_lt.2 (by push_cast; exact h)
  have hnonneg : 0 ≤ ⌊x⌋ := Int.floor_nonneg.2 h0
  unfold toInt64
  simp only [if_pos h0]
  rw [if_pos]
  omega

/-- The period that is set is between two numbers exactly when the value given is. -/
theorem setPeriod_between {lo hi : Int} (hlo : 0 < lo) (hhi : 0 ≤ hi) (hmax : hi < 2 ^ 63) (x : K)
    (s : State K) :
    (∃ s', setPeriod x s = .ok s' ∧ lo ≤ s'.period.toUsec ∧ s'.period.toUsec ≤ hi) ↔
      (lo : K) ≤ x ∧ x < hi + 1 := by
  constructor
  · rintro ⟨s', hs', hle, hge⟩
    unfold setPeriod at hs'
    cases ht : toInt64 x with
    | error e =>
      rw [ht] at hs'
      cases hs'
    | ok t =>
      rw [ht] at hs'
      cases hs'
      rw [Timeval.toUsec_ofUsec] at hle hge
      exact ⟨(le_of_toInt64 ht hlo).1 hle, (toInt64_le ht hhi).1 hge⟩
  · rintro ⟨hle, hlt⟩
    have hcast : (0 : K) < lo := by exact_mod_cast hlo
    have ht := toInt64_of_le (hcast.le.trans hle) hlt hmax
    refine ⟨{ s with period := .ofUsec ⌊x⌋ }, ?_, ?_, ?_⟩
    · unfold setPeriod
      rw [ht]
      rfl
    · rw [Timeval.toUsec_ofUsec]
      exact (le_of_toInt64 ht hlo).2 hle
    · rw [Timeval.toUsec_ofUsec]
      exact (toInt64_le ht hhi).2 hlt

/-- A shorter period: the divisor may be below 1 as long as the quotient is cut down to the old
period, and a negative one gives the minimum. -/
theorem speedUp_between {rate dt : K} {s : State K} (h : InLimits s) :
    (∃ s', speedUp rate dt s = .ok s' ∧ PERIOD_MIN ≤ s'.period.toUsec ∧
        s'.period.toUsec ≤ s.period.toUsec) ↔
      factor rate dt < 0 ∨
        (s.period.toUsec : K) < (s.period.toUsec + 1) * factor rate dt := by
  obtain ⟨hmin, hmax⟩ := h
  generalize hp : s.period.toUsec = p at hmin hmax ⊢
  generalize hf : factor rate dt = f
  have hpos : (0 : K) < p := by exact_mod_cast periodMin_pos.trans_le hmin
  have hminK : (PERIOD_MIN : K) ≤ p := by exact_mod_cast hmin
  unfold speedUp
  rw [hf, hp]
  by_cases hzero : f = 0
  · subst hzero
    simp only [quotient, if_pos, bind, Except.bind, lt_irrefl, mul_zero, false_or]
    constructor
    · rintro ⟨s', hs', -⟩
      cases hs'
    · intro hlt
      exact absurd hlt hpos.not_gt
  · have hset := setPeriod_between (x := max (PERIOD_MIN : K) (p / f)) periodMin_pos
      (periodMin_pos.le.trans hmin) (hmax.trans_lt (by decide)) s
    simp only [quotient, if_neg hzero, bind, Except.bind]
    rw [hset]
    have hquot : max (PERIOD_MIN : K) (p / f) < p + 1 ↔ p / f < p + 1 := by
      rw [max_lt_iff]
      exact and_iff_right (by linarith)
    rw [hquot, and_iff_right (le_max_left ..)]
    rcases lt_or_gt_of_ne hzero with hneg | hposf
    · have : p / f < 0 := div_neg_of_pos_of_neg hpos hneg
      constructor
      · intro _
        exact Or.inl hneg
      · intro _
        linarith
    · rw [div_lt_iff₀ hposf]
      exact (or_iff_right hposf.not_gt).symm

/-- A longer period: the time must not be negative. -/
theorem slowDown_between {rate dt : K} {s : State K} (hrate : 0 < rate) (h : InLimits s) :
    (∃ s', slowDown rate dt s = .ok s' ∧ s.period.toUsec ≤ s'.period.toUsec ∧
        s'.period.toUsec ≤ PERIOD_MAX) ↔ 0 ≤ dt := by
  obtain ⟨hmin, hmax⟩ := h
  generalize hp : s.period.toUsec = p at hmin hmax ⊢
  have hpos : 0 < p := periodMin_pos.trans_le hmin
  have hposK : (0 : K) < p := by exact_mod_cast hpos
  have hmaxK : (p : K) ≤ PERIOD_MAX := by exact_mod_cast hmax
  unfold slowDown factor
  rw [hp, setPeriod_between hpos (by decide) (by decide), le_min_iff, and_iff_right hmaxK,
    le_mul_iff_one_le_right hposK]
  constructor
  · rintro ⟨hle, -⟩
    by_contra hneg
    have : rate * dt < 0 := mul_neg_of_pos_of_neg hrate (not_le.1 hneg)
    linarith
  · intro hdt
    have := mul_nonneg hrate.le hdt
    exact ⟨by linarith, (min_le_left ..).trans_lt (lt_add_one _)⟩

/-! ## Runs -/

/-- The state a sample leads to before the period is updated. -/
def sampled (cfg : Config K) (i : Sample K) (s : State K) : State K :=
  match i with
  | .accept accepted => updateOfferAccept cfg accepted s
  | .ack delay _ => { s with accToAck := delay }

/-- The sample is handled, the period stays within its limits, and it does not move against the
branch that is taken. -/
def Kept (cfg : Config K) (s : State K) (i : Sample K) : Prop :=
  ∃ s' out, react cfg i s = .ok (s', out) ∧ InLimits s' ∧
    if SpeedsUp cfg (sampled cfg i s) then s'.period.toUsec ≤ s.period.toUsec
    else s.period.toUsec ≤ s'.period.toUsec

/-- An update with a time that is not negative is steady.  A shorter period may also be divided by
a number below zero, or by one so close to 1 that the fraction is cut off. -/
def Steady (cfg : Config K) (s : State K) (i : Sample K) : Prop :=
  match i with
  | .accept _ => True
  | .ack _ tnow =>
    cfg.autotunePeriod = true →
      if SpeedsUp cfg (sampled cfg i s) then
        let divisor := factor (changeRate cfg (sampled cfg i s)) (elapsed tnow s)
        divisor < 0 ∨ (s.period.toUsec : K) < (s.period.toUsec + 1) * divisor
      else 0 ≤ elapsed tnow s

variable {cfg : Config K}

omit [FloorRing K] in
theorem changeRate_pos (hup : 0 < cfg.periodChangeRateUp) (hdown : 0 < cfg.periodChangeRateDown)
    (s : State K) : 0 < changeRate cfg s := by
  have hfactor : 0 < 1 + |dPeriod cfg s| := by
    linarith [abs_nonneg (dPeriod cfg s)]
  unfold changeRate
  split_ifs
  · exact hdown
  · exact mul_pos hdown hfactor
  · exact mul_pos hup hfactor
  · exact hup

omit [IsStrictOrderedRing K] in
theorem kept_accept (accepted : Bool) {s : State K} (h : InLimits s) :
    Kept cfg s (.accept accepted) := by
  refine ⟨_, [], rfl, h, ?_⟩
  split_ifs
  · exact le_rfl
  · exact le_rfl

omit [Field K] [LinearOrder K] [FloorRing K] [IsStrictOrderedRing K] in
theorem exists_return_iff {x : Except Fault (State K)} {f : State K → List Int}
    {p : State K → Prop} :
    (∃ s' out, (x >>= fun s' => return (s', f s')) = .ok (s', out) ∧ p s') ↔
      ∃ s', x = .ok s' ∧ p s' := by
  cases x with
  | error e => simp [bind, Except.bind]
  | ok s' => simp [bind, Except.bind, pure, Except.pure]

omit [IsStrictOrderedRing K] in
/-- With the tuning off only the sample is stored. -/
theorem kept_untuned (htune : cfg.autotunePeriod ≠ true) (delay : K) (tnow : Timeval) {s : State K}
    (h : InLimits s) : Kept cfg s (.ack delay tnow) := by
  have hreact : react cfg (.ack delay tnow) s =
      .ok ({ s with accToAck := delay }, [s.period.toUsec]) := by
    unfold react updateAccToAck
    simp only [htune]
    rfl
  refine ⟨_, _, hreact, h, ?_⟩
  split_ifs
  · exact le_rfl
  · exact le_rfl

omit [IsStrictOrderedRing K] in
/-- With the tuning on the period of the sampled state is updated. -/
theorem kept_tuned_iff (htune : cfg.autotunePeriod = true) (delay : K) (tnow : Timeval)
    (s : State K) :
    Kept cfg s (.ack delay tnow) ↔
      ∃ s', updatePeriod cfg tnow (sampled cfg (.ack delay tnow) s) = .ok s' ∧ InLimits s' ∧
        if SpeedsUp cfg (sampled cfg (.ack delay tnow) s) then s'.period.toUsec ≤ s.period.toUsec
        else s.period.toUsec ≤ s'.period.toUsec := by
  have hreact : react cfg (.ack delay tnow) s = (do
      let s' ← updatePeriod cfg tnow (sampled cfg (.ack delay tnow) s)
      return (s', [s'.period.toUsec])) := by
    unfold react updateAccToAck
    simp only [htune, if_true, sampled, bind, Except.bind]
    cases updatePeriod cfg tnow { s with accToAck := delay } <;> rfl
  unfold Kept
  rw [hreact]
  exact exists_return_iff

/-- One step: the update keeps the limits exactly when it is steady. -/
theorem kept_iff (hup : 0 < cfg.periodChangeRateUp) (hdown : 0 < cfg.periodChangeRateDown)
    (hmax : 0 < cfg.accToAckMax) {s : State K} (h : InLimits s) (i : Sample K) :
    Kept cfg s i ↔ Steady cfg s i := by
  cases i with
  | accept accepted => exact iff_of_true (kept_accept accepted h) trivial
  | ack delay tnow =>
    by_cases htune : cfg.autotunePeriod = true
    · set u := sampled cfg (.ack delay tnow) s with hu
      have hsteady : Steady cfg s (.ack delay tnow) ↔ if SpeedsUp cfg u then
          factor (changeRate cfg u) (elapsed tnow u : K) < 0 ∨
            (u.period.toUsec : K) <
              (u.period.toUsec + 1) * factor (changeRate cfg u) (elapsed tnow u : K)
          else 0 ≤ elapsed tnow u := forall_prop_of_true htune
      -- The state that `update_period` changes has the same period.
      set v : State K := { u with periodInitial := initial u, periodLastUpdated := tnow } with hv
      have hlim : InLimits v := h
      rw [kept_tuned_iff htune, ← hu, hsteady, updatePeriod_eq hmax.ne']
      by_cases hspeed : SpeedsUp cfg u
      · simp only [if_pos hspeed]
        rw [show u.period = v.period from rfl, ← speedUp_between hlim]
        constructor
        · rintro ⟨s', hs', ⟨hmin, -⟩, hle⟩
          exact ⟨s', hs', hmin, hle⟩
        · rintro ⟨s', hs', hmin, hle⟩
          exact ⟨s', hs', ⟨hmin, hle.trans h.2⟩, hle⟩
      · simp only [if_neg hspeed]
        rw [← Int.cast_nonneg_iff (R := K),
          ← slowDown_between (changeRate_pos hup hdown u) hlim]
        constructor
        · rintro ⟨s', hs', ⟨-, hmax'⟩, hle⟩
          exact ⟨s', hs', hle, hmax'⟩
        · rintro ⟨s', hs', hle, hmax'⟩
          exact ⟨s', hs', ⟨h.1.trans hle, hmax'⟩, hle⟩
    · exact iff_of_true (kept_untuned htune delay tnow h) fun ht => absurd ht htune

/-- In a run from a period within its limits, every update keeps them and moves the right way if
and only if every update is steady. -/
theorem along_kept_iff (hup : 0 < cfg.periodChangeRateUp) (hdown : 0 < cfg.periodChangeRateDown)
    (hmax : 0 < cfg.accToAckMax) {s₀ : State K} (h : InLimits s₀) (is : List (Sample K)) :
    Run.Along (react cfg) (Kept cfg) is s₀ ↔ Run.Along (react cfg) (Steady cfg) is s₀ := by
  induction is generalizing s₀ with
  | nil => exact iff_of_true Run.along_nil Run.along_nil
  | cons i is ih =>
    rw [Run.along_cons, Run.along_cons, kept_iff hup hdown hmax h]
    refine and_congr_right fun hsteady => ?_
    obtain ⟨s', out, hs', hlim, -⟩ := (kept_iff hup hdown hmax h i).2 hsteady
    constructor
    · intro hall t out' ht
      obtain ⟨rfl, -⟩ := Prod.mk.inj (Except.ok.inj (hs'.symm.trans ht))
      exact (ih hlim).1 (hall _ _ ht)
    · intro hall t out' ht
      obtain ⟨rfl, -⟩ := Prod.mk.inj (Except.ok.inj (hs'.symm.trans ht))
      exact (ih hlim).2 (hall _ _ ht)

/-! ## A clock that does not go backwards -/

omit [LinearOrder K] [FloorRing K] [IsStrictOrderedRing K] [Field K] in
/-- The times the acknowledgements are handled at. -/
def readings (is : List (Sample K)) : List Timeval :=
  is.filterMap fun
    | .accept _ => none
    | .ack _ tnow => some tnow

omit [Field K] [LinearOrder K] [FloorRing K] [IsStrictOrderedRing K] in
theorem elapsed_nonneg {s : State K} {tnow : Timeval} (h : InLimits s)
    (hle : s.periodLastUpdated.toUsec ≤ tnow.toUsec) : 0 ≤ elapsed tnow s := by
  have hmin := periodMin_pos.trans_le h.1
  unfold elapsed
  split_ifs
  · exact le_min (by omega) (by decide)
  · exact hmin.le

theorem steady_of_forward (hup : 0 < cfg.periodChangeRateUp)
    (hdown : 0 < cfg.periodChangeRateDown) {s : State K} (h : InLimits s) {i : Sample K}
    (hle : ∀ tnow ∈ readings [i], s.periodLastUpdated.toUsec ≤ tnow.toUsec) : Steady cfg s i := by
  cases i with
  | accept accepted => exact trivial
  | ack delay tnow =>
    intro _
    have hdt := elapsed_nonneg h (hle tnow (by simp [readings]))
    split_ifs with hspeed
    · right
      unfold factor
      have hrate := changeRate_pos hup hdown (sampled cfg (.ack delay tnow) s)
      have hdtK : (0 : K) ≤ elapsed tnow s := Int.cast_nonneg hdt
      have hposK : (0 : K) < s.period.toUsec := by
        exact_mod_cast periodMin_pos.trans_le h.1
      have hfactor := mul_nonneg hrate.le hdtK
      nlinarith [mul_nonneg hposK.le hfactor]
    · exact hdt

omit [IsStrictOrderedRing K] in
theorem periodLastUpdated_setPeriod {x : K} {s s' : State K} (h : setPeriod x s = .ok s') :
    s'.periodLastUpdated = s.periodLastUpdated := by
  unfold setPeriod at h
  cases ht : toInt64 x with
  | error e =>
    rw [ht] at h
    cases h
  | ok t =>
    rw [ht] at h
    cases h
    rfl

omit [IsStrictOrderedRing K] in
theorem periodLastUpdated_updatePeriod {s s' : State K} {tnow : Timeval}
    (hmax : cfg.accToAckMax ≠ 0) (h : updatePeriod cfg tnow s = .ok s') :
    s'.periodLastUpdated = tnow := by
  rw [updatePeriod_eq hmax] at h
  split_ifs at h
  · unfold speedUp quotient at h
    split_ifs at h
    · cases h
    · exact periodLastUpdated_setPeriod h
  · exact periodLastUpdated_setPeriod h

omit [IsStrictOrderedRing K] in
theorem periodLastUpdated_react {s s' : State K} {i : Sample K} {out : List Int}
    (hmax : cfg.accToAckMax ≠ 0) (h : react cfg i s = .ok (s', out)) :
    s'.periodLastUpdated = s.periodLastUpdated ∨ s'.periodLastUpdated ∈ readings [i] := by
  cases i with
  | accept accepted =>
    cases h
    exact Or.inl rfl
  | ack delay tnow =>
    unfold react updateAccToAck at h
    dsimp only at h
    split_ifs at h with htune
    · right
      cases hu : updatePeriod cfg tnow { s with accToAck := delay } with
      | error e =>
        rw [hu] at h
        cases h
      | ok u =>
        rw [hu] at h
        cases h
        rw [periodLastUpdated_updatePeriod hmax hu]
        simp [readings]
    · cases h
      exact Or.inl rfl

/-- While the clock does not go backwards every update is steady. -/
theorem along_steady_of_forward (hup : 0 < cfg.periodChangeRateUp)
    (hdown : 0 < cfg.periodChangeRateDown) (hmax : 0 < cfg.accToAckMax) {s₀ : State K}
    (h : InLimits s₀) {is : List (Sample K)}
    (hclock : (s₀.periodLastUpdated :: readings is).Pairwise (·.toUsec ≤ ·.toUsec)) :
    Run.Along (react cfg) (Steady cfg) is s₀ := by
  induction is generalizing s₀ with
  | nil => exact Run.along_nil
  | cons i is ih =>
    have hsplit : readings (i :: is) = readings [i] ++ readings is :=
      List.filterMap_append (l := [i])
    rw [hsplit, List.pairwise_cons, List.pairwise_append] at hclock
    obtain ⟨hlast, -, hrest, hnext⟩ := hclock
    have hsteady : Steady cfg s₀ i := by
      refine steady_of_forward hup hdown h fun tnow htnow => ?_
      exact hlast tnow (List.mem_append_left _ htnow)
    obtain ⟨s', out, hs', hlim, -⟩ := (kept_iff hup hdown hmax h i).2 hsteady
    refine Run.along_cons.2 ⟨hsteady, fun t out' ht => ?_⟩
    obtain ⟨rfl, -⟩ := Prod.mk.inj (Except.ok.inj (hs'.symm.trans ht))
    refine ih hlim (List.pairwise_cons.2 ⟨fun tnow htnow => ?_, hrest⟩)
    rcases periodLastUpdated_react hmax.ne' hs' with heq | hmem
    · rw [heq]
      exact hlast tnow (List.mem_append_right _ htnow)
    · exact hnext _ hmem tnow htnow

/-! ## A run with the default parameters -/

/-- The defaults of the code, with another increasing function for `log`. -/
def defaults : Config ℚ where
  autotunePeriod := true
  offerAcceptSmoothing := 9 / 10
  offerAcceptMin := 3 / 10
  accToAckMax := 3 / 10
  periodChangeRateUp := 1 / 5
  periodChangeRateDown := 1 / 10
  log := id

/-- Two acknowledgements; the clock is set back by eight seconds between them. -/
def setBack : List (Sample ℚ) :=
  [.ack (1 / 10) (.ofUsec 100000000), .ack (1 / 10) (.ofUsec 92000000)]

/-- The state after the first one. -/
def sped : State ℚ where
  offerAccept := 1
  accToAck := 1 / 10
  period := .ofUsec 476190
  periodLastUpdated := .ofUsec 100000000
  periodInitial := 500000

theorem not_along_kept_setBack :
    ¬ Run.Along (react defaults) (Kept defaults) setBack (.init (.ofUsec 500000)) := by
  intro h
  have hfirst : react defaults (.ack (1 / 10) (.ofUsec 100000000)) (.init (.ofUsec 500000)) =
      .ok (sped, [476190]) := by decide +kernel
  have hsecond : (react defaults (.ack (1 / 10) (.ofUsec 92000000)) sped).map
      (·.1.period.toUsec) = .ok 2380950 := by decide +kernel
  obtain ⟨-, hrest⟩ := Run.along_cons.1 h
  obtain ⟨⟨s', out, hs', ⟨-, hle⟩, -⟩, -⟩ := Run.along_cons.1 (hrest sped _ hfirst)
  rw [hs'] at hsecond
  have heq : s'.period.toUsec = 2380950 := Except.ok.inj hsecond
  rw [heq] at hle
  exact absurd hle (by decide)

theorem along_kept_iff_forward :
    Run.Along (react defaults) (Kept defaults)
      [.accept true, .ack (1 / 10) (.ofUsec 92000000), .ack (1 / 2) (.ofUsec 100000000)]
      (.init (.ofUsec 500000)) :=
  (along_kept_iff (by norm_num [defaults]) (by norm_num [defaults]) (by norm_num [defaults])
    (by decide) _).2
    (along_steady_of_forward (by norm_num [defaults]) (by norm_num [defaults])
      (by norm_num [defaults]) (by decide) (by decide))

end PeerStreamer.RateControl
