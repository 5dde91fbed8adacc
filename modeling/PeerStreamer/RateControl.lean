import Mathlib.Algebra.Order.Floor.Ring
import Mathlib.Data.Rat.Floor
import PeerStreamer.CInt
import PeerStreamer.Transaction

/-!
# Rate control (`ratecontrol.c`)

The offer period follows the delay between an accept and the acknowledgement of the chunk.  The
delay is a `double`; what is computed from it, and the mean of the accepts, are exact numbers here,
of any ordered field that has integer parts, where the code rounds them, and `log` is a parameter.
A division by zero and a conversion to `int64_t` out of range end the run.  The clock may go
backwards.
-/

namespace PeerStreamer.RateControl

open Timeval Transaction

/-- The parameters. -/
structure Config (K : Type) where
  autotunePeriod : Bool
  offerAcceptSmoothing : K
  offerAcceptMin : K
  accToAckMax : K
  periodChangeRateUp : K
  periodChangeRateDown : K
  log : K → K

/-- The static variables, and the global offer period. -/
structure State (K : Type) where
  offerAccept : K
  accToAck : K
  period : Timeval
  periodLastUpdated : Timeval
  periodInitial : Int
  deriving DecidableEq, Repr

variable {K : Type} [Field K]

def State.init (period : Timeval) : State K where
  offerAccept := 1
  accToAck := 0
  period := period
  periodLastUpdated := .ofUsec 0
  periodInitial := 0

def PERIOD_MIN : Int := 5000

def PERIOD_MAX : Int := 1000000

/-! ## The code -/

section

variable [LinearOrder K]

/-- The conversion of a `double` to `int64_t`, which cuts off the fraction. -/
def toInt64 [FloorRing K] (x : K) : Except Fault Int :=
  let t := if 0 ≤ x then ⌊x⌋ else ⌈x⌉
  if -2 ^ 63 ≤ t ∧ t < 2 ^ 63 then .ok t else .error .overflow

/-- A division; the code does not check for zero. -/
def quotient (a b : K) : Except Fault K :=
  if b = 0 then .error .overflow else .ok (a / b)

variable [FloorRing K]

def setPeriod (p : K) (s : State K) : Except Fault (State K) := do
  let p ← toInt64 p
  return { s with period := .ofUsec p }

/-- What the period is divided or multiplied by. -/
def factor (rate dt : K) : K := 1 + rate * dt / 1000000

/-- A shorter period. -/
def speedUp (rate dt : K) (s : State K) : Except Fault (State K) := do
  let p ← quotient (s.period.toUsec : K) (factor rate dt)
  setPeriod (max (PERIOD_MIN : K) p) s

/-- A longer period. -/
def slowDown (rate dt : K) (s : State K) : Except Fault (State K) :=
  setPeriod (min (PERIOD_MAX : K) (s.period.toUsec * factor rate dt)) s

/-- The time since the last update. -/
def elapsed (tnow : Timeval) (s : State K) : Int :=
  if timerisset s.periodLastUpdated then
    min (tnow.toUsec - s.periodLastUpdated.toUsec) PERIOD_MAX
  else s.period.toUsec

def updatePeriod (cfg : Config K) (tnow : Timeval) (s : State K) : Except Fault (State K) := do
  let s := if s.periodInitial = 0 then { s with periodInitial := s.period.toUsec } else s
  let dt : K := elapsed tnow s
  let s := { s with periodLastUpdated := tnow }
  let dOfferAccept := s.offerAccept - cfg.offerAcceptMin
  let dAccToAck ← quotient (s.accToAck - cfg.accToAckMax) cfg.accToAckMax
  let dPeriod := cfg.log s.period.toUsec - cfg.log s.periodInitial
  if dPeriod < 0 then
    if dOfferAccept > 0 ∧ dAccToAck < 0 then
      speedUp cfg.periodChangeRateDown dt s
    else
      slowDown (cfg.periodChangeRateUp * (1 + |dPeriod|)) dt s
  else
    if dAccToAck > 0 then
      slowDown cfg.periodChangeRateUp dt s
    else
      speedUp (cfg.periodChangeRateDown * (1 + |dPeriod|)) dt s

def updateOfferAccept (cfg : Config K) (accepted : Bool) (s : State K) : State K :=
  { s with offerAccept := s.offerAccept * cfg.offerAcceptSmoothing +
      if accepted then 1 - cfg.offerAcceptSmoothing else 0 }

/-- `update_acc_to_ack`; it reads the clock when the period is tuned. -/
def updateAccToAck (cfg : Config K) (clock : ℕ → Timeval) (t : K) (s : State K) (n : ℕ) :
    Except Fault (State K × ℕ) := do
  let s := { s with accToAck := t }
  if cfg.autotunePeriod then
    let s ← updatePeriod cfg (clock n) s
    return (s, n + 1)
  else return (s, n)

end

/-- `rc_reg_accept`; the code does not use the transaction. -/
def rcRegAccept (cfg : Config K) (_transId : UInt16) (accepted : ℕ) (s : State K) : State K :=
  updateOfferAccept cfg (accepted ≠ 0) s

/-- `rc_reg_ack`: the acknowledgement closes the transaction. -/
def rcRegAck {N : Type} (cfg : Config ℚ) (clock : ℕ → Timeval) (transId : UInt16)
    (t : Transactions N) (s : State ℚ) (n : ℕ) : Except Fault (Transactions N × State ℚ × ℕ) :=
  let (tAcc, t) := transactionRemove transId t
  if tAcc < 0 then .ok (t, s, n)
  else do
    let (s, n) ← updateAccToAck cfg clock (Double.sub (seconds (clock n)) tAcc) s (n + 1)
    return (t, s, n)

theorem le_updateAccToAck [LinearOrder K] [FloorRing K] {cfg : Config K} {clock : ℕ → Timeval}
    {t : K} {s s' : State K} {n n' : ℕ}
    (h : updateAccToAck cfg clock t s n = .ok (s', n')) : n ≤ n' := by
  unfold updateAccToAck at h
  dsimp only at h
  split_ifs at h
  · obtain ⟨u, -, h⟩ := bind_eq_ok.1 h
    obtain ⟨rfl, rfl⟩ := Prod.mk.inj (Except.ok.inj h)
    exact Nat.le_succ n
  · obtain ⟨rfl, rfl⟩ := Prod.mk.inj (Except.ok.inj h)
    exact le_refl n

/-- An acknowledgement reads the clock; it does not set it back. -/
theorem le_rcRegAck {N : Type} {cfg : Config ℚ} {clock : ℕ → Timeval} {transId : UInt16}
    {t t' : Transactions N} {s s' : State ℚ} {n n' : ℕ}
    (h : rcRegAck cfg clock transId t s n = .ok (t', s', n')) : n ≤ n' := by
  unfold rcRegAck at h
  dsimp only at h
  split_ifs at h
  · simp only [Except.ok.injEq, Prod.mk.injEq] at h
    omega
  · obtain ⟨⟨u, m⟩, hu, h⟩ := bind_eq_ok.1 h
    have hle := le_updateAccToAck hu
    simp only [pure, Except.pure, Except.ok.injEq, Prod.mk.injEq] at h
    omega

end PeerStreamer.RateControl
