import Mathlib.Data.Rat.Defs
import Mathlib.Tactic.Ring
import PeerStreamer.Lib.Run
import PeerStreamer.Measures

/-!
# The window in which an event is counted

The windows follow one another from the end of the start-up, `print_tdiff` long each.  `print_every`
closes at most one of them in a call.  So the events fall in the windows in which they are counted as
long as no window goes by without an event, and otherwise the first event after the gap is counted in
a window that is over.
-/

namespace PeerStreamer.Measures

open Timeval Run

variable {K : Type}

/-! ## What is right -/

def Call.time? : Call K → Option Int
  | .event t _ => some t.now.toUsec
  | .endMeasures _ => none

/-- The times at which `print_every` is called. -/
def times (calls : List (Call K)) : List Int := calls.filterMap Call.time?

/-- Readings of a clock that does not go backwards, from the Epoch on. -/
structure Chronological (xs : List Int) : Prop where
  nonneg : ∀ x ∈ xs, 0 ≤ x
  mono : xs.Pairwise (· ≤ ·)

/-- The events that are reported fall in the window of the report. -/
def Report.Sound (r : Report K) : Prop :=
  ∀ t ∈ r.counted, r.printTstart.toUsec ≤ t.toUsec ∧ t.toUsec < r.tnext.toUsec

/-- The call leaves a window that contains the event which it counts, and what it reports is
sound. -/
structure Right [Field K] [DecidableEq K] (cfg : Config) (s : State K) (c : Call K) : Prop where
  inside : ∀ t e, c = .event t e → (printEvery cfg t s).1 = true →
    (printEvery cfg t s).2.1.printTstart.toUsec ≤ t.now.toUsec ∧
      t.now.toUsec < (printEvery cfg t s).2.1.tnext.toUsec
  sound : ∀ s' out, step cfg c s = .ok (s', out) → ∀ r ∈ out, r.Sound

/-- The windows of the times from `T` on, when the first window begins at `T`. -/
def windowsFrom (cfg : Config) (T : Int) (xs : List Int) : List Int :=
  (xs.filter fun x => T ≤ x).map fun x => (x - T) / cfg.printTdiff.toUsec

/-- The windows in which the events after the start-up fall.  The start-up begins with the first
event. -/
def windows (cfg : Config) (xs : List Int) : List Int :=
  match xs with
  | [] => []
  | x :: _ => windowsFrom cfg (x + cfg.tstartdiff.toUsec) xs

/-- No window goes by without an event, from the window `k` on. -/
def NoneSkipped (k : Int) (ks : List Int) : Prop := (k :: ks).IsChain fun i j => j ≤ i + 1

instance (k : Int) (ks : List Int) : Decidable (NoneSkipped k ks) :=
  inferInstanceAs (Decidable (List.IsChain _ _))

/-! ## An open window -/

section

variable {cfg : Config} {s : State K} {T k : Int}

theorem timerisset_iff {t : Timeval} : timerisset t ↔ t.toUsec ≠ 0 := by
  have hnonneg := t.usec_nonneg
  have hlt := t.usec_lt
  unfold timerisset toUsec
  omega

theorem startClock_started (h : s.startup = false) (tnow : Timeval) : startClock cfg tnow s = s := by
  rw [startClock, h]
  exact if_neg (by simp)

theorem openWindow_started (cfg : Config) (hstartup : s.startup = false)
    (htnext : timerisset s.tnext) : openWindow cfg s = s := by
  unfold openWindow
  rw [if_neg (not_not.2 htnext), ← hstartup]

/-- The `k`-th window after the time `T` is open. -/
structure Open (cfg : Config) (T k : Int) (s : State K) : Prop where
  startup : s.startup = false
  printTstart : s.printTstart.toUsec = T + cfg.printTdiff.toUsec * k
  tnext : s.tnext.toUsec = T + cfg.printTdiff.toUsec * (k + 1)
  counted : ∀ x ∈ s.counted, s.printTstart.toUsec ≤ x.toUsec ∧ x.toUsec < s.tnext.toUsec

theorem Open.timerisset (h : Open cfg T k s) (hd : 0 < cfg.printTdiff.toUsec) (hT : 0 ≤ T)
    (hk : 0 ≤ k) : Timeval.timerisset s.tnext := by
  have hpos : 0 < cfg.printTdiff.toUsec * (k + 1) := Int.mul_pos hd (by omega)
  rw [timerisset_iff, h.tnext]
  omega

theorem Open.count (h : Open cfg T k s) {x : Timeval} (hx : s.printTstart.toUsec ≤ x.toUsec)
    (hx' : x.toUsec < s.tnext.toUsec) (m : Counters K) :
    Open cfg T k { s with m := m, counted := s.counted ++ [x] } where
  startup := h.startup
  printTstart := h.printTstart
  tnext := h.tnext
  counted := by
    intro y hy
    rcases List.mem_append.1 hy with hy | hy
    · exact h.counted y hy
    · obtain rfl := List.mem_singleton.1 hy
      exact ⟨hx, hx'⟩

end

variable [Field K] [DecidableEq K] {cfg : Config} {s s' : State K} {T k : Int} {t : Readings}
  {calls : List (Call K)} {e : Event K}

omit [DecidableEq K] in
theorem Open.nextWindow (h : Open cfg T k s) : Open cfg T (k + 1) (nextWindow cfg s) where
  startup := h.startup
  printTstart := h.tnext
  tnext := by
    rw [Measures.nextWindow, toUsec_timeradd, h.tnext]
    ring
  counted := fun _ hx => absurd hx List.not_mem_nil

theorem Open.printEvery (h : Open cfg T k s) (hd : 0 < cfg.printTdiff.toUsec) (hT : 0 ≤ T)
    (hk : 0 ≤ k) (t : Readings) :
    Measures.printEvery cfg t s =
      if t.now.toUsec < s.tnext.toUsec then (true, s, [])
      else (true, Measures.nextWindow cfg s, [printMeasures s t.print]) := by
  have hopen := openWindow_started cfg h.startup (h.timerisset hd hT hk)
  unfold Measures.printEvery
  simp only [startClock_started h.startup, h.startup, hopen, timercmp_lt, Bool.false_eq_true,
    false_and, if_false, ite_not]

/-! ## One call -/

/-- The functions that register an event differ in what they count only. -/
theorem step_event (cfg : Config) (t : Readings) (e : Event K) :
    ∃ count, ∀ s, step cfg (.event t e) s = .ok (reg cfg t count s) := by
  cases e <;> unfold step regEvent <;> exact ⟨_, fun _ => rfl⟩

theorem reg_counting {out : List (Report K)} (h : printEvery cfg t s = (true, s', out))
    (count : Counters K → Counters K) :
    reg cfg t count s =
      ({ s' with m := count s'.m, counted := s'.counted ++ [t.now] }, out) := by
  rw [reg, h]
  rfl

/-- What a call does is determined by what `print_every` does. -/
theorem step_event_congr (h : printEvery cfg t s = printEvery cfg t s') :
    step cfg (.event t e) s = step cfg (.event t e) s' := by
  obtain ⟨count, hreg⟩ := step_event cfg t e
  rw [hreg, hreg, reg, reg, h]

theorem Right.congr (hr : Right cfg s (.event t e))
    (h : printEvery cfg t s = printEvery cfg t s') : Right cfg s' (.event t e) := by
  refine ⟨fun t' e' heq => ?_, fun s₁ out hs => hr.sound s₁ out ((step_event_congr h).trans hs)⟩
  cases heq
  rw [← h]
  exact hr.inside t e rfl

theorem along_event_congr (h : printEvery cfg t s = printEvery cfg t s') :
    Along (step cfg) (Right cfg) (.event t e :: calls) s ↔
      Along (step cfg) (Right cfg) (.event t e :: calls) s' := by
  have hright : Right cfg s (.event t e) ↔ Right cfg s' (.event t e) :=
    ⟨fun hr => hr.congr h, fun hr => hr.congr h.symm⟩
  rw [along_cons, along_cons, hright, step_event_congr h]

theorem right_endMeasures {tnow : Timeval} (h : (printMeasures s tnow).Sound) :
    Right cfg s (.endMeasures tnow) where
  inside := fun _ _ heq => by cases heq
  sound := by
    intro s' out hs r hr
    cases hs
    obtain rfl := List.mem_singleton.1 hr
    exact h

/-- A call that counts its event in the state `s'`. -/
theorem right_event {out : List (Report K)} (h : printEvery cfg t s = (true, s', out)) :
    Right cfg s (.event t e) ↔
      (s'.printTstart.toUsec ≤ t.now.toUsec ∧ t.now.toUsec < s'.tnext.toUsec) ∧
        ∀ r ∈ out, r.Sound := by
  obtain ⟨count, hreg⟩ := step_event cfg t e
  constructor
  · intro hr
    have hin := hr.inside t e rfl
    rw [h] at hin
    exact ⟨hin rfl, hr.sound _ _ ((hreg s).trans (congrArg _ (reg_counting h count)))⟩
  · rintro ⟨hin, hout⟩
    refine ⟨fun t' e' heq _ => ?_, fun s₁ out₁ hs => ?_⟩
    · cases heq
      rw [h]
      exact hin
    · rw [hreg, reg_counting h] at hs
      cases hs
      exact hout

/-! ## The run, from an open window on -/

theorem windowsFrom_cons (cfg : Config) {x : Int} (hx : T ≤ x) (xs : List Int) :
    windowsFrom cfg T (x :: xs) = (x - T) / cfg.printTdiff.toUsec :: windowsFrom cfg T xs := by
  have hfilter : (x :: xs).filter (fun y => decide (T ≤ y)) =
      x :: xs.filter (fun y => decide (T ≤ y)) := List.filter_cons_of_pos (decide_eq_true hx)
  rw [windowsFrom, hfilter]
  rfl

theorem windowsFrom_cons_of_lt (cfg : Config) {x : Int} (hx : x < T) (xs : List Int) :
    windowsFrom cfg T (x :: xs) = windowsFrom cfg T xs := by
  have hfilter : (x :: xs).filter (fun y => decide (T ≤ y)) =
      xs.filter (fun y => decide (T ≤ y)) := List.filter_cons_of_neg (by simpa using hx)
  rw [windowsFrom, hfilter]
  rfl

theorem noneSkipped_cons {j : Int} {ks : List Int} :
    NoneSkipped k (j :: ks) ↔ j ≤ k + 1 ∧ NoneSkipped j ks :=
  List.isChain_cons_cons

theorem window_eq {d x : Int} (hd : 0 < d) (hge : T + d * k ≤ x) (hlt : x < T + d * (k + 1)) :
    (x - T) / d = k := by
  have hle : k ≤ (x - T) / d := by
    rw [Int.le_ediv_iff_mul_le hd, Int.mul_comm]
    omega
  have hlt' : (x - T) / d < k + 1 := by
    rw [Int.ediv_lt_iff_lt_mul hd, Int.mul_comm]
    omega
  omega

/-- The induction is on the calls; the window that is open is the one of the last event. -/
theorem along_open (hd : 0 < cfg.printTdiff.toUsec) (hT : 0 ≤ T) (h : Open cfg T k s) (hk : 0 ≤ k)
    (hfrom : ∀ x ∈ times calls, s.printTstart.toUsec ≤ x) (hmono : (times calls).Pairwise (· ≤ ·)) :
    Along (step cfg) (Right cfg) calls s ↔ NoneSkipped k (windowsFrom cfg T (times calls)) := by
  induction calls generalizing s k with
  | nil => exact iff_of_true along_nil (.singleton k)
  | cons c calls ih =>
    cases c with
    | endMeasures tnow =>
      have hstep : step cfg (.endMeasures tnow) s = .ok (s, [printMeasures s tnow]) := rfl
      rw [along_cons_of_ok hstep, and_iff_right (right_endMeasures h.counted)]
      exact ih h hk hfrom hmono
    | event t e =>
      obtain ⟨hlater, hmono⟩ := List.pairwise_cons.1 hmono
      have hx : s.printTstart.toUsec ≤ t.now.toUsec := hfrom _ (List.mem_cons_self ..)
      have hprint := h.printEvery hd hT hk t
      obtain ⟨count, hreg⟩ := step_event cfg t e
      have hT' : T ≤ t.now.toUsec := by
        have hpos := Int.mul_nonneg (Int.le_of_lt hd) hk
        have := h.printTstart
        omega
      have htimes : windowsFrom cfg T (times (.event t e :: calls)) =
          (t.now.toUsec - T) / cfg.printTdiff.toUsec :: windowsFrom cfg T (times calls) :=
        windowsFrom_cons cfg hT' _
      by_cases hin : t.now.toUsec < s.tnext.toUsec
      · -- The event falls in the window that is open.
        rw [if_pos hin] at hprint
        have hwindow := window_eq hd (h.printTstart ▸ hx) (h.tnext ▸ hin)
        have hstep := (hreg s).trans (congrArg _ (reg_counting hprint count))
        have hrest := ih (h.count hx hin (count s.m)) hk (fun y hy => hx.trans (hlater y hy)) hmono
        have hright : Right cfg s (.event t e) :=
          (right_event hprint).2 ⟨⟨hx, hin⟩, fun _ hr => absurd hr List.not_mem_nil⟩
        rw [along_cons_of_ok hstep, and_iff_right hright, hrest, htimes, hwindow, noneSkipped_cons]
        exact (and_iff_right (by omega)).symm
      · rw [if_neg hin] at hprint
        have hnext := h.nextWindow
        have hge : (nextWindow cfg s).printTstart.toUsec ≤ t.now.toUsec := Int.not_lt.1 hin
        have hsound : ∀ r ∈ [printMeasures s t.print], r.Sound := fun r hr => by
          obtain rfl := List.mem_singleton.1 hr
          exact h.counted
        have hstep := (hreg s).trans (congrArg _ (reg_counting hprint count))
        rw [along_cons_of_ok hstep, right_event hprint, htimes, noneSkipped_cons]
        by_cases hin' : t.now.toUsec < (nextWindow cfg s).tnext.toUsec
        · -- It falls in the next one.
          have hwindow := window_eq hd (hnext.printTstart ▸ hge) (hnext.tnext ▸ hin')
          have hrest := ih (hnext.count hge hin' (count (nextWindow cfg s).m)) (by omega)
            (fun y hy => hge.trans (hlater y hy)) hmono
          rw [hrest, hwindow, and_iff_right ⟨⟨hge, hin'⟩, hsound⟩]
          exact (and_iff_right (Int.le_refl _)).symm
        · -- A whole window went by.
          refine iff_of_false (fun hr => hin' hr.1.1.2) fun hs => ?_
          have hlate : k + 2 ≤ (t.now.toUsec - T) / cfg.printTdiff.toUsec := by
            rw [hnext.tnext] at hin'
            rw [Int.le_ediv_iff_mul_le hd, Int.mul_comm]
            have hsum : k + 1 + 1 = k + 2 := by omega
            rw [hsum] at hin'
            omega
          omega

/-! ## The run -/

/-- The start-up: no event has been counted. -/
structure Starting (s : State K) : Prop where
  startup : s.startup = true
  printTstart : s.printTstart = s.tstart
  tnext : ¬ timerisset s.tnext
  counted : s.counted = []

omit [Field K] [DecidableEq K] in
theorem openWindow_openWindow (cfg : Config) (s : State K) :
    openWindow cfg (openWindow cfg s) = openWindow cfg s := by
  unfold openWindow
  by_cases htnext : timerisset s.tnext
  · rw [if_neg (not_not.2 htnext), if_neg (not_not.2 htnext)]
  · rw [if_pos htnext, ite_self]

/-- At the end of the start-up the first window is open. -/
theorem printEvery_opened (cfg : Config)
    (h : ¬ t.now.toUsec < (startClock cfg t.now s).tstart.toUsec) :
    printEvery cfg t s = printEvery cfg t (openWindow cfg (startClock cfg t.now s)) := by
  have hstartup : (openWindow cfg (startClock cfg t.now s)).startup = false := rfl
  rw [← timercmp_lt] at h
  unfold printEvery
  simp only [h, and_false, if_false, startClock_started hstartup, hstartup,
    openWindow_openWindow, Bool.false_eq_true, false_and]

theorem Starting.sound (h : Starting s) (tnow : Timeval) : (printMeasures s tnow).Sound := by
  intro x hx
  have hnone : x ∈ s.counted := hx
  rw [h.counted] at hnone
  exact absurd hnone List.not_mem_nil

omit [DecidableEq K] [Field K] in
theorem Starting.open (h : Starting s) (cfg : Config) :
    Open cfg s.tstart.toUsec 0 (openWindow cfg s) := by
  refine ⟨rfl, ?_, ?_, fun x hx => ?_⟩
  · rw [Int.mul_zero, Int.add_zero]
    exact congrArg toUsec h.printTstart
  · rw [openWindow, if_pos h.tnext, toUsec_timeradd, Int.zero_add, Int.mul_one]
  · have hnone : x ∈ s.counted := hx
    rw [h.counted] at hnone
    exact absurd hnone List.not_mem_nil

/-- A call during the start-up. -/
theorem along_skipped (h : printEvery cfg t s = (false, s', [])) :
    Along (step cfg) (Right cfg) (.event t e :: calls) s ↔
      Along (step cfg) (Right cfg) calls s' := by
  obtain ⟨count, hreg⟩ := step_event cfg t e
  have hskip : reg cfg t count s = (s', []) := by
    rw [reg, h]
    rfl
  have hstep : step cfg (.event t e) s = .ok (s', []) := (hreg s).trans (congrArg _ hskip)
  rw [along_cons_of_ok hstep]
  refine and_iff_right ⟨fun t' e' heq htrue => ?_, fun s₁ out hs r hr => ?_⟩
  · cases heq
    rw [h] at htrue
    cases htrue
  · rw [hstep] at hs
    cases hs
    exact absurd hr List.not_mem_nil

/-- The call that ends the start-up, from which on the windows are counted. -/
theorem along_opened (hd : 0 < cfg.printTdiff.toUsec) (hclock : startClock cfg t.now s = s')
    (h : Starting s') (hT : 0 ≤ s'.tstart.toUsec) (hge : ¬ t.now.toUsec < s'.tstart.toUsec)
    (hmono : (times (.event t e :: calls)).Pairwise (· ≤ ·)) :
    Along (step cfg) (Right cfg) (.event t e :: calls) s ↔
      NoneSkipped 0 (windowsFrom cfg s'.tstart.toUsec (times (.event t e :: calls))) := by
  subst hclock
  have hfrom : ∀ x ∈ times (.event t e :: calls),
      (openWindow cfg (startClock cfg t.now s)).printTstart.toUsec ≤ x := by
    intro x hx
    have hbegin : (openWindow cfg (startClock cfg t.now s)).printTstart.toUsec ≤ t.now.toUsec := by
      have := congrArg toUsec h.printTstart
      exact this.trans_le (Int.not_lt.1 hge)
    rcases List.mem_cons.1 hx with rfl | hx
    · exact hbegin
    · exact hbegin.trans ((List.pairwise_cons.1 hmono).1 x hx)
  rw [along_event_congr (printEvery_opened cfg hge)]
  exact along_open hd hT (h.open cfg) (Int.le_refl 0) hfrom hmono

/-- The induction is on the calls, up to the one that ends the start-up. -/
theorem along_starting (hd : 0 < cfg.printTdiff.toUsec) (h : Starting s)
    (hset : timerisset s.tstart) (hT : 0 ≤ s.tstart.toUsec)
    (hmono : (times calls).Pairwise (· ≤ ·)) :
    Along (step cfg) (Right cfg) calls s ↔
      NoneSkipped 0 (windowsFrom cfg s.tstart.toUsec (times calls)) := by
  induction calls with
  | nil => exact iff_of_true along_nil (.singleton 0)
  | cons c calls ih =>
    cases c with
    | endMeasures tnow =>
      have hstep : step cfg (.endMeasures tnow) s = .ok (s, [printMeasures s tnow]) := rfl
      rw [along_cons_of_ok hstep, and_iff_right (right_endMeasures (h.sound tnow))]
      exact ih hmono
    | event t e =>
      have hclock : startClock cfg t.now s = s := if_neg fun hstart => hstart.2 hset
      obtain ⟨hlater, hmono'⟩ := List.pairwise_cons.1 hmono
      by_cases hlt : t.now.toUsec < s.tstart.toUsec
      · have hskip : printEvery cfg t s = (false, s, []) := by
          unfold printEvery
          simp only [hclock, h.startup, timercmp_lt, hlt, and_self, if_true]
        rw [along_skipped hskip, ih hmono']
        exact iff_of_eq (congrArg _ (windowsFrom_cons_of_lt cfg hlt _).symm)
      · exact along_opened hd hclock h hT hlt hmono

omit [DecidableEq K] in
theorem starting_init : Starting (.init : State K) where
  startup := rfl
  printTstart := rfl
  tnext := show ¬ timerisset (.ofUsec 0) by decide
  counted := rfl

omit [DecidableEq K] in
theorem startClock_init (cfg : Config) (tnow : Timeval) :
    startClock cfg tnow (.init : State K) =
      { State.init with
        tstart := timeradd tnow cfg.tstartdiff
        printTstart := timeradd tnow cfg.tstartdiff } :=
  if_pos ⟨rfl, show ¬ timerisset (.ofUsec 0) by decide⟩

/-- In every run, every event falls in the window in which it is counted and reported if and only if
no whole window goes by without an event. -/
theorem windows_right_iff (hd : 0 < cfg.printTdiff.toUsec) (hs : 0 ≤ cfg.tstartdiff.toUsec)
    (h : Chronological (times calls)) :
    Along (step cfg) (Right cfg) calls .init ↔ NoneSkipped 0 (windows cfg (times calls)) := by
  induction calls with
  | nil => exact iff_of_true along_nil (.singleton 0)
  | cons c calls ih =>
    cases c with
    | endMeasures tnow =>
      have hstep : step cfg (.endMeasures tnow) (.init : State K) =
        .ok (.init, [printMeasures .init tnow]) := rfl
      rw [along_cons_of_ok hstep, and_iff_right (right_endMeasures (starting_init.sound tnow))]
      exact ih h
    | event t e =>
      have hx : 0 ≤ t.now.toUsec := h.nonneg _ (List.mem_cons_self ..)
      have hclock := startClock_init (K := K) cfg t.now
      have hstarting : Starting (startClock cfg t.now (.init : State K)) := by
        rw [hclock]
        exact ⟨rfl, rfl, (starting_init (K := K)).tnext, rfl⟩
      have htstart : (startClock cfg t.now (.init : State K)).tstart.toUsec =
          t.now.toUsec + cfg.tstartdiff.toUsec := by
        rw [hclock]
        exact toUsec_timeradd ..
      have hwindows : windows cfg (times (.event t e :: calls)) =
          windowsFrom cfg (startClock cfg t.now (.init : State K)).tstart.toUsec
            (times (.event t e :: calls)) := by
        rw [htstart]
        rfl
      rw [hwindows]
      by_cases hlt : t.now.toUsec < (startClock cfg t.now (.init : State K)).tstart.toUsec
      · have hskip : printEvery (K := K) cfg t .init = (false, startClock cfg t.now .init, []) := by
          unfold printEvery
          simp only [hstarting.startup, timercmp_lt, hlt, and_self, if_true]
        have hset : timerisset (startClock cfg t.now (.init : State K)).tstart :=
          timerisset_iff.2 (by omega)
        rw [along_skipped hskip,
          along_starting hd hstarting hset (by omega) (List.pairwise_cons.1 h.mono).2]
        exact iff_of_eq (congrArg _ (windowsFrom_cons_of_lt cfg hlt _).symm)
      · exact along_opened hd rfl hstarting (by omega) hlt h.mono

/-- The values of the code, with some message types. -/
def defaults : Config where
  printTdiff := .ofUsec 3600000000
  tstartdiff := .ofUsec 60000000
  MSG_TYPE_CHUNK := 0x11
  MSG_TYPE_SIGNALLING := 0x12
  MSG_TYPE_TOPOLOGY := 0x10
  MSG_TYPE_TMAN := 0x13

/-- A chunk that is sent at a number of seconds. -/
def sentAt (sec : Int) : Call ℚ :=
  let t := Timeval.ofUsec (sec * 1000000)
  .event ⟨t, t, t⟩ .chunkSend

/-- An event in the first hour after the start-up, and one in the second hour. -/
theorem windows_right_iff_hourly :
    Along (step defaults) (Right defaults) [sentAt 1000, sentAt 1060, sentAt 5000] .init :=
  (windows_right_iff (by decide) (by decide) ⟨by decide, by decide⟩).2 (by decide)

/-- Two quiet hours after the first event: the next one is counted in a window that is over. -/
theorem windows_wrong_gap :
    ¬ Along (step defaults) (Right defaults) [sentAt 1000, sentAt 1060, sentAt 10000] .init := by
  intro h
  have h₁ := (along_cons.1 h).2 _ _ rfl
  have h₂ := (along_cons.1 h₁).2 _ _ rfl
  have hright := (along_cons.1 h₂).1
  have hlate := (hright.inside _ _ rfl (by decide +kernel)).2
  revert hlate
  decide +kernel

end PeerStreamer.Measures
