import Mathlib.Algebra.Order.Field.Basic
import Mathlib.Algebra.Order.Field.Rat
import Mathlib.Data.List.Forall2
import PeerStreamer.MeasureWindows

/-!
# What the reports account for

The counters of a window are the sum of what its events are worth, and a report prints them and
starts the next window from nothing.  So when the program ends, its reports together account for
all events since the start-up, each of them once and in the order in which they were registered
(`reports_account`).  It does not matter for that whether the windows are as long as they should be.
-/

namespace PeerStreamer.Measures

open Timeval Run

variable {K : Type} [Field K]

/-! ## What an event is worth -/

/-- The sum of counters, in the arithmetic of the code. -/
def Counters.add (m m' : Counters K) : Counters K where
  duplicates := m.duplicates + m'.duplicates
  chunks := m.chunks + m'.chunks
  played := m.played + m'.played
  sumReorderDelay := m.sumReorderDelay + m'.sumReorderDelay
  chunksReceivedDup := m.chunksReceivedDup + m'.chunksReceivedDup
  chunksReceivedNodup := m.chunksReceivedNodup + m'.chunksReceivedNodup
  chunksReceivedOld := m.chunksReceivedOld + m'.chunksReceivedOld
  sumHopcount := m.sumHopcount + m'.sumHopcount
  sumReceiveDelay := m.sumReceiveDelay + m'.sumReceiveDelay
  chunksSent := m.chunksSent + m'.chunksSent
  sumNeighsize := m.sumNeighsize + m'.sumNeighsize
  samplesNeighsize := m.samplesNeighsize + m'.samplesNeighsize
  bytesSent := m.bytesSent + m'.bytesSent
  bytesSentChunk := m.bytesSentChunk + m'.bytesSentChunk
  bytesSentSign := m.bytesSentSign + m'.bytesSentSign
  bytesSentTopo := m.bytesSentTopo + m'.bytesSentTopo
  msgsSent := m.msgsSent + m'.msgsSent
  msgsSentChunk := m.msgsSentChunk + m'.msgsSentChunk
  msgsSentSign := m.msgsSentSign + m'.msgsSentSign
  msgsSentTopo := m.msgsSentTopo + m'.msgsSentTopo
  bytesRecvd := m.bytesRecvd + m'.bytesRecvd
  bytesRecvdChunk := m.bytesRecvdChunk + m'.bytesRecvdChunk
  bytesRecvdSign := m.bytesRecvdSign + m'.bytesRecvdSign
  bytesRecvdTopo := m.bytesRecvdTopo + m'.bytesRecvdTopo
  msgsRecvd := m.msgsRecvd + m'.msgsRecvd
  msgsRecvdChunk := m.msgsRecvdChunk + m'.msgsRecvdChunk
  msgsRecvdSign := m.msgsRecvdSign + m'.msgsRecvdSign
  msgsRecvdTopo := m.msgsRecvdTopo + m'.msgsRecvdTopo
  sumOffersInFlight := m.sumOffersInFlight + m'.sumOffersInFlight
  samplesOffersInFlight := m.samplesOffersInFlight + m'.samplesOffersInFlight
  sumQueueDelay := m.sumQueueDelay + m'.sumQueueDelay
  samplesQueueDelay := m.samplesQueueDelay + m'.samplesQueueDelay
  sumPeriod := m.sumPeriod + m'.sumPeriod
  samplesPeriod := m.samplesPeriod + m'.samplesPeriod
  offersOut := m.offersOut + m'.offersOut
  acceptsOut := m.acceptsOut + m'.acceptsOut
  offersIn := m.offersIn + m'.offersIn
  acceptsIn := m.acceptsIn + m'.acceptsIn

/-- What an event adds to the counters. -/
def Event.worth (cfg : Config) (t : Readings) : Event K → Counters K
  | .chunkDuplicate => { Counters.clean with duplicates := 1 }
  | .chunkPlayout b timestamp =>
    { Counters.clean with
      played := if b then 1 else 0
      chunks := 1
      sumReorderDelay := (since timestamp t.reg).toInt64 }
  | .neighSize size =>
    { Counters.clean with sumNeighsize := UInt64.ofInt size, samplesNeighsize := 1 }
  | .chunkReceive timestamp hopcount old dup =>
    if old then { Counters.clean with chunksReceivedOld := 1 }
    else if dup then { Counters.clean with chunksReceivedDup := 1 }
    else
      { Counters.clean with
        chunksReceivedNodup := 1
        sumHopcount := hopcount
        sumReceiveDelay := (since timestamp t.reg).toInt64 }
  | .chunkSend => { Counters.clean with chunksSent := 1 }
  | .offerAcceptOut b => { Counters.clean with offersOut := 1, acceptsOut := if b then 1 else 0 }
  | .offerAcceptIn b => { Counters.clean with offersIn := 1, acceptsIn := if b then 1 else 0 }
  | .messageSend size type =>
    let n := UInt64.ofInt size
    let m : Counters K := { Counters.clean with bytesSent := n, msgsSent := 1 }
    if type = cfg.MSG_TYPE_CHUNK then { m with bytesSentChunk := n, msgsSentChunk := 1 }
    else if type = cfg.MSG_TYPE_SIGNALLING then { m with bytesSentSign := n, msgsSentSign := 1 }
    else if type = cfg.MSG_TYPE_TOPOLOGY ∨ type = cfg.MSG_TYPE_TMAN then
      { m with bytesSentTopo := n, msgsSentTopo := 1 }
    else m
  | .messageRecv size type =>
    let n := UInt64.ofInt size
    let m : Counters K := { Counters.clean with bytesRecvd := n, msgsRecvd := 1 }
    if type = cfg.MSG_TYPE_CHUNK then { m with bytesRecvdChunk := n, msgsRecvdChunk := 1 }
    else if type = cfg.MSG_TYPE_SIGNALLING then { m with bytesRecvdSign := n, msgsRecvdSign := 1 }
    else if type = cfg.MSG_TYPE_TOPOLOGY ∨ type = cfg.MSG_TYPE_TMAN then
      { m with bytesRecvdTopo := n, msgsRecvdTopo := 1 }
    else m
  | .offersInFlight n =>
    { Counters.clean with sumOffersInFlight := UInt64.ofInt n, samplesOffersInFlight := 1 }
  | .queueDelay delay => { Counters.clean with sumQueueDelay := delay, samplesQueueDelay := 1 }
  | .period p => { Counters.clean with sumPeriod := p, samplesPeriod := 1 }

/-- The events of a window, with the times that they were registered at. -/
abbrev Window (K : Type) := List (Readings × Event K)

/-- What the events of a window are worth together. -/
def tally (cfg : Config) (es : Window K) : Counters K :=
  es.foldl (fun m e => m.add (e.2.worth cfg e.1)) .clean

variable [DecidableEq K] {cfg : Config}

theorem reg_congr {t : Readings} {count count' : Counters K → Counters K}
    (h : ∀ m, count m = count' m) : reg cfg t count = reg cfg t count' :=
  congrArg (reg cfg t) (funext h)

/-- The functions that register an event add what it is worth. -/
theorem regEvent_eq (cfg : Config) (t : Readings) (e : Event K) :
    regEvent cfg t e = reg cfg t fun m => m.add (e.worth cfg t) := by
  cases e with
  | chunkDuplicate =>
    unfold regEvent regChunkDuplicate
    refine reg_congr fun m => ?_
    simp [Counters.add, Event.worth, Counters.clean]
  | chunkPlayout b timestamp =>
    unfold regEvent regChunkPlayout
    refine reg_congr fun m => ?_
    simp [Counters.add, Event.worth, Counters.clean]
  | neighSize size =>
    unfold regEvent regNeighSize
    refine reg_congr fun m => ?_
    simp [Counters.add, Event.worth, Counters.clean]
  | chunkReceive timestamp hopcount old dup =>
    unfold regEvent regChunkReceive
    refine reg_congr fun m => ?_
    cases old <;> cases dup <;> simp [Counters.add, Event.worth, Counters.clean]
  | chunkSend =>
    unfold regEvent regChunkSend
    refine reg_congr fun m => ?_
    simp [Counters.add, Event.worth, Counters.clean]
  | offerAcceptOut b =>
    unfold regEvent regOfferAcceptOut
    refine reg_congr fun m => ?_
    cases b <;> simp [Counters.add, Event.worth, Counters.clean]
  | offerAcceptIn b =>
    unfold regEvent regOfferAcceptIn
    refine reg_congr fun m => ?_
    cases b <;> simp [Counters.add, Event.worth, Counters.clean]
  | messageSend size type =>
    unfold regEvent regMessageSend Event.worth
    refine reg_congr fun m => ?_
    dsimp only
    split_ifs <;> simp [Counters.add, Counters.clean]
  | messageRecv size type =>
    unfold regEvent regMessageRecv Event.worth
    refine reg_congr fun m => ?_
    dsimp only
    split_ifs <;> simp [Counters.add, Counters.clean]
  | offersInFlight n =>
    unfold regEvent regOffersInFlight
    refine reg_congr fun m => ?_
    simp [Counters.add, Event.worth, Counters.clean]
  | queueDelay delay =>
    unfold regEvent regQueueDelay
    refine reg_congr fun m => ?_
    simp [Counters.add, Event.worth, Counters.clean]
  | period p =>
    unfold regEvent regPeriod
    refine reg_congr fun m => ?_
    simp [Counters.add, Event.worth, Counters.clean]

/-! ## Runs -/

/-- The calls of the program: its events, and its end. -/
def program (es : Window K) (tend : Timeval) : List (Call K) :=
  es.map (fun e => .event e.1 e.2) ++ [.endMeasures tend]

/-- The events that are counted: those from the end of the start-up on. -/
def afterStartup (cfg : Config) : Window K → Window K
  | [] => []
  | e :: es => (e :: es).dropWhile fun x =>
    x.1.now.toUsec < e.1.now.toUsec + cfg.tstartdiff.toUsec

/-- The report prints the measures of the events of a window. -/
def Report.Prints (cfg : Config) (r : Report K) (es : Window K) : Prop :=
  ∃ s tnow, s.m = tally cfg es ∧ r = printMeasures s tnow

/-- The run from this state on prints these windows. -/
def Printed (cfg : Config) (s : State K) (calls : List (Call K)) (windows : List (Window K)) :
    Prop :=
  ∃ s' out, run (step cfg) calls s = .ok (s', out) ∧ List.Forall₂ (Report.Prints cfg) out windows

variable {s : State K} {t : Readings} {e : Event K} {es g : Window K} {tend : Timeval}
  {calls : List (Call K)} {windows : List (Window K)}

theorem step_event_eq (cfg : Config) (t : Readings) (e : Event K) (s : State K) :
    step cfg (.event t e) s = .ok (reg cfg t (fun m => m.add (e.worth cfg t)) s) := by
  rw [step, regEvent_eq]

/-- After the start-up an event is counted in the window that is open, or in the one after it. -/
theorem printEvery_counting (cfg : Config) (t : Readings) (h : s.startup = false) :
    ∃ s', s'.startup = false ∧ (s'.m = s.m ∧ printEvery cfg t s = (true, s', []) ∨
      s'.m = .clean ∧ ∃ s₀, s₀.m = s.m ∧
        printEvery cfg t s = (true, s', [printMeasures s₀ t.print])) := by
  unfold printEvery
  simp only [startClock_started h, h, Bool.false_eq_true, false_and, if_false]
  split_ifs
  · exact ⟨openWindow cfg s, rfl, .inl ⟨rfl, rfl⟩⟩
  · exact ⟨nextWindow cfg (openWindow cfg s), rfl, .inr ⟨rfl, openWindow cfg s, rfl, rfl⟩⟩

theorem Printed.cons {s' : State K} {out : List (Report K)} {now : List (Window K)}
    (hstep : step cfg (.event t e) s = .ok (s', out))
    (hout : List.Forall₂ (Report.Prints cfg) out now) (h : Printed cfg s' calls windows) :
    Printed cfg s (.event t e :: calls) (now ++ windows) := by
  obtain ⟨s₁, more, hrun, hmore⟩ := h
  exact ⟨s₁, out ++ more, run_cons hstep hrun, List.rel_append hout hmore⟩

/-- The events are counted from an open window on, in which `g` was counted before. -/
theorem printed_counting (cfg : Config) (es : Window K) (tend : Timeval)
    (h : s.startup = false) (hm : s.m = tally cfg g) :
    ∃ windows, Printed cfg s (program es tend) windows ∧ windows.flatten = g ++ es := by
  induction es generalizing s g with
  | nil =>
    refine ⟨[g], ⟨s, [printMeasures s tend], rfl, .cons ⟨s, tend, hm, rfl⟩ .nil⟩, ?_⟩
    simp
  | cons e es ih =>
    obtain ⟨t, e⟩ := e
    obtain ⟨s', hs', ⟨hsame, hprint⟩ | ⟨hclean, s₀, hs₀, hprint⟩⟩ := printEvery_counting cfg t h
    · have hstep := (step_event_eq cfg t e s).trans (congrArg _ (reg_counting hprint _))
      obtain ⟨windows, hprinted, hflatten⟩ := ih
        (s := { s' with m := s'.m.add (e.worth cfg t), counted := s'.counted ++ [t.now] })
        (g := g ++ [(t, e)]) hs' (by simp [hsame, hm, tally])
      refine ⟨windows, hprinted.cons hstep .nil, ?_⟩
      rw [hflatten, List.append_assoc]
      rfl
    · have hstep := (step_event_eq cfg t e s).trans (congrArg _ (reg_counting hprint _))
      obtain ⟨windows, hprinted, hflatten⟩ := ih
        (s := { s' with m := s'.m.add (e.worth cfg t), counted := s'.counted ++ [t.now] })
        (g := [(t, e)]) hs' (by simp [hclean, tally])
      refine ⟨g :: windows, hprinted.cons hstep (.cons ⟨s₀, t.print, hs₀.trans hm, rfl⟩ .nil), ?_⟩
      rw [List.flatten_cons, hflatten]
      rfl

/-- The run from a state does not depend on what `print_every` sets first. -/
theorem Printed.congr {s' : State K} (h : printEvery cfg t s = printEvery cfg t s')
    (hprinted : Printed cfg s' (.event t e :: calls) windows) :
    Printed cfg s (.event t e :: calls) windows := by
  obtain ⟨s₁, out, hrun, hout⟩ := hprinted
  obtain ⟨s₂, now, more, hstep, hrest, rfl⟩ := run_cons_ok hrun
  exact ⟨s₁, now ++ more, run_cons ((step_event_congr h).trans hstep) hrest, hout⟩

/-- During the start-up no event is counted; the one that ends it is. -/
theorem printed_starting (cfg : Config) (es : Window K) (tend : Timeval)
    (h : s.startup = true) (hset : timerisset s.tstart) (hm : s.m = .clean) :
    ∃ windows, Printed cfg s (program es tend) windows ∧
      windows.flatten = es.dropWhile fun x => x.1.now.toUsec < s.tstart.toUsec := by
  induction es with
  | nil => exact ⟨[[]], ⟨s, [printMeasures s tend], rfl, .cons ⟨s, tend, hm, rfl⟩ .nil⟩, rfl⟩
  | cons e es ih =>
    obtain ⟨t, e⟩ := e
    have hclock : startClock cfg t.now s = s := if_neg fun hstart => hstart.2 hset
    by_cases hlt : t.now.toUsec < s.tstart.toUsec
    · have hskip : printEvery cfg t s = (false, s, []) := by
        unfold printEvery
        simp only [hclock, h, timercmp_lt, hlt, and_self, if_true]
      have hstep : step cfg (.event t e) s = .ok (s, []) := by
        rw [step_event_eq, reg, hskip]
        rfl
      obtain ⟨windows, hprinted, hflatten⟩ := ih
      refine ⟨windows, hprinted.cons hstep .nil, ?_⟩
      rw [hflatten, List.dropWhile_cons_of_pos (by simpa using hlt)]
    · have hopened := printEvery_opened cfg (hclock.symm ▸ hlt : ¬ t.now.toUsec <
        (startClock cfg t.now s).tstart.toUsec)
      obtain ⟨windows, hprinted, hflatten⟩ := printed_counting cfg ((t, e) :: es) tend
        (s := openWindow cfg (startClock cfg t.now s)) (g := []) rfl (by rw [hclock]; exact hm)
      refine ⟨windows, hprinted.congr hopened, ?_⟩
      rw [hflatten, List.dropWhile_cons_of_neg (by simpa using hlt)]
      rfl

/-- The run of the program. -/
theorem printed_init (cfg : Config) (es : Window K) (tend : Timeval)
    (hstart : ∀ e ∈ es.head?, 0 < e.1.now.toUsec + cfg.tstartdiff.toUsec) :
    ∃ windows, Printed cfg (.init : State K) (program es tend) windows ∧
      windows.flatten = afterStartup cfg es := by
  cases es with
  | nil =>
    exact ⟨[[]], ⟨.init, [printMeasures .init tend], rfl, .cons ⟨.init, tend, rfl, rfl⟩ .nil⟩, rfl⟩
  | cons e es =>
    obtain ⟨t, e⟩ := e
    have hclock := startClock_init (K := K) cfg t.now
    have htstart : (startClock cfg t.now (.init : State K)).tstart.toUsec =
        t.now.toUsec + cfg.tstartdiff.toUsec := by
      rw [hclock]
      exact toUsec_timeradd ..
    have hset : timerisset (startClock cfg t.now (.init : State K)).tstart := by
      rw [timerisset_iff, htstart]
      exact (hstart _ rfl).ne'
    have hagain : startClock cfg t.now (startClock cfg t.now (.init : State K)) =
        startClock cfg t.now .init := if_neg fun hstart => hstart.2 hset
    have hsame : printEvery cfg t (.init : State K) =
        printEvery cfg t (startClock cfg t.now .init) := by
      unfold printEvery
      rw [hagain]
    obtain ⟨windows, hprinted, hflatten⟩ := printed_starting cfg ((t, e) :: es) tend
      (s := startClock cfg t.now .init) (by rw [hclock]; rfl) hset (by rw [hclock]; rfl)
    refine ⟨windows, hprinted.congr hsame, ?_⟩
    rw [hflatten, htstart]
    rfl

/-! ## Shares -/

section Shares

/-- The parts are not larger than the whole. -/
structure Counters.Bounded (m : Counters K) : Prop where
  played : 0 ≤ m.played ∧ m.played ≤ m.chunks
  received : 0 ≤ m.chunksReceivedNodup ∧ 0 ≤ m.chunksReceivedDup ∧ 0 ≤ m.chunksReceivedOld
  out : 0 ≤ m.acceptsOut ∧ m.acceptsOut ≤ m.offersOut
  inn : 0 ≤ m.acceptsIn ∧ m.acceptsIn ≤ m.offersIn

omit [DecidableEq K] in
theorem Counters.Bounded.add {m m' : Counters K} (h : m.Bounded) (h' : m'.Bounded) :
    (m.add m').Bounded := by
  obtain ⟨hplayed, hreceived, hout, hin⟩ := h
  obtain ⟨hplayed', hreceived', hout', hin'⟩ := h'
  constructor <;> simp only [Counters.add] <;> omega

omit [DecidableEq K] in
theorem bounded_worth (cfg : Config) (t : Readings) (e : Event K) : (e.worth cfg t).Bounded := by
  cases e <;> constructor <;> simp only [Event.worth] <;> (try split_ifs) <;> simp [Counters.clean]

omit [DecidableEq K] in
theorem bounded_tally (cfg : Config) (es : Window K) : (tally cfg es).Bounded := by
  induction es using List.reverseRecOn with
  | nil =>
    exact ⟨⟨le_rfl, le_rfl⟩, ⟨le_rfl, le_rfl, le_rfl⟩, ⟨le_rfl, le_rfl⟩, ⟨le_rfl, le_rfl⟩⟩
  | append_singleton es e ih =>
    rw [tally, List.foldl_append]
    exact ih.add (bounded_worth cfg e.1 e.2)

/-- The measures that are shares. -/
def shares : List String :=
  ["PlayoutRatio", "ReceiveRatio(intime&nodup-vs-all)", "OfferAcceptOutRatio",
    "OfferAcceptInRatio"]

theorem mem_ratio {name name' : String} {x : K} {n : Int} {v : Option K} :
    (name, v) ∈ ratio name' x n ↔ n ≠ 0 ∧ name = name' ∧ v = quotient x n := by
  unfold ratio
  split_ifs with h <;> simp [h]

/-- A share that is printed is the quotient of a part by its whole. -/
theorem exists_share {name : String} (hname : name ∈ shares) {tnow : Timeval}
    (hbound : s.m.Bounded) {v : Option K} (h : (name, v) ∈ measures s tnow) :
    ∃ part whole : Int, 0 ≤ part ∧ part ≤ whole ∧ whole ≠ 0 ∧ v = quotient (part : K) whole := by
  obtain ⟨hplayed, hreceived, hout, hin⟩ := hbound
  simp only [shares, List.mem_cons, List.not_mem_nil, or_false] at hname
  obtain rfl | rfl | rfl | rfl := hname
  · obtain ⟨hne, hv⟩ : s.m.chunks ≠ 0 ∧ v = quotient (s.m.played : K) s.m.chunks := by
      simpa [measures, mem_ratio] using h
    exact ⟨_, _, hplayed.1, hplayed.2, hne, hv⟩
  · obtain ⟨hne, hv⟩ : s.m.chunksReceivedOld + s.m.chunksReceivedNodup + s.m.chunksReceivedDup ≠ 0 ∧
        v = quotient (s.m.chunksReceivedNodup : K)
          (s.m.chunksReceivedOld + s.m.chunksReceivedNodup + s.m.chunksReceivedDup : Int) := by
      simpa [measures, mem_ratio] using h
    exact ⟨_, _, hreceived.1, by omega, hne, hv⟩
  · obtain ⟨hne, hv⟩ : s.m.offersOut ≠ 0 ∧ v = quotient (s.m.acceptsOut : K) s.m.offersOut := by
      simpa [measures, mem_ratio] using h
    exact ⟨_, _, hout.1, hout.2, hne, hv⟩
  · obtain ⟨hne, hv⟩ : s.m.offersIn ≠ 0 ∧ v = quotient (s.m.acceptsIn : K) s.m.offersIn := by
      simpa [measures, mem_ratio] using h
    exact ⟨_, _, hin.1, hin.2, hne, hv⟩

end Shares

section Account

variable {F : Type} [Field F] [LinearOrder F] [IsStrictOrderedRing F]

theorem quotient_share {part whole : Int} (h0 : 0 ≤ part) (hle : part ≤ whole) (hne : whole ≠ 0) :
    ∃ x : F, quotient (part : F) whole = some x ∧ 0 ≤ x ∧ x ≤ 1 := by
  have hpos : (0 : F) < whole := by
    exact_mod_cast lt_of_le_of_ne (h0.trans hle) hne.symm
  refine ⟨part / whole, if_neg hpos.ne', div_nonneg (by exact_mod_cast h0) hpos.le, ?_⟩
  rw [div_le_one hpos]
  exact_mod_cast hle

/-- The shares that are printed lie between 0 and 1. -/
theorem Report.Prints.share {r : Report F} {es : Window F} (h : r.Prints cfg es) {name : String}
    (hname : name ∈ shares) {v : Option F} (hv : (name, v) ∈ r.measures) :
    ∃ x, v = some x ∧ 0 ≤ x ∧ x ≤ 1 := by
  obtain ⟨s, tnow, hm, rfl⟩ := h
  obtain ⟨part, whole, h0, hle, hne, rfl⟩ :=
    exists_share hname (hm ▸ bounded_tally cfg es) hv
  exact quotient_share h0 hle hne

/-- In every run, the reports together account for the events since the start-up: each event is in
the window of one report, in the order in which the events were registered; and the shares that are
printed lie between 0 and 1. -/
theorem reports_account (cfg : Config) (es : Window F) (tend : Timeval)
    (hstart : ∀ e ∈ es.head?, 0 < e.1.now.toUsec + cfg.tstartdiff.toUsec) :
    ∃ s out windows, run (step cfg) (program es tend) (.init : State F) = .ok (s, out) ∧
      List.Forall₂ (Report.Prints cfg) out windows ∧ windows.flatten = afterStartup cfg es ∧
      ∀ r ∈ out, ∀ name ∈ shares, ∀ v, (name, v) ∈ r.measures →
        ∃ x, v = some x ∧ 0 ≤ x ∧ x ≤ 1 := by
  obtain ⟨windows, ⟨s, out, hrun, hout⟩, hflatten⟩ := printed_init cfg es tend hstart
  have hshares : ∀ r ∈ out, ∀ name ∈ shares, ∀ v, (name, v) ∈ r.measures →
      ∃ x, v = some x ∧ 0 ≤ x ∧ x ≤ 1 := by
    apply And.left
    rw [← List.forall₂_and_left out windows]
    exact hout.imp fun r es h => ⟨fun name hname v hv => h.share hname hv, h⟩
  exact ⟨s, out, windows, hrun, hout, hflatten, hshares⟩

end Account

/-- An event that is registered at a number of seconds. -/
def registeredAt (sec : Int) (e : Event ℚ) : Readings × Event ℚ :=
  let t := Timeval.ofUsec (sec * 1000000)
  (⟨t, t, t⟩, e)

/-- An event of the start-up, two of the first hour, and one of the second hour. -/
def played : Window ℚ :=
  [registeredAt 1000 .chunkSend, registeredAt 1060 (.chunkPlayout true 1059000000),
    registeredAt 1070 (.chunkPlayout false 1068000000), registeredAt 5000 .chunkSend]

theorem reports_account_played :
    ∃ s out windows,
      run (step defaults) (program played (.ofUsec 6000000000)) .init = .ok (s, out) ∧
      List.Forall₂ (Report.Prints defaults) out windows ∧
      windows.flatten = afterStartup defaults played ∧
      ∀ r ∈ out, ∀ name ∈ shares, ∀ v, (name, v) ∈ r.measures →
        ∃ x, v = some x ∧ 0 ≤ x ∧ x ≤ 1 := by
  apply reports_account
  rintro e ⟨rfl⟩
  decide

end PeerStreamer.Measures
