import PeerStreamer.Loop

/-!
# The schedule of a timed source

An input that needs no descriptors is asked for a chunk after a timeout only, and says how long it
wants to be left alone.  The loop wakes up at the earlier of this time and the offer time, and asks
the input in both cases.  So the input is asked too early exactly when the offer time comes first
(`onSchedule_iff_inTurn`).
-/

namespace PeerStreamer.Loop

open Timeval

/-- The branch of the turn that asks the input. -/
def Turn.AsksInput (turn : Turn) : Prop := turn.res = 0 ∨ turn.res = 2

instance (turn : Turn) : Decidable turn.AsksInput := inferInstanceAs (Decidable (_ ∨ _))

/-- The clock readings of a turn. -/
def Turn.times (turn : Turn) : List Timeval :=
  if turn.AsksInput then [turn.asked, turn.woken, turn.input.called, turn.input.tnow]
  else [turn.asked, turn.woken]

/-- `wait4data` without descriptors: there is no data from the source, and a timeout is reported
once the time has passed. -/
structure Turn.Waits (s : State) (turn : Turn) : Prop where
  noData : turn.res ≠ 2
  timeout : turn.res = 0 →
    turn.asked.toUsec + (toutInit turn.asked s.tnext).toUsec ≤ turn.woken.toUsec

/-- A run with a clock that does not go backwards, on an input without descriptors. -/
structure Timely (chunks : ℕ) (turns : List Turn) (s₀ : State) : Prop where
  clock : (turns.flatMap Turn.times).Pairwise fun a b => a.toUsec ≤ b.toUsec
  waits : Run.Along (iteration chunks) Turn.Waits turns s₀

/-- The calls of `input_get`: their times and the timeouts they return. -/
def calls (events : List Event) : List (Timeval × Int) :=
  events.filterMap fun e => match e with
    | .inputGet time delay => some (time, delay)
    | _ => none

/-- Each call of `input_get` comes no earlier than the timeout of the previous call asks for. -/
def OnSchedule (chunks : ℕ) (turns : List Turn) (s₀ : State) : Prop :=
  ∀ pre turn, pre ++ [turn] <+: turns → turn.AsksInput →
    ∀ s events, sourceLoop chunks pre s₀ = .ok (s, events) →
      ∀ c ∈ (calls events).getLast?, c.1.toUsec + c.2 ≤ turn.input.called.toUsec

/-- The offer time after the check whether to send an offer. -/
def offerTime (s : State) (i : Input) : Timeval :=
  if timercmp i.tnow s.tnextp (· ≥ ·) then timeradd s.tnextp i.period else s.tnextp

/-- The timeout the input asks for is over by the next offer time, or has been used up by the call
itself. -/
def InTurn (s : State) (turn : Turn) : Prop :=
  turn.AsksInput → turn.input.called.toUsec + turn.input.delay ≤
    max turn.input.tnow.toUsec (offerTime s turn.input).toUsec

/-! ## One turn -/

variable {chunks : ℕ} {turn : Turn} {turns : List Turn} {s s' s₀ : State} {events : List Event}

/-- The timeout of `tout_init` lasts until `tnext`. -/
theorem toutInit_spec (tnow tnext : Timeval) :
    tnow.toUsec + (toutInit tnow tnext).toUsec = max tnow.toUsec tnext.toUsec := by
  unfold toutInit
  split_ifs with h
  · rw [timercmp_lt] at h
    rw [toUsec_timersub]
    omega
  · rw [timercmp_lt] at h
    rw [toUsec_ofUsec]
    omega

theorem calls_append (a b : List Event) : calls (a ++ b) = calls a ++ calls b :=
  List.filterMap_append

theorem calls_countPeers (cnt : ℕ) : calls (countPeers cnt).2 = [] := by
  unfold countPeers
  split_ifs <;> rfl

theorem calls_handleMessage (m : Option MessageType) : calls (handleMessage m) = [] := by
  rcases m with _ | (_ | _ | _ | _ | _ | _) <;> rfl

theorem calls_handleChunk (i : Input) (s : State) : calls (handleChunk chunks i s).2 = [] := by
  unfold handleChunk
  split_ifs
  · have hsend : calls (List.replicate chunks .sendChunk) = [] := by
      induction chunks with
      | zero => rfl
      | succ n ih => exact ih
    show calls (.addChunk :: List.replicate chunks .sendChunk ++ (countPeers s.cnt).2) = []
    rw [calls_append, calls_countPeers, List.append_nil]
    exact hsend
  · rfl

theorem calls_checkOffer (i : Input) (s : State) : calls (checkOffer i s).2 = [] := by
  unfold checkOffer
  split_ifs
  · exact calls_countPeers s.cnt
  · rfl

theorem tnextp_handleChunk (i : Input) (s : State) :
    (handleChunk chunks i s).1.tnextp = s.tnextp := by
  unfold handleChunk
  split_ifs <;> rfl

theorem tnextp_checkOffer (i : Input) (s : State) :
    (checkOffer i s).1.tnextp = offerTime s i := by
  unfold checkOffer offerTime
  split_ifs <;> rfl

/-- The next wake-up is at the earlier of the two times. -/
theorem tnext_nextTimeout (i : Input) (s : State) : (nextTimeout i s).tnext.toUsec =
    min s.tnextp.toUsec (i.tnow.toUsec + i.delay) := by
  unfold nextTimeout
  dsimp only
  split_ifs with h
  · rw [timercmp_lt, toUsec_timeradd, toUsec_ofUsec] at h
    omega
  · rw [timercmp_lt, toUsec_timeradd, toUsec_ofUsec] at h
    rw [toUsec_timeradd, toUsec_ofUsec]
    omega

/-- A turn that asks the input: it makes one call, and the next wake-up is the earlier of the offer
time and the time the input asks for. -/
theorem handleInput_ok (chunks : ℕ) {i : Input} (hd : 0 ≤ i.delay) (s : State) :
    ∃ s' events, handleInput chunks i s = .ok (s', events) ∧
      calls events = [(i.called, i.delay)] ∧
      s'.tnext.toUsec = min (offerTime s i).toUsec (i.tnow.toUsec + i.delay) := by
  have htnextp : offerTime (handleChunk chunks i s).1 i = offerTime s i := by
    unfold offerTime
    rw [tnextp_handleChunk]
  refine ⟨_, _, if_neg (by omega), ?_, ?_⟩
  · show calls ([.inputGet i.called i.delay] ++ (handleChunk chunks i s).2 ++
      (checkOffer i (handleChunk chunks i s).1).2) = _
    rw [calls_append, calls_append, calls_handleChunk, calls_checkOffer]
    rfl
  · show (nextTimeout i (checkOffer i (handleChunk chunks i s).1).1).tnext.toUsec = _
    rw [tnext_nextTimeout, tnextp_checkOffer, htnextp]

theorem iteration_asks (chunks : ℕ) (s : State) (h : turn.AsksInput) :
    iteration chunks turn s = handleInput chunks turn.input s := by
  have h1 : turn.res ≠ 1 := by
    rcases h with h0 | h2 <;> omega
  exact (if_neg h1).trans (if_pos h)

/-- What a turn does to the calls and to the wake-up time. -/
theorem iteration_ok (h : iteration chunks turn s = .ok (s', events)) :
    (¬ turn.AsksInput ∧ calls events = [] ∧ s'.tnext = s.tnext) ∨
      (turn.AsksInput ∧ calls events = [(turn.input.called, turn.input.delay)] ∧
        s'.tnext.toUsec = min (offerTime s turn.input).toUsec
          (turn.input.tnow.toUsec + turn.input.delay)) := by
  by_cases hask : turn.AsksInput
  · rw [iteration_asks chunks s hask] at h
    by_cases hd : turn.input.delay < 0
    · rw [handleInput, if_pos hd] at h
      cases h
    · obtain ⟨t, ev, hok, hcalls, htnext⟩ := handleInput_ok chunks (Int.not_lt.1 hd) s
      obtain ⟨rfl, rfl⟩ := Prod.mk.inj (Except.ok.inj (hok.symm.trans h))
      exact Or.inr ⟨hask, hcalls, htnext⟩
  · left
    by_cases h1 : turn.res = 1
    · obtain ⟨rfl, rfl⟩ := Prod.mk.inj (Except.ok.inj ((if_pos h1).symm.trans h))
      exact ⟨hask, calls_handleMessage _, rfl⟩
    · obtain ⟨rfl, rfl⟩ := Prod.mk.inj (Except.ok.inj
        (((if_neg h1).trans (if_neg hask)).symm.trans h))
      exact ⟨hask, rfl, rfl⟩

/-! ## Runs -/

theorem Timely.of_isPrefix {pre : List Turn} (h : Timely chunks turns s₀) (hp : pre <+: turns) :
    Timely chunks pre s₀ := by
  obtain ⟨post, rfl⟩ := hp
  refine ⟨?_, h.waits.of_isPrefix (List.prefix_append ..)⟩
  have hclock := h.clock
  rw [List.flatMap_append] at hclock
  exact (List.pairwise_append.1 hclock).1

/-- Within a turn that asks the input, and against the turns before it, the clock goes on. -/
theorem Timely.last (h : Timely chunks (turns ++ [turn]) s₀) (hask : turn.AsksInput) :
    turn.asked.toUsec ≤ turn.woken.toUsec ∧ turn.woken.toUsec ≤ turn.input.called.toUsec ∧
      turn.input.called.toUsec ≤ turn.input.tnow.toUsec ∧
      ∀ t ∈ turns.flatMap Turn.times, t.toUsec ≤ turn.asked.toUsec := by
  have hclock := h.clock
  rw [List.flatMap_append, List.flatMap_singleton, Turn.times, if_pos hask,
    List.pairwise_append] at hclock
  obtain ⟨-, hturn, hbefore⟩ := hclock
  simp only [List.pairwise_cons, List.forall_mem_cons] at hturn
  exact ⟨hturn.1.1, hturn.2.1.1, hturn.2.2.1.1, fun t ht => hbefore t ht _ (by simp)⟩

/-- The timeout of the last call is over by the wake-up time, or it is over already. -/
def Settled (turns : List Turn) (s : State) (events : List Event) : Prop :=
  ∀ c ∈ (calls events).getLast?, c.1.toUsec + c.2 ≤ s.tnext.toUsec ∨
    ∃ t ∈ turns.flatMap Turn.times, c.1.toUsec + c.2 ≤ t.toUsec

/-- A turn that is in turn settles its own call and keeps the previous one settled. -/
theorem settled_iteration {more : List Event} (hs : Settled turns s events)
    (hc : InTurn s turn)
    (hclock : turn.AsksInput → turn.input.called.toUsec ≤ turn.input.tnow.toUsec)
    (h : iteration chunks turn s = .ok (s', more)) :
    Settled (turns ++ [turn]) s' (events ++ more) := by
  intro c hlast
  rcases iteration_ok h with ⟨-, hcalls, htnext⟩ | ⟨hask, hcalls, htnext⟩
  · rw [calls_append, hcalls, List.append_nil] at hlast
    rw [htnext]
    refine (hs c hlast).imp_right fun ⟨t, ht, hle⟩ => ⟨t, ?_, hle⟩
    rw [List.flatMap_append]
    exact List.mem_append_left _ ht
  · rw [calls_append, hcalls, List.getLast?_concat, Option.mem_some_iff] at hlast
    subst hlast
    have hmem : turn.input.tnow ∈ (turns ++ [turn]).flatMap Turn.times := by
      rw [List.flatMap_append, List.flatMap_singleton, Turn.times, if_pos hask]
      simp
    by_cases hle : turn.input.called.toUsec + turn.input.delay ≤ turn.input.tnow.toUsec
    · exact Or.inr ⟨_, hmem, hle⟩
    · have hoffer := hc hask
      have hcalled := hclock hask
      left
      rw [htnext]
      show turn.input.called.toUsec + turn.input.delay ≤ _
      omega

/-- After a run whose calls are in turn, the last call is settled. -/
theorem settled_of_inTurn (ht : Timely chunks turns s₀)
    (hc : Run.Along (iteration chunks) InTurn turns s₀)
    (h : sourceLoop chunks turns s₀ = .ok (s, events)) : Settled turns s events := by
  have hclock : Run.Along (iteration chunks) (fun _ turn => turn.AsksInput →
      turn.input.called.toUsec ≤ turn.input.tnow.toUsec) turns s₀ := by
    intro pre turn hp _ _ _ hask
    exact ((ht.of_isPrefix hp).last hask).2.2.1
  refine Run.invariant Settled ?_ ?_ (hc.and hclock) h
  · intro c hlast
    cases hlast
  · intro pre turn s events s' more hs hturn hstep
    exact settled_iteration hs hturn.1 hturn.2 hstep

/-- The turn after a timeout with no delay on the way. -/
def promptTurn (tnow tnext : Timeval) : Turn :=
  let woken := if tnow.toUsec < tnext.toUsec then tnext else tnow
  { asked := tnow, res := 0, woken := woken, message := none
    input := { called := woken, delay := 0, data := false, tnow := woken, period := ofUsec 0 } }

theorem toUsec_promptTurn (tnow tnext : Timeval) :
    (promptTurn tnow tnext).woken.toUsec = max tnow.toUsec tnext.toUsec := by
  unfold promptTurn
  dsimp only
  split_ifs <;> omega

theorem times_promptTurn (tnow tnext : Timeval) : (promptTurn tnow tnext).times =
    [tnow, (promptTurn tnow tnext).woken, (promptTurn tnow tnext).woken,
      (promptTurn tnow tnext).woken] :=
  if_pos (Or.inl rfl)

/-- A run can go on with a prompt turn after it has asked the input. -/
theorem timely_promptTurn (ht : Timely chunks (turns ++ [turn]) s₀) (hask : turn.AsksInput)
    (h : sourceLoop chunks (turns ++ [turn]) s₀ = .ok (s, events)) :
    Timely chunks (turns ++ [turn] ++ [promptTurn turn.input.tnow s.tnext]) s₀ := by
  obtain ⟨haw, hwc, hcn, hbefore⟩ := ht.last hask
  have hwoken := toUsec_promptTurn turn.input.tnow s.tnext
  constructor
  · rw [List.flatMap_append, List.pairwise_append]
    refine ⟨ht.clock, ?_, ?_⟩
    · simp only [List.flatMap_singleton, times_promptTurn, List.pairwise_cons,
        List.forall_mem_cons, List.not_mem_nil, false_imp_iff, implies_true, List.Pairwise.nil,
        and_true]
      omega
    · intro t ht' t' ht''
      have hle : t.toUsec ≤ turn.input.tnow.toUsec := by
        rw [List.flatMap_append, List.flatMap_singleton, Turn.times, if_pos hask] at ht'
        simp only [List.mem_append, List.mem_cons, List.not_mem_nil, or_false] at ht'
        rcases ht' with ht' | rfl | rfl | rfl | rfl
        · have := hbefore t ht'
          omega
        · omega
        · omega
        · exact hcn
        · exact Int.le_refl _
      rw [List.flatMap_singleton, times_promptTurn] at ht''
      simp only [List.mem_cons, List.not_mem_nil, or_false] at ht''
      rcases ht'' with rfl | rfl | rfl | rfl <;> omega
  · refine Run.along_concat.2 ⟨ht.waits, fun s' events' h' => ?_⟩
    obtain ⟨rfl, -⟩ := Prod.mk.inj (Except.ok.inj (h.symm.trans h'))
    refine ⟨by show (0 : Int) ≠ 2; decide, fun _ => ?_⟩
    rw [hwoken]
    exact Int.le_of_eq (toutInit_spec turn.input.tnow s.tnext)

/-- When the last call is settled the next one is on schedule. -/
theorem Settled.called_le (hs : Settled turns s events) (ht : Timely chunks (turns ++ [turn]) s₀)
    (hask : turn.AsksInput) (h : sourceLoop chunks turns s₀ = .ok (s, events)) :
    ∀ c ∈ (calls events).getLast?, c.1.toUsec + c.2 ≤ turn.input.called.toUsec := by
  intro c hc
  obtain ⟨haw, hwc, -, hbefore⟩ := ht.last hask
  have hwaits := (Run.along_concat.1 ht.waits).2 s events h
  have hres : turn.res = 0 := hask.resolve_right hwaits.noData
  have hwoken := hwaits.timeout hres
  rw [toutInit_spec] at hwoken
  rcases hs c hc with hle | ⟨t, ht, hle⟩
  · omega
  · have := hbefore t ht
    omega

/-- The calls of the input stay on schedule however a run goes on, if and only if every call is in
turn: the timeout it returns is over by the next offer time, or was used up by the call itself. -/
theorem onSchedule_iff_inTurn (chunks : ℕ) (turns : List Turn) (s₀ : State)
    (ht : Timely chunks turns s₀) :
    (∀ pre, pre <+: turns → ∀ next, Timely chunks (pre ++ [next]) s₀ →
      OnSchedule chunks (pre ++ [next]) s₀) ↔ Run.Along (iteration chunks) InTurn turns s₀ := by
  constructor
  · intro h pre turn hp s events hr hask
    by_contra hlate
    have htp := ht.of_isPrefix hp
    obtain ⟨-, -, hcn, -⟩ := htp.last hask
    have hd : 0 ≤ turn.input.delay := by omega
    obtain ⟨s', more, hok, hcalls, htnext⟩ := handleInput_ok chunks hd s
    have hiter := (iteration_asks chunks s hask).trans hok
    have hrun : sourceLoop chunks (pre ++ [turn]) s₀ = .ok (s', events ++ more) :=
      Run.run_append hr (Run.run_singleton hiter)
    have hnext := h (pre ++ [turn]) hp _ (timely_promptTurn htp hask hrun) (pre ++ [turn]) _
      (List.prefix_refl _) (Or.inl rfl) s' _ hrun
    have hlast : (turn.input.called, turn.input.delay) ∈ (calls (events ++ more)).getLast? := by
      rw [calls_append, hcalls, List.getLast?_concat]
      rfl
    have hle : turn.input.called.toUsec + turn.input.delay ≤
        (promptTurn turn.input.tnow s'.tnext).woken.toUsec := hnext _ hlast
    rw [toUsec_promptTurn] at hle
    omega
  · intro hc pre hpre next hnext p turn hp hask s events hr
    have hp' : p <+: pre := by
      rcases List.prefix_concat_iff.1 hp with heq | hp
      · exact (List.append_inj' heq rfl).1 ▸ List.prefix_refl _
      · exact (List.prefix_append ..).trans hp
    have htp := ht.of_isPrefix (hp'.trans hpre)
    exact (settled_of_inTurn htp (hc.of_isPrefix (hp'.trans hpre)) hr).called_le
      (hnext.of_isPrefix hp) hask hr

/-- A turn after a timeout at `t` microseconds: the input has a chunk and asks for `delay`. -/
def chunkTurn (asked t : Int) (delay : Int) (period : Int) : Turn where
  asked := ofUsec asked
  res := 0
  woken := ofUsec t
  message := none
  input := ⟨ofUsec t, delay, true, ofUsec t, ofUsec period⟩

/-- A chunk every 40 ms, with an offer period of 500 ms. -/
theorem onSchedule_chunks :
    Timely 1 [chunkTurn 0 0 40000 500000, chunkTurn 0 40000 40000 500000]
        (.init (ofUsec 0) (ofUsec 0)) ∧
      ∀ pre, pre <+: [chunkTurn 0 0 40000 500000, chunkTurn 0 40000 40000 500000] →
        ∀ next, Timely 1 (pre ++ [next]) (.init (ofUsec 0) (ofUsec 0)) →
          OnSchedule 1 (pre ++ [next]) (.init (ofUsec 0) (ofUsec 0)) := by
  have htimely : Timely 1 [chunkTurn 0 0 40000 500000, chunkTurn 0 40000 40000 500000]
      (.init (ofUsec 0) (ofUsec 0)) := by
    refine ⟨by decide, Run.along_cons.2 ⟨⟨by decide, by decide⟩, fun s events h => ?_⟩⟩
    obtain ⟨rfl, rfl⟩ := Prod.mk.inj (Except.ok.inj h)
    exact Run.along_cons.2 ⟨⟨by decide, by decide⟩, fun _ _ _ => Run.along_nil⟩
  refine ⟨htimely, (onSchedule_iff_inTurn 1 _ _ htimely).2 ?_⟩
  refine Run.along_cons.2 ⟨fun _ => by decide, fun s events h => ?_⟩
  obtain ⟨rfl, rfl⟩ := Prod.mk.inj (Except.ok.inj h)
  exact Run.along_cons.2 ⟨fun _ => by decide, fun _ _ _ => Run.along_nil⟩

/-- The input asks for a second, but the offers have a period of half a second: the input is asked
again at the next offer time. -/
theorem not_onSchedule_offer :
    Timely 1 [chunkTurn 0 0 1000000 500000, chunkTurn 0 500000 1000000 500000]
        (.init (ofUsec 0) (ofUsec 0)) ∧
      ¬ OnSchedule 1 [chunkTurn 0 0 1000000 500000, chunkTurn 0 500000 1000000 500000]
        (.init (ofUsec 0) (ofUsec 0)) := by
  constructor
  · refine ⟨by decide, Run.along_cons.2 ⟨⟨by decide, by decide⟩, fun s events h => ?_⟩⟩
    obtain ⟨rfl, rfl⟩ := Prod.mk.inj (Except.ok.inj h)
    exact Run.along_cons.2 ⟨⟨by decide, by decide⟩, fun _ _ _ => Run.along_nil⟩
  · intro h
    have hlast := h [chunkTurn 0 0 1000000 500000] _ (List.prefix_refl _) (Or.inl rfl) _ _ rfl
      (ofUsec 0, 1000000) (by decide)
    exact absurd hlast (by decide)

end PeerStreamer.Loop
