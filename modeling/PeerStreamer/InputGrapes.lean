import PeerStreamer.ChunkAttributes
import PeerStreamer.Lib.Run
import PeerStreamer.Lib.Timeval
import Mathlib.Tactic.SplitIfs

/-!
# The timed input (`input-grapes.c`)

`input_get` asks the chunkiser for a chunk and returns how long to wait before the next call.  The
delay is counted from the time at which the input was opened and from the first timestamp; the latter
is stored when the stored one is 0, which also is what stands for none.  The chunkiser is GRAPES code:
what `chunkise` returns and leaves in the chunk is an argument, and so is the reading of the clock.
-/

namespace PeerStreamer.InputGrapes

/-- `struct input_desc`, without the stream of the chunkiser. -/
structure InputDesc where
  id : Int
  interframe : Int
  startTime : UInt64
  firstTs : UInt64
  deriving DecidableEq, Repr

/-- The result of `chunkise`, and what it leaves in the chunk: no data stand for `NULL`. -/
structure Chunkised where
  res : Int
  timestamp : UInt64
  data : Option (List UInt8)
  attributes : List UInt8
  deriving DecidableEq, Repr

/-- What a call of `input_get` meets. -/
structure Call where
  chunkised : Chunkised
  now : Timeval
  deriving DecidableEq, Repr

/-- `tv_usec + tv_sec * 1000000ULL` -/
def timenow (t : Timeval) : UInt64 := UInt64.ofInt (t.usec + t.sec * 1000000)

/-- `input_open`, for the record that `malloc` returns, the time between two chunks that the chunkiser
tells (0 for an input with file descriptors) and `initial_id`. -/
def inputOpen (res : InputDesc) (interframe initialId : Int) (tv : Timeval) : InputDesc :=
  if interframe = 0 then { res with interframe := interframe }
  else
    { id :=
        if initialId = -1 then
          toInt (timenow tv / UInt64.ofInt interframe % UInt64.ofInt INT_MAX).toNat
        else initialId
      interframe := interframe
      startTime := timenow tv
      firstTs := 0 }

/-- The first timestamp is stored; a timestamp of 0 leaves the place free. -/
def latch (ts : UInt64) (s : InputDesc) : InputDesc :=
  if s.firstTs = 0 then { s with firstTs := ts } else s

/-- The delay of a timed input.  The sums are of type `uint64_t`, and each is stored as an
`int64_t`. -/
def delta (ts : UInt64) (now : Timeval) (s : InputDesc) : Int :=
  let delta := toInt64 (ts.toNat - s.firstTs.toNat + s.interframe)
  let delta := toInt64 (delta + s.startTime.toNat - now.sec * 1000000 - now.usec)
  if delta < 0 then 0 else delta

/-- `input_get`: the returned value, the chunk and the record. -/
def inputGet (call : Call) (s : InputDesc) : Except Fault (Int × Chunk × InputDesc) :=
  let k := call.chunkised
  let c : Chunk := ⟨s.id, k.timestamp, k.data.getD [], k.attributes⟩
  if k.res < 0 then .ok (-1, c, s)
  else do
    let id ← if 0 < k.res then int (s.id + 1) else .ok s.id
    let s := latch k.timestamp { s with id := id }
    let delay := if s.interframe ≠ 0 then delta k.timestamp call.now s else INT_MAX
    return (toInt delay, { c with timestamp := timenow call.now }, s)

/-- `generated_chunk` of `streaming.c`: the chunk, if `chunkise` left data in it, and the delay. -/
def generatedChunk (verify : List UInt8 → Option Int) (call : Call) (s : InputDesc) :
    Except Fault (Option Chunk × Int × InputDesc) := do
  let (delay, c, s) ← inputGet call s
  if delay < 0 then .error (.exit (-1))
  else if call.chunkised.data = none then return (none, delay, s)
  else do
    let c ← chunkAttributesFill verify c
    return (some c, delay, s)

/-- A call, with the value it returns. -/
def step (call : Call) (s : InputDesc) : Except Fault (InputDesc × List Int) := do
  let (delay, _, s) ← inputGet call s
  return (s, [delay])

variable {ts₀ : UInt64} {call : Call} {calls : List Call} {s s' : InputDesc} {c : Chunk}
  {delay : Int}

/-! ## The returned value -/

theorem delta_eq (ts : UInt64) (now : Timeval) (s : InputDesc) :
    delta ts now s =
      max (toInt64 (s.startTime.toNat + (ts.toNat - s.firstTs.toNat) + s.interframe - now.toUsec))
        0 := by
  have hsum : ∀ x a b c : Int,
      toInt64 (toInt64 x + a - b - c) = toInt64 (x + (a - b - c)) := by
    intro x a b c
    have hadd : toInt64 x + a - b - c = toInt64 x + (a - b - c) := by omega
    rw [hadd]
    exact Int.bmod_add_bmod
  have harg : (ts.toNat - s.firstTs.toNat + s.interframe +
      (s.startTime.toNat - now.sec * 1000000 - now.usec) : Int) =
      s.startTime.toNat + (ts.toNat - s.firstTs.toNat) + s.interframe - now.toUsec := by
    rw [Timeval.toUsec]
    omega
  unfold delta
  simp only [hsum, harg]
  split_ifs
  · omega
  · omega

/-- The wait for the time of a chunk, when times are counted from the timestamp `ts₀`. -/
def wait (ts₀ : UInt64) (s : InputDesc) (call : Call) : Int :=
  s.startTime.toNat + (call.chunkised.timestamp.toNat - ts₀.toNat) + s.interframe - call.now.toUsec

/-- How much later than `ts₀` the timestamp is from which the code counts. -/
def late (ts₀ : UInt64) (s : InputDesc) (call : Call) : Int :=
  (latch call.chunkised.timestamp s).firstTs.toNat - ts₀.toNat

/-- The first timestamp that is not 0 takes the free place. -/
theorem latch_eq (ts : UInt64) (s : InputDesc) :
    latch ts s = { s with firstTs := if s.firstTs = 0 then ts else s.firstTs } := by
  unfold latch
  split_ifs <;> rfl

/-- A call of a chunkiser that does not fail: it returns unless the counter of the chunks is at its
end. -/
theorem inputGet_eq (ts₀ : UInt64) (hres : 0 ≤ call.chunkised.res) (hi : s.interframe ≠ 0) :
    inputGet call s = (if 0 < call.chunkised.res then int (s.id + 1) else .ok s.id) >>= fun id =>
      .ok (toInt (max (toInt64 (wait ts₀ s call - late ts₀ s call)) 0),
        ⟨s.id, timenow call.now, call.chunkised.data.getD [], call.chunkised.attributes⟩,
        latch call.chunkised.timestamp { s with id := id }) := by
  have hdelta : ∀ id, delta call.chunkised.timestamp call.now
      (latch call.chunkised.timestamp { s with id := id }) =
      max (toInt64 (wait ts₀ s call - late ts₀ s call)) 0 := by
    intro id
    rw [delta_eq]
    congr 2
    simp only [wait, late, latch_eq]
    omega
  have hframe : ∀ id, (latch call.chunkised.timestamp { s with id := id }).interframe ≠ 0 := by
    intro id
    rw [latch_eq]
    exact hi
  unfold inputGet
  simp only [if_neg (Int.not_lt.2 hres)]
  by_cases hpos : 0 < call.chunkised.res
  · simp only [if_pos hpos, if_pos (hframe _), hdelta]
    rfl
  · simp only [if_neg hpos, if_pos (hframe _), hdelta]
    rfl

/-- `generated_chunk` gives up if the returned value is negative. -/
theorem generatedChunk_exit_iff (verify : List UInt8 → Option Int)
    (h : inputGet call s = .ok (delay, c, s')) :
    generatedChunk verify call s = .error (.exit (-1)) ↔ delay < 0 := by
  have hfill : chunkAttributesFill verify c ≠ .error (.exit (-1)) := by
    intro hfill
    unfold chunkAttributesFill at hfill
    split_ifs at hfill
    · cases hfill
    · rcases bind_eq_error.1 hfill with hint | ⟨increment, -, hret⟩
      · unfold int at hint
        split_ifs at hint
        cases hint
      · cases hret
  unfold generatedChunk
  rw [h]
  simp only [bind, Except.bind]
  by_cases hneg : delay < 0
  · exact iff_of_true (if_pos hneg) hneg
  · refine iff_of_false ?_ hneg
    rw [if_neg hneg]
    split_ifs with hdata
    · exact nofun
    · intro hbind
      rcases bind_eq_error.1 hbind with hfail | ⟨c', -, hret⟩
      · exact hfill hfail
      · cases hret

/-! ## The law of the delay -/

/-- The wait `w`, counted by the code as `d`, survives the conversions.  A wait that is an `int` does
if it is counted from the first timestamp, or if there is nothing to wait for; one that is too long
for an `int` is not taken for an error if its low half is a non-negative `int`.  The remainders by
`2 ^ 64` are for sums that leave the range of `int64_t`. -/
def Survives (w d : Int) : Prop :=
  if w ≤ INT_MAX then
    if -2 ^ 63 ≤ d then d = w ∨ w ≤ 0
    else if d % 2 ^ 64 < 2 ^ 63 then d % 2 ^ 32 = max 0 w
    else w ≤ 0
  else d % 2 ^ 64 < 2 ^ 63 → d % 2 ^ 32 < 2 ^ 31

instance (w d : Int) : Decidable (Survives w d) :=
  inferInstanceAs (Decidable (if w ≤ INT_MAX then if -2 ^ 63 ≤ d then _ else if _ < 2 ^ 63 then _ = _
    else _ else _ → _))

/-- The counter of the chunks can be stepped and the wait survives. -/
def Fits (ts₀ : UInt64) (s : InputDesc) (call : Call) : Prop :=
  (0 < call.chunkised.res → INT_MIN ≤ s.id + 1 ∧ s.id + 1 ≤ INT_MAX) ∧
    Survives (wait ts₀ s call) (wait ts₀ s call - late ts₀ s call)

instance (ts₀ : UInt64) (s : InputDesc) (call : Call) : Decidable (Fits ts₀ s call) :=
  inferInstanceAs (Decidable ((0 < call.chunkised.res → _ ∧ _) ∧ Survives _ _))

/-- The input returns the wait, or any `int` that is not negative if the wait is not an `int`, and
the source goes on. -/
def Paced (ts₀ : UInt64) (s : InputDesc) (call : Call) : Prop :=
  ∃ delay c s', inputGet call s = .ok (delay, c, s') ∧ 0 ≤ delay ∧
    (max 0 (wait ts₀ s call) ≤ INT_MAX → delay = max 0 (wait ts₀ s call)) ∧
    ∀ verify, generatedChunk verify call s ≠ .error (.exit (-1))

theorem toInt64_emod (x : Int) : toInt64 x % 2 ^ 32 = x % 2 ^ 32 := by
  unfold toInt64
  rw [Int.bmod_def]
  split
  · omega
  · omega

theorem toInt64_nonneg_iff (x : Int) : 0 ≤ toInt64 x ↔ x % 2 ^ 64 < 2 ^ 63 := by
  unfold toInt64
  rw [Int.bmod_def]
  split
  · omega
  · omega

theorem survives_iff {w d : Int} (hd : d ≤ w) :
    Survives w d ↔ 0 ≤ toInt (max (toInt64 d) 0) ∧
      (max 0 w ≤ INT_MAX → toInt (max (toInt64 d) 0) = max 0 w) := by
  -- the low half of what is narrowed
  have hlow : max (toInt64 d) 0 % 2 ^ 32 = if d % 2 ^ 64 < 2 ^ 63 then d % 2 ^ 32 else 0 := by
    have hmod := toInt64_emod d
    have hsign := toInt64_nonneg_iff d
    split_ifs with hd0
    · rw [Int.max_eq_left (hsign.2 hd0), hmod]
    · have hneg : toInt64 d ≤ 0 := by omega
      rw [Int.max_eq_right hneg]
      rfl
  rw [toInt_nonneg_iff, hlow]
  unfold Survives
  by_cases hw : w ≤ INT_MAX
  · have hle : max 0 w ≤ INT_MAX := Int.max_le.2 ⟨by decide, hw⟩
    rw [if_pos hw, toInt_eq_iff (Int.le_max_left ..) hle, hlow, forall_prop_of_true hle]
    unfold INT_MAX at hw hle
    split_ifs with hrange hsign
    · omega
    · omega
    · omega
    · omega
  · have hlt : ¬ max 0 w ≤ INT_MAX := by omega
    rw [if_neg hw]
    simp only [hlt, false_imp_iff, and_true]
    split_ifs with hsign
    · exact forall_prop_of_true hsign
    · exact iff_of_true (fun h => absurd h hsign) (by decide)

/-- A state of a timed input: no stored timestamp is before the first one. -/
def Timed (ts₀ : UInt64) (s : InputDesc) : Prop :=
  s.interframe ≠ 0 ∧ (s.firstTs = 0 ∨ ts₀ ≤ s.firstTs)

theorem Timed.le_firstTs (h : Timed ts₀ s) {ts : UInt64} (hts : ts₀ ≤ ts) :
    ts₀ ≤ (latch ts s).firstTs := by
  rw [latch_eq]
  dsimp only
  split_ifs with hfirst
  · exact hts
  · exact h.2.resolve_left hfirst

theorem Timed.latch (h : Timed ts₀ s) {ts : UInt64} (hts : ts₀ ≤ ts) (id : Int) :
    Timed ts₀ (latch ts { s with id := id }) := by
  have h' : Timed ts₀ { s with id := id } := h
  refine ⟨?_, .inr (h'.le_firstTs hts)⟩
  rw [latch_eq]
  exact h.1

theorem late_nonneg (h : Timed ts₀ s) (hts : ts₀ ≤ call.chunkised.timestamp) :
    0 ≤ late ts₀ s call := by
  have hnat := UInt64.le_iff_toNat_le.1 (h.le_firstTs hts)
  unfold late
  omega

/-- One call: the law of the delay holds if and only if the wait survives. -/
theorem paced_iff_fits (h : Timed ts₀ s) (hres : 0 ≤ call.chunkised.res)
    (hts : ts₀ ≤ call.chunkised.timestamp) : Paced ts₀ s call ↔ Fits ts₀ s call := by
  have hd : wait ts₀ s call - late ts₀ s call ≤ wait ts₀ s call := by
    have hlate := late_nonneg h hts
    omega
  have hcall := inputGet_eq ts₀ hres h.1
  unfold Fits
  rw [survives_iff hd]
  constructor
  · rintro ⟨delay, c, s', hget, hnonneg, hlaw, -⟩
    obtain ⟨id, hid, hret⟩ := bind_eq_ok.1 (hcall.symm.trans hget)
    obtain rfl := congrArg Prod.fst (Except.ok.inj hret)
    refine ⟨fun hpos => ?_, hnonneg, hlaw⟩
    rw [if_pos hpos] at hid
    unfold int at hid
    split_ifs at hid with hrange
    exact hrange
  · intro ⟨hcount, hnonneg, hlaw⟩
    have hid : ∃ id, (if 0 < call.chunkised.res then int (s.id + 1) else .ok s.id) = .ok id := by
      split_ifs with hpos
      · exact ⟨_, int_ok (hcount hpos).1 (hcount hpos).2⟩
      · exact ⟨_, rfl⟩
    obtain ⟨id, hid⟩ := hid
    have hget := hcall.trans (bind_eq_ok.2 ⟨id, hid, rfl⟩)
    refine ⟨_, _, _, hget, hnonneg, hlaw, fun verify hexit => ?_⟩
    exact absurd ((generatedChunk_exit_iff verify hget).1 hexit) (Int.not_lt.2 hnonneg)

theorem step_timed (h : Timed ts₀ s) (hres : 0 ≤ call.chunkised.res)
    (hts : ts₀ ≤ call.chunkised.timestamp) {out : List Int} (hstep : step call s = .ok (s', out)) :
    Timed ts₀ s' := by
  obtain ⟨⟨delay, c, t⟩, hget, hret⟩ := bind_eq_ok.1 hstep
  obtain rfl := congrArg Prod.fst (Except.ok.inj hret)
  obtain ⟨id, -, hout⟩ := bind_eq_ok.1 ((inputGet_eq ts₀ hres h.1).symm.trans hget)
  obtain rfl := congrArg (fun r => r.2.2) (Except.ok.inj hout)
  exact h.latch hts id

theorem run_timed (h : Timed ts₀ s) (hres : ∀ call ∈ calls, 0 ≤ call.chunkised.res)
    (hts : ∀ call ∈ calls, ts₀ ≤ call.chunkised.timestamp) {out : List Int}
    (hrun : Run.run step calls s = .ok (s', out)) : Timed ts₀ s' := by
  induction calls generalizing s out with
  | nil =>
    obtain ⟨rfl, -⟩ : s = s' ∧ [] = out := by simpa using hrun
    exact h
  | cons call calls ih =>
    obtain ⟨s₁, out₁, more, hstep, hmore, -⟩ := Run.run_cons_ok hrun
    have hmem := List.mem_cons_self (a := call) (l := calls)
    exact ih (step_timed h (hres call hmem) (hts call hmem) hstep)
      (fun call' h => hres call' (List.mem_cons_of_mem _ h))
      (fun call' h => hts call' (List.mem_cons_of_mem _ h)) hmore

/-- A timed input, run over chunks whose timestamps do not decrease: every call returns what is left
to wait if and only if every wait survives, in the state the call finds. -/
theorem along_paced_iff (res : InputDesc) {interframe : Int} (initialId : Int) (tv : Timeval)
    (first : Call) (calls : List Call) (hi : 0 < interframe)
    (hres : ∀ call ∈ first :: calls, 0 ≤ call.chunkised.res)
    (hts : (first :: calls).Pairwise fun a b => a.chunkised.timestamp ≤ b.chunkised.timestamp) :
    Run.Along step (Paced first.chunkised.timestamp) (first :: calls)
        (inputOpen res interframe initialId tv) ↔
      Run.Along step (Fits first.chunkised.timestamp) (first :: calls)
        (inputOpen res interframe initialId tv) := by
  have hfirst : ∀ call ∈ first :: calls,
      first.chunkised.timestamp ≤ call.chunkised.timestamp := by
    intro call hcall
    rcases List.mem_cons.1 hcall with rfl | hcall
    · exact UInt64.le_refl _
    · exact List.rel_of_pairwise_cons hts hcall
  have hopen : Timed first.chunkised.timestamp (inputOpen res interframe initialId tv) := by
    unfold inputOpen
    rw [if_neg (Int.ne_of_gt hi)]
    exact ⟨Int.ne_of_gt hi, .inl rfl⟩
  refine Run.along_congr_of_reached fun pre call hpre s out hrun => ?_
  have hmem : ∀ call' ∈ pre ++ [call], call' ∈ first :: calls := fun _ h => hpre.subset h
  have hlast := hmem call (List.mem_append_right _ (List.mem_singleton_self _))
  have htimed : Timed first.chunkised.timestamp s :=
    run_timed hopen (fun call' h => hres call' (hmem call' (List.mem_append_left _ h)))
      (fun call' h => hfirst call' (hmem call' (List.mem_append_left _ h))) hrun
  exact paced_iff_fits htimed (hres call hlast) (hfirst call hlast)

/-! ## Examples -/

/-- A chunk with this timestamp, and the clock at `usec`. -/
def callAt (timestamp : UInt64) (usec : Int) : Call :=
  ⟨⟨1, timestamp, some [0], []⟩, .ofUsec usec⟩

/-- The record before it is filled. -/
def blank : InputDesc := ⟨0, 0, 0, 0⟩

/-- Two chunks at 25 frames a second, the second 10 ms late. -/
theorem along_paced_iff_two :
    Run.Along step (Paced (callAt 1 0).chunkised.timestamp) [callAt 1 0, callAt 40001 50000]
      (inputOpen blank 40000 0 (.ofUsec 0)) := by
  have hfits : Run.Along step (Fits (callAt 1 0).chunkised.timestamp)
      [callAt 1 0, callAt 40001 50000] (inputOpen blank 40000 0 (.ofUsec 0)) := by
    refine Run.along_cons.2 ⟨by decide +kernel, fun s out hstep => ?_⟩
    refine Run.along_cons.2 ⟨?_, fun _ _ _ => Run.along_nil⟩
    have hnext : (step (callAt 1 0) (inputOpen blank 40000 0 (.ofUsec 0))).toOption.any
        (fun r => Fits (callAt 1 0).chunkised.timestamp r.1 (callAt 40001 50000)) = true := by
      decide +kernel
    obtain ⟨r, hr, hr'⟩ := eq_ok_of_any hnext
    obtain rfl : r = (s, out) := Except.ok.inj (hr.symm.trans hstep)
    exact of_decide_eq_true hr'
  exact (along_paced_iff blank 0 (.ofUsec 0) (callAt 1 0) [callAt 40001 50000] (by decide)
    (by decide) (by decide)).2 hfits

/-- A timestamp far ahead: the wait does not fit in an `int`, and the input returns `INT_MIN`. -/
theorem not_along_paced_jump :
    ¬ Run.Along step (Paced 1) [callAt 1 0, callAt 2147443649 0]
      (inputOpen blank 40000 0 (.ofUsec 0)) := by
  intro hpaced
  have hrun : (Run.run step [callAt 1 0] (inputOpen blank 40000 0 (.ofUsec 0))).toOption.any
      (fun r => (inputGet (callAt 2147443649 0) r.1).toOption.any (fun q => q.1 < 0)) = true := by
    decide +kernel
  obtain ⟨⟨s, out⟩, hr, hneg⟩ := eq_ok_of_any hrun
  obtain ⟨q, hq, hneg⟩ := eq_ok_of_any hneg
  obtain ⟨delay, c, s', hget, hnonneg, -, -⟩ := hpaced [callAt 1 0] _ (List.prefix_refl _) s out hr
  obtain rfl : q = (delay, c, s') := Except.ok.inj (hq.symm.trans hget)
  exact absurd (of_decide_eq_true hneg) (Int.not_lt.2 hnonneg)

end PeerStreamer.InputGrapes
