import PeerStreamer.OutputGrapes

/-!
# The invariant of the reorder buffer

`Stage` describes the state between the steps of `outputDeliver`: the stored chunks are the
accepted ones from `nextChunk` on, they lie in a window below `hi`, and what was written are the
accepted chunks before `nextChunk`.  The eviction loop, the flush loop and the direct play keep it
and only move `nextChunk` forward; after each call the slot of `nextChunk` is empty as well.
-/

namespace PeerStreamer

open OutputState

/-! ## What the trace says -/

/-- The chunks passed to `chunk_write`, in order. -/
def written (t : List OutputEvent) : List Chunk :=
  t.filterMap fun
    | .chunkWrite c => some c
    | _ => none

@[simp] theorem written_append (t u : List OutputEvent) :
    written (t ++ u) = written t ++ written u :=
  List.filterMap_append

/-- A call of `bufferFree` finds the chunk whose id its caller expects. -/
def OutputEvent.InTurn : OutputEvent → Prop
  | .bufferFree (.evict i) c => c.id = i
  | .bufferFree (.flush next) c => c.id = next
  | _ => True

/-- Every call of `bufferFree` so far freed the expected chunk. -/
def FreesInTurn (t : List OutputEvent) : Prop := ∀ e ∈ t, e.InTurn

theorem FreesInTurn.append {t u : List OutputEvent} (ht : FreesInTurn t) (hu : FreesInTurn u) :
    FreesInTurn (t ++ u) := by
  intro e he
  rcases List.mem_append.1 he with he | he
  · exact ht e he
  · exact hu e he

theorem FreesInTurn.cons {e : OutputEvent} {t : List OutputEvent} (h : e.InTurn)
    (ht : FreesInTurn t) : FreesInTurn (e :: t) :=
  List.forall_mem_cons.2 ⟨h, ht⟩

theorem FreesInTurn.single {e : OutputEvent} (h : e.InTurn) : FreesInTurn [e] :=
  .cons h fun _ he => absurd he List.not_mem_nil

/-! ## The steps that touch the output -/

variable {cfg : OutputConfig}

@[simp] theorem playOut_nextChunk (c : Chunk) (s : OutputState) :
    (playOut cfg c s).nextChunk = s.nextChunk := by
  unfold playOut
  split_ifs <;> rfl

@[simp] theorem playOut_buff (c : Chunk) (s : OutputState) :
    (playOut cfg c s).buff = s.buff := by
  unfold playOut
  split_ifs <;> rfl

/-- `playOut` writes the chunk when its id is in range, and otherwise only adds messages. -/
theorem playOut_trace (cfg : OutputConfig) (c : Chunk) (s : OutputState) :
    ∃ es, (playOut cfg c s).trace = s.trace ++ es ∧
      (∀ e ∈ es, e = .firstPlayedOut c.id ∨ e = .lastPlayedOut s.lastChunk ∨ e = .chunkWrite c) ∧
      (cfg.reorder = true → written es = [c].filter fun c => cfg.InRange c.id) := by
  by_cases h1 : cfg.startId = -1 ∨ cfg.startId ≤ c.id
  · by_cases h2 : cfg.endId = -1 ∨ c.id ≤ cfg.endId
    · have hin : cfg.InRange c.id := ⟨h1, h2⟩
      simp only [playOut, if_pos h1, if_pos h2]
      refine ⟨(if s.sflag then [] else [.firstPlayedOut c.id]) ++
        if cfg.reorder then [.chunkWrite c] else [], ?_, ?_, ?_⟩
      · cases s.sflag <;> cases cfg.reorder <;> simp [log]
      · cases s.sflag <;> cases cfg.reorder <;> simp
      · intro hr
        cases s.sflag <;> simp [hr, written, hin]
    · have hout : ¬ cfg.InRange c.id := fun h => h2 h.2
      simp only [playOut, if_pos h1, if_neg h2]
      by_cases h3 : s.eflag = false ∧ s.lastChunk ≠ -1
      · rw [if_pos h3]
        exact ⟨[.lastPlayedOut s.lastChunk], rfl, by simp, fun _ => by simp [written, hout]⟩
      · rw [if_neg h3]
        exact ⟨[], by simp, by simp, fun _ => by simp [written, hout]⟩
  · have hout : ¬ cfg.InRange c.id := fun h => h1 h.1
    simp only [playOut, if_neg h1]
    exact ⟨[], by simp, by simp, fun _ => by simp [written, hout]⟩

/-- The events of `playOut` free nothing. -/
theorem playOut_inTurn {c : Chunk} {last : Int} {es : List OutputEvent}
    (h : ∀ e ∈ es, e = .firstPlayedOut c.id ∨ e = .lastPlayedOut last ∨ e = .chunkWrite c) :
    FreesInTurn es := by
  intro e he
  rcases h e he with rfl | rfl | rfl <;> trivial

/-! ## The state between two steps -/

/-- The stored chunks are the accepted ones from `nextChunk` on, in a window below `hi`; the
written ones are those before `nextChunk` that are in range. -/
structure Stage (cfg : OutputConfig) (accepted : List Chunk) (hi : Int) (s : OutputState) :
    Prop where
  nonneg : 0 ≤ s.nextChunk
  window : Ring.Window cfg.buffSize s.nextChunk hi Chunk.id s.buff
  stored : ∀ c, Ring.Stored s.buff c ↔ c ∈ accepted ∧ s.nextChunk ≤ c.id
  written : cfg.reorder = true → ∀ c,
    c ∈ written s.trace ↔ c ∈ accepted ∧ c.id < s.nextChunk ∧ cfg.InRange c.id
  sorted : cfg.reorder = true → (PeerStreamer.written s.trace).Pairwise fun a b => a.id < b.id
  inTurn : FreesInTurn s.trace

/-- No two chunks of the list share an id. -/
def DistinctIds (cs : List Chunk) : Prop := ∀ a ∈ cs, ∀ b ∈ cs, a.id = b.id → a = b

/-- Every id from `lo` up to `hi` was accepted. -/
def Filled (cs : List Chunk) (lo hi : Int) : Prop := ∀ x, lo ≤ x → x < hi → ∃ a ∈ cs, a.id = x

theorem Filled.trans {cs : List Chunk} {lo mid hi : Int} (h₁ : Filled cs lo mid)
    (h₂ : Filled cs mid hi) : Filled cs lo hi := fun x hl hu =>
  if h : x < mid then h₁ x hl h else h₂ x (not_lt.1 h) hu

theorem Filled.of_le (cs : List Chunk) {lo hi : Int} (h : hi ≤ lo) : Filled cs lo hi :=
  fun x hl hu => by omega

theorem Filled.mono {cs cs' : List Chunk} (hsub : cs ⊆ cs') {lo lo' hi : Int}
    (h : Filled cs lo hi) (hlo : lo ≤ lo') : Filled cs' lo' hi := by
  intro x hl hu
  obtain ⟨a, ha, he⟩ := h x (hlo.trans hl) hu
  exact ⟨a, hsub ha, he⟩

variable {accepted accepted' : List Chunk} {hi hi' : Int} {s s' : OutputState}

/-- `nextChunk` advances by one: `p` is the chunk with that id, if one was accepted. -/
theorem Stage.advance (st : Stage cfg accepted hi s) (p : Option Chunk) (es : List OutputEvent)
    (hp : ∀ c ∈ p, c.id = s.nextChunk)
    (hacc : ∀ c, c ∈ accepted' ∧ c.id < s.nextChunk + 1 ↔
      c ∈ accepted ∧ c.id < s.nextChunk ∨ c ∈ p)
    (hn : s'.nextChunk = s.nextChunk + 1)
    (hwin : Ring.Window cfg.buffSize (s.nextChunk + 1) hi' Chunk.id s'.buff)
    (hst : ∀ c, Ring.Stored s'.buff c ↔ c ∈ accepted' ∧ s.nextChunk + 1 ≤ c.id)
    (ht : s'.trace = s.trace ++ es) (hturn : FreesInTurn es)
    (hw : cfg.reorder = true →
      PeerStreamer.written es = p.toList.filter fun c => cfg.InRange c.id) :
    Stage cfg accepted' hi' s' := by
  have hwr : cfg.reorder = true → PeerStreamer.written s'.trace =
      PeerStreamer.written s.trace ++ p.toList.filter fun c => cfg.InRange c.id := by
    intro hr
    rw [ht, written_append, hw hr]
  have hnn := st.nonneg
  refine ⟨by omega, hn ▸ hwin, hn ▸ hst, ?_, ?_, ht ▸ st.inTurn.append hturn⟩
  · intro hr c
    have h := hacc c
    have h0 := st.written hr c
    rw [hwr hr, List.mem_append, h0, List.mem_filter, Option.mem_toList, hn]
    simp only [decide_eq_true_eq]
    rw [← and_assoc, ← and_assoc, h, or_and_right, Option.mem_def]
  · intro hr
    rw [hwr hr, List.pairwise_append]
    refine ⟨st.sorted hr, ?_, ?_⟩
    · cases p with
      | none => exact List.Pairwise.nil
      | some c => exact (List.pairwise_singleton _ c).filter _
    · intro a ha c hc
      have h1 := ((st.written hr a).1 ha).2.1
      have h2 := hp c (Option.mem_toList.1 (List.mem_of_mem_filter hc))
      omega

/-- The slot of `nextChunk` holds the accepted chunk with that id. -/
theorem Stage.next_slot (st : Stage cfg accepted hi s) (hB : 0 < cfg.buffSize)
    (hw : hi ≤ s.nextChunk + cfg.buffSize) {c : Chunk}
    (h : s.buff (s.nextChunk % cfg.buffSize) = some c) : c.id = s.nextChunk ∧ c ∈ accepted :=
  ⟨st.window.key_eq hw (by omega) h, ((st.stored c).1 ⟨_, h⟩).1⟩

/-- If the slot of `nextChunk` is empty, no accepted chunk has that id. -/
theorem Stage.next_absent (st : Stage cfg accepted hi s)
    (h : s.buff (s.nextChunk % cfg.buffSize) = none) {c : Chunk} (hc : c ∈ accepted) :
    c.id ≠ s.nextChunk := by
  intro he
  have hs := (st.window.stored_iff c).1 ((st.stored c).2 ⟨hc, he.ge⟩)
  rw [he, h] at hs
  cases hs

/-- Freeing the slot of `nextChunk` plays its chunk and advances by one. -/
theorem Stage.bufferFree (st : Stage cfg accepted hi s) (hB : 0 < cfg.buffSize)
    (hw : hi ≤ s.nextChunk + cfg.buffSize) (hmax : hi ≤ INT_MAX) (hd : DistinctIds accepted)
    (site : FreeSite) {c : Chunk}
    (hsite : c.id = s.nextChunk → (OutputEvent.bufferFree site c).InTurn)
    (h : s.buff (s.nextChunk % cfg.buffSize) = some c) :
    ∃ s', bufferFree cfg site (s.nextChunk % cfg.buffSize) c s = .ok s' ∧
      Stage cfg accepted hi s' ∧ s'.nextChunk = s.nextChunk + 1 := by
  obtain ⟨hid, hc⟩ := st.next_slot hB hw h
  have hnn := st.nonneg
  have hlt := st.window.upper _ _ h
  obtain ⟨es, hes, hcases, hwr⟩ := playOut_trace cfg c (s.log (.bufferFree site c))
  have hnext : int (c.id + 1) = .ok (c.id + 1) := int_nonneg (by omega) (by omega)
  refine ⟨_, by simp only [PeerStreamer.bufferFree, hnext]; rfl, ?_, by simp [hid]⟩
  have hwin := (st.window.erase (s.nextChunk % cfg.buffSize)).skip (Function.update_self ..)
  have hst : ∀ a, Ring.Stored (Function.update s.buff (s.nextChunk % cfg.buffSize) none) a ↔
      a ∈ accepted ∧ s.nextChunk + 1 ≤ a.id := by
    intro a
    rw [st.window.stored_erase hw (by omega), st.stored, and_assoc]
    exact and_congr_right fun _ => by omega
  refine st.advance (some c) (.bufferFree site c :: es ++ [.regChunkPlayout c.id true c.timestamp])
    (by simpa using hid) ?_ (by simp [hid]) (by simpa using hwin) (by simpa using hst)
    (by simp [hes]) ?_ ?_
  · intro a
    simp only [Option.mem_some_iff]
    constructor
    · rintro ⟨ha, hlt'⟩
      by_cases hae : a.id = c.id
      · exact Or.inr (hd a ha c hc hae).symm
      · exact Or.inl ⟨ha, by omega⟩
    · rintro (⟨ha, hlt'⟩ | rfl)
      · exact ⟨ha, by omega⟩
      · exact ⟨hc, by omega⟩
  · refine FreesInTurn.append (FreesInTurn.cons (hsite hid) ?_) (.single trivial)
    exact playOut_inTurn hcases
  · intro hr
    simp only [PeerStreamer.written, List.cons_append, List.filterMap_cons, List.filterMap_append]
    simpa [PeerStreamer.written] using hwr hr

/-- Giving up a missing chunk advances by one as well. -/
theorem Stage.skip (st : Stage cfg accepted hi s) (c : Chunk)
    (h : s.buff (s.nextChunk % cfg.buffSize) = none) :
    Stage cfg accepted hi
      { s.log (.regChunkPlayout c.id false c.timestamp) with nextChunk := s.nextChunk + 1 } := by
  refine st.advance none [.regChunkPlayout c.id false c.timestamp] (by simp) ?_ rfl
    (st.window.skip h) ?_ rfl (.single trivial) fun _ => rfl
  · intro a
    have := fun ha => st.next_absent h (c := a) ha
    simp only [Option.mem_def, reduceCtorEq, or_false]
    exact and_congr_right fun ha => by have := this ha; omega
  · intro a
    have := fun ha => st.next_absent h (c := a) ha
    rw [log_buff, st.stored]
    exact and_congr_right fun ha => by have := this ha; omega

/-! ## The loops -/

/-- One iteration of the eviction loop, run with its counter equal to `nextChunk`. -/
theorem evictStep_stage (hB : 0 < cfg.buffSize) (hmax : hi ≤ INT_MAX) (hd : DistinctIds accepted)
    (c : Chunk) (st : Stage cfg accepted hi s) (hw : hi ≤ s.nextChunk + cfg.buffSize)
    (hn : s.nextChunk < INT_MAX) :
    ∃ s', evictStep cfg c s.nextChunk s = .ok s' ∧ Stage cfg accepted hi s' ∧
      s'.nextChunk = s.nextChunk + 1 := by
  have hnn := st.nonneg
  have hint : int (s.nextChunk + 1) = .ok (s.nextChunk + 1) := int_nonneg (by omega) (by omega)
  rw [evictStep, Int.tmod_eq_emod_of_nonneg hnn]
  cases hs : s.buff (s.nextChunk % cfg.buffSize) with
  | none =>
    exact ⟨_, by simp only [log_nextChunk, hint]; rfl, st.skip c hs, rfl⟩
  | some d =>
    exact st.bufferFree hB hw hmax hd (.evict s.nextChunk) (fun h => h) hs

theorem evictLoop_stage (hB : 0 < cfg.buffSize) (hmax : hi ≤ INT_MAX) (hd : DistinctIds accepted)
    (c : Chunk) (n : ℕ) (s : OutputState) (st : Stage cfg accepted hi s)
    (hw : hi ≤ s.nextChunk + cfg.buffSize) (hn : s.nextChunk + n ≤ INT_MAX) :
    ∃ s', evictLoop cfg c n s.nextChunk s = .ok s' ∧ Stage cfg accepted hi s' ∧
      s'.nextChunk = s.nextChunk + n := by
  induction n generalizing s with
  | zero => exact ⟨s, rfl, st, by simp⟩
  | succ n ih =>
    have hnn := st.nonneg
    have hint : int (s.nextChunk + 1) = .ok (s.nextChunk + 1) := int_nonneg (by omega) (by omega)
    obtain ⟨s₁, hs₁, st₁, hn₁⟩ := evictStep_stage hB hmax hd c st hw (by omega)
    obtain ⟨s', hs', st', hn'⟩ := ih s₁ st₁ (by omega) (by omega)
    refine ⟨s', ?_, st', by omega⟩
    rw [hn₁] at hs'
    rw [evictLoop, hs₁, hint]
    exact hs'

/-- `flushLoop` plays the run of stored chunks that starts at `nextChunk` and leaves its slot
empty; `fuel` slots are left before it is back at `start`. -/
theorem flushLoop_stage (hB : 0 < cfg.buffSize) (hBmax : cfg.buffSize ≤ INT_MAX)
    (hmax : hi ≤ INT_MAX) (hd : DistinctIds accepted) (fuel : ℕ) (s : OutputState)
    (st : Stage cfg accepted hi s) (hf : 0 < fuel) (hfB : fuel ≤ cfg.buffSize)
    (hw : hi ≤ s.nextChunk + fuel) {start : Int}
    (hstart : start = (s.nextChunk + fuel) % cfg.buffSize) :
    ∃ s', flushLoop cfg start fuel (s.nextChunk % cfg.buffSize) s = .ok s' ∧
      Stage cfg accepted hi s' ∧ s'.buff (s'.nextChunk % cfg.buffSize) = none ∧
      s.nextChunk ≤ s'.nextChunk ∧ s'.nextChunk ≤ max s.nextChunk hi ∧
      Filled accepted s.nextChunk s'.nextChunk := by
  induction fuel generalizing s with
  | zero => omega
  | succ fuel ih =>
    rw [flushLoop]
    rcases hs : s.buff (s.nextChunk % cfg.buffSize) with _ | c
    · exact ⟨s, rfl, st, hs, le_rfl, le_max_left .., .of_le _ le_rfl⟩
    have hlt := st.window.upper _ _ hs
    obtain ⟨hid, hc⟩ := st.next_slot hB (by omega) hs
    obtain ⟨s₁, hs₁, st₁, hn₁⟩ :=
      st.bufferFree hB (by omega) hmax hd (.flush s.nextChunk) (fun h => h) hs
    have hfirst : Filled accepted s.nextChunk s₁.nextChunk :=
      fun x hl hu => ⟨c, hc, by omega⟩
    have h0 := Int.emod_nonneg s.nextChunk hB.ne'
    have h1 := Int.emod_lt_of_pos s.nextChunk hB
    have hint : int (s.nextChunk % cfg.buffSize + 1) = .ok (s.nextChunk % cfg.buffSize + 1) :=
      int_nonneg (by omega) (by omega)
    have hslot : (s.nextChunk % cfg.buffSize + 1).tmod cfg.buffSize =
        s₁.nextChunk % cfg.buffSize := by
      rw [Int.tmod_eq_emod_of_nonneg (by omega), Int.emod_add_emod, hn₁]
    have hwrap : s₁.nextChunk % cfg.buffSize = start ↔ fuel = 0 := by
      rw [hstart]
      constructor
      · intro h
        have := Ring.eq_of_emod_eq s₁.nextChunk (by omega) (by omega) h
        omega
      · rintro rfl
        rw [hn₁]
        rfl
    by_cases hf0 : fuel = 0
    · -- the loop went all the way round, so the window is empty
      have hempty : s₁.buff (s₁.nextChunk % cfg.buffSize) = none := by
        cases he : s₁.buff (s₁.nextChunk % cfg.buffSize) with
        | none =>
          rfl
        | some d =>
          have := st₁.window.upper _ _ he
          have := st₁.window.lower _ _ he
          omega
      refine ⟨s₁, ?_, st₁, hempty, by omega, by omega, hfirst⟩
      simp only [hs₁, hint, bind, Except.bind, hslot, if_pos (hwrap.2 hf0)]
      rfl
    · obtain ⟨s', hs', st', hempty, hle, hle', hfill⟩ :=
        ih s₁ st₁ (by omega) (by omega) (by omega) (by rw [hstart, hn₁]; congr 1; push_cast; ring)
      refine ⟨s', ?_, st', hempty, by omega, by omega, hfirst.trans hfill⟩
      simp only [hs₁, hint, bind, Except.bind, hslot, if_neg (mt hwrap.1 hf0)]
      exact hs'

theorem bufferFlush_stage (hB : 0 < cfg.buffSize) (hBmax : cfg.buffSize ≤ INT_MAX)
    (hmax : hi ≤ INT_MAX) (hd : DistinctIds accepted) (st : Stage cfg accepted hi s)
    (hw : hi ≤ s.nextChunk + cfg.buffSize) :
    ∃ s', bufferFlush cfg s.nextChunk s = .ok s' ∧ Stage cfg accepted hi s' ∧
      s'.buff (s'.nextChunk % cfg.buffSize) = none ∧
      s.nextChunk ≤ s'.nextChunk ∧ s'.nextChunk ≤ max s.nextChunk hi ∧
      Filled accepted s.nextChunk s'.nextChunk := by
  unfold bufferFlush
  rw [Int.tmod_eq_emod_of_nonneg st.nonneg]
  refine flushLoop_stage hB hBmax hmax hd _ s st (by omega) (by omega) (by omega) ?_
  rw [Int.toNat_of_nonneg hB.le, Int.add_emod_right]

/-! ## One delivery -/

/-- Events that write nothing leave the stage as it is. -/
theorem Stage.log (st : Stage cfg accepted hi s) {e : OutputEvent} (he : e.InTurn)
    (hw : cfg.reorder = true → PeerStreamer.written [e] = []) :
    Stage cfg accepted hi (s.log e) := by
  have hwr : cfg.reorder = true → PeerStreamer.written (s.log e).trace =
      PeerStreamer.written s.trace := by
    intro hr
    rw [log_trace, written_append, hw hr, List.append_nil]
  exact ⟨st.nonneg, st.window, st.stored, fun hr => hwr hr ▸ st.written hr,
    fun hr => hwr hr ▸ st.sorted hr, st.inTurn.append (.single he)⟩

theorem Stage.mono (st : Stage cfg accepted hi s) (h : hi ≤ hi') : Stage cfg accepted hi' s :=
  ⟨st.nonneg, st.window.mono h, st.stored, st.written, st.sorted, st.inTurn⟩

/-- The state after a call: all stored chunks wait for the missing `nextChunk`. -/
structure Settled (cfg : OutputConfig) (accepted : List Chunk) (s : OutputState) : Prop where
  stage : Stage cfg accepted (s.nextChunk + cfg.buffSize) s
  empty : s.buff (s.nextChunk % cfg.buffSize) = none

/-- Room is made without giving up a chunk that fits; the stored chunks are still those of the old
window. -/
theorem makeRoom_stage (hB : 0 < cfg.buffSize) (hd : DistinctIds accepted)
    (st : Settled cfg accepted s) {c : Chunk} (hc : s.nextChunk ≤ c.id)
    (hahead : s.nextChunk + cfg.buffSize ≤ INT_MAX) (hmax : c.id ≤ INT_MAX) :
    ∃ s', makeRoom cfg c s = .ok s' ∧ Stage cfg accepted (s.nextChunk + cfg.buffSize) s' ∧
      s'.buff (s'.nextChunk % cfg.buffSize) = none ∧ s'.nextChunk ≤ c.id ∧
      max s.nextChunk (c.id - cfg.buffSize + 1) ≤ s'.nextChunk ∧
      Filled accepted (max s.nextChunk (c.id - cfg.buffSize + 1)) s'.nextChunk := by
  have hnn := st.stage.nonneg
  have hahead' : int (s.nextChunk + cfg.buffSize) = .ok (s.nextChunk + cfg.buffSize) :=
    int_nonneg (by omega) hahead
  by_cases hroom : s.nextChunk + cfg.buffSize ≤ c.id
  · have hlast : int (c.id - cfg.buffSize) = .ok (c.id - cfg.buffSize) :=
      int_nonneg (by omega) (by omega)
    obtain ⟨s₁, hs₁, st₁, hn₁⟩ := evictLoop_stage hB hahead hd c
      (c.id - cfg.buffSize + 1 - s.nextChunk).toNat s st.stage le_rfl (by omega)
    obtain ⟨s', hs', st', hempty, hle, hle', hfill⟩ :=
      bufferFlush_stage hB (by omega) hahead hd st₁ (by omega)
    refine ⟨s', ?_, st', hempty, by omega, by omega,
      hfill.mono (List.Subset.refl _) (by omega)⟩
    simp only [makeRoom, hahead', hlast, bind, Except.bind, if_pos hroom, hs₁]
    exact hs'
  · refine ⟨s, ?_, st.stage, st.empty, hc, by omega, .of_le _ (by omega)⟩
    simp only [makeRoom, hahead', bind, Except.bind, if_neg hroom]
    rfl

/-- The accepted chunks after `c`, when `c` is in the window. -/
def acceptNew (accepted : List Chunk) (c : Chunk) : List Chunk :=
  if ∀ a ∈ accepted, a.id ≠ c.id then accepted ++ [c] else accepted

theorem DistinctIds.acceptNew (hd : DistinctIds accepted) (c : Chunk) :
    DistinctIds (acceptNew accepted c) := by
  unfold PeerStreamer.acceptNew
  split_ifs with h
  · intro a ha b hb he
    rw [List.mem_append, List.mem_singleton] at ha hb
    rcases ha with ha | rfl <;> rcases hb with hb | rfl
    · exact hd a ha b hb he
    · exact absurd he (h a ha)
    · exact absurd he.symm (h b hb)
    · rfl
  · exact hd

/-- Direct play of the chunk whose turn it is. -/
theorem Stage.play (st : Stage cfg accepted hi s)
    (hempty : s.buff (s.nextChunk % cfg.buffSize) = none) {c : Chunk} (hc : c.id = s.nextChunk) :
    Stage cfg (accepted ++ [c]) hi
      { (playOut cfg c s).log (.regChunkPlayout c.id true c.timestamp) with
        nextChunk := s.nextChunk + 1 } := by
  obtain ⟨es, hes, hcases, hwr⟩ := playOut_trace cfg c s
  have habsent : ∀ a ∈ accepted, a.id ≠ s.nextChunk := fun a ha => st.next_absent hempty ha
  refine st.advance (some c) (es ++ [.regChunkPlayout c.id true c.timestamp]) (by simpa using hc)
    ?_ rfl (by simpa using st.window.skip hempty) ?_ (by simp [hes])
    ?_ ?_
  · intro a
    simp only [List.mem_append, List.mem_singleton, Option.mem_some_iff]
    constructor
    · rintro ⟨ha | rfl, hlt⟩
      · have := habsent a ha
        exact Or.inl ⟨ha, by omega⟩
      · exact Or.inr rfl
    · rintro (⟨ha, hlt⟩ | rfl)
      · exact ⟨Or.inl ha, by omega⟩
      · exact ⟨Or.inr rfl, by omega⟩
  · intro a
    rw [log_buff, playOut_buff, st.stored]
    simp only [List.mem_append, List.mem_singleton]
    constructor
    · rintro ⟨ha, hle⟩
      have := habsent a ha
      exact ⟨Or.inl ha, by omega⟩
    · rintro ⟨ha | rfl, hle⟩
      · exact ⟨ha, by omega⟩
      · omega
  · exact FreesInTurn.append (playOut_inTurn hcases) (.single trivial)
  · intro hr
    rw [written_append, hwr hr]
    simp [PeerStreamer.written]

/-- Storing a chunk ahead of its turn. -/
theorem Settled.store (st : Settled cfg accepted s) {c : Chunk}
    (hc : s.nextChunk < c.id) (hc' : c.id < s.nextChunk + cfg.buffSize)
    (hfree : s.buff (c.id % cfg.buffSize) = none) :
    Settled cfg (accepted ++ [c])
      { s with buff := Function.update s.buff (c.id % cfg.buffSize) (some c) } := by
  have stg := st.stage
  refine ⟨⟨stg.nonneg, stg.window.store c hc.le hc', ?_, ?_, stg.sorted, stg.inTurn⟩, ?_⟩
  · intro a
    show Ring.Stored (Function.update s.buff _ _) a ↔ a ∈ accepted ++ [c] ∧ s.nextChunk ≤ a.id
    rw [Ring.stored_store hfree, stg.stored, List.mem_append, List.mem_singleton]
    constructor
    · rintro (rfl | ⟨ha, hle⟩)
      · exact ⟨Or.inr rfl, hc.le⟩
      · exact ⟨Or.inl ha, hle⟩
    · rintro ⟨ha | rfl, hle⟩
      · exact Or.inr ⟨ha, hle⟩
      · exact Or.inl rfl
  · intro hr a
    rw [stg.written hr a, List.mem_append, List.mem_singleton]
    constructor
    · rintro ⟨ha, h⟩
      exact ⟨Or.inl ha, h⟩
    · rintro ⟨ha | rfl, h⟩
      · exact ⟨ha, h⟩
      · exact absurd h.1 (not_lt.2 hc.le)
  · show Function.update s.buff _ _ (s.nextChunk % cfg.buffSize) = none
    rw [Function.update_of_ne, st.empty]
    intro he
    have := Ring.eq_of_emod_eq s.nextChunk (by omega) (by omega) he
    omega

theorem playOrStore_settled (hB : 0 < cfg.buffSize) (hd : DistinctIds accepted)
    (st : Stage cfg accepted hi s) (hempty : s.buff (s.nextChunk % cfg.buffSize) = none)
    (hmax : hi ≤ INT_MAX) (hw : hi ≤ s.nextChunk + cfg.buffSize) (hBmax : cfg.buffSize ≤ INT_MAX)
    {c : Chunk} (hc : s.nextChunk ≤ c.id) (hc' : c.id < s.nextChunk + cfg.buffSize)
    (hlast : c.id = s.nextChunk → c.id < INT_MAX) :
    ∃ s', playOrStore cfg c s = .ok s' ∧ Settled cfg (acceptNew accepted c) s' ∧
      s.nextChunk ≤ s'.nextChunk ∧ Filled (acceptNew accepted c) s.nextChunk s'.nextChunk := by
  have hnn := st.nonneg
  by_cases hturn : c.id = s.nextChunk
  · have hlt := hlast hturn
    have hnew : acceptNew accepted c = accepted ++ [c] :=
      if_pos fun a ha => hturn ▸ st.next_absent hempty ha
    have hint : int (s.nextChunk + 1) = .ok (s.nextChunk + 1) := int_nonneg (by omega) (by omega)
    obtain ⟨s', hs', st', hempty', hle, hle', hfill⟩ := bufferFlush_stage hB hBmax hmax
      (hnew ▸ hd.acceptNew c) (st.play hempty hturn) (by show _ ≤ s.nextChunk + 1 + _; omega)
    have hle₁ : s.nextChunk + 1 ≤ s'.nextChunk := hle
    have hfirst : Filled (accepted ++ [c]) s.nextChunk (s.nextChunk + 1) :=
      fun x hl hu => ⟨c, by simp, by omega⟩
    rw [hnew]
    refine ⟨s', ?_, ⟨st'.mono (by omega), hempty'⟩, by omega, hfirst.trans hfill⟩
    simp only [playOrStore, if_pos hturn, log_nextChunk, playOut_nextChunk, hint]
    exact hs'
  · have hslot := Int.tmod_eq_emod_of_nonneg (b := cfg.buffSize) (hnn.trans hc)
    have settled : Settled cfg accepted s := ⟨st.mono hw, hempty⟩
    cases hs : s.buff (c.id % cfg.buffSize) with
    | none =>
      have hnew : acceptNew accepted c = accepted ++ [c] := by
        apply if_pos
        intro a ha he
        have hst := (st.window.stored_iff a).1 ((st.stored a).2 ⟨ha, by omega⟩)
        rw [he, hs] at hst
        cases hst
      rw [hnew]
      refine ⟨_, ?_, settled.store (by omega) hc' hs, le_rfl, .of_le _ le_rfl⟩
      simp only [playOrStore, if_neg hturn, hslot, hs]
    | some d =>
      have hid := st.window.key_eq hw ⟨hc, hc'⟩ hs
      have hmem := ((st.stored d).1 ⟨_, hs⟩).1
      have hold : acceptNew accepted c = accepted := if_neg fun h => h d hmem hid
      rw [hold]
      refine ⟨s.log .regChunkDuplicate, ?_,
        ⟨settled.stage.log trivial fun _ => rfl, hempty⟩, le_rfl, .of_le _ le_rfl⟩
      simp only [playOrStore, if_neg hturn, hslot, hs, if_pos hid]

theorem subset_acceptNew (accepted : List Chunk) (c : Chunk) :
    accepted ⊆ acceptNew accepted c := by
  unfold acceptNew
  split_ifs
  · exact List.subset_append_left _ _
  · exact List.Subset.refl _

/-- The `int` values of a call stay in range: there are `buff_size` ids from `nextChunk` on, and a
chunk with the last id of all does not come when it is next to play. -/
structure Fits (cfg : OutputConfig) (s : OutputState) (c : Chunk) : Prop where
  ahead : s.nextChunk + cfg.buffSize ≤ INT_MAX
  last : c.id = INT_MAX →
    ∃ x, INT_MAX - cfg.buffSize < x ∧ x < INT_MAX ∧ ∀ d, Ring.Stored s.buff d → d.id ≠ x

/-- Ids that leave room for the buffer. -/
theorem Fits.of_lt {c : Chunk} (hB : 0 < cfg.buffSize) (hc : s.nextChunk ≤ c.id)
    (h : c.id + cfg.buffSize < INT_MAX) : Fits cfg s c :=
  ⟨by omega, fun hlast => by omega⟩

/-- The part of `outputDeliver` behind the check for late chunks. -/
theorem deliver_settled (hB : 0 < cfg.buffSize) (hd : DistinctIds accepted)
    (st : Settled cfg accepted s) {c : Chunk} (hc : s.nextChunk ≤ c.id) (hmax : c.id ≤ INT_MAX)
    (hfits : Fits cfg s c) :
    ∃ s', (makeRoom cfg c s >>= playOrStore cfg c) = .ok s' ∧
      Settled cfg (acceptNew accepted c) s' ∧
      max s.nextChunk (c.id - cfg.buffSize + 1) ≤ s'.nextChunk ∧
      Filled (acceptNew accepted c) (max s.nextChunk (c.id - cfg.buffSize + 1)) s'.nextChunk := by
  have hahead := hfits.ahead
  have hnn := st.stage.nonneg
  obtain ⟨s₁, hs₁, st₁, hempty, hle₁, hle₁', hfill₁⟩ := makeRoom_stage hB hd st hc hahead hmax
  have hlast : c.id = s₁.nextChunk → c.id < INT_MAX := by
    intro hturn
    by_contra hge
    obtain ⟨x, hx, hx', habsent⟩ := hfits.last (by omega)
    obtain ⟨a, ha, rfl⟩ := hfill₁ x (by omega) (by omega)
    exact habsent a ((st.stage.stored a).2 ⟨ha, by omega⟩) rfl
  obtain ⟨s', hs', st', hle', hfill'⟩ :=
    playOrStore_settled hB hd st₁ hempty hahead (by omega) (by omega) hle₁ (by omega) hlast
  refine ⟨s', by rw [hs₁]; exact hs', st', by omega, ?_⟩
  exact (hfill₁.mono (subset_acceptNew accepted c) le_rfl).trans hfill'

/-- The state in which a chunk that is not late is handled. -/
def entered (cfg : OutputConfig) (c : Chunk) (s : OutputState) : OutputState :=
  let s := if cfg.reorder then s else s.log (.chunkWrite c)
  if s.nextChunk = -1 then { s.log (.firstRx c.id) with nextChunk := c.id } else s

theorem outputDeliver_of_le {c : Chunk} (h : s.nextChunk ≤ c.id) :
    outputDeliver cfg c s = makeRoom cfg c (entered cfg c s) >>= playOrStore cfg c := by
  unfold outputDeliver entered
  cases cfg.reorder with
  | true => simp [not_lt.2 h]
  | false => simp [not_lt.2 h]

theorem outputDeliver_of_lt {c : Chunk} (h : c.id < s.nextChunk) :
    outputDeliver cfg c s = .ok (if cfg.reorder then s else s.log (.chunkWrite c)) := by
  unfold outputDeliver
  cases cfg.reorder with
  | true => simp [h, pure, Except.pure]
  | false => simp [h, pure, Except.pure]

/-- A chunk behind `nextChunk` is dropped. -/
theorem outputDeliver_late (st : Settled cfg accepted s) {c : Chunk} (hc : c.id < s.nextChunk) :
    ∃ s', outputDeliver cfg c s = .ok s' ∧ Settled cfg accepted s' ∧
      s'.nextChunk = s.nextChunk := by
  refine ⟨_, outputDeliver_of_lt hc, ?_⟩
  cases hr : cfg.reorder with
  | true => exact ⟨st, rfl⟩
  | false =>
    refine ⟨⟨st.stage.log trivial fun h => ?_, st.empty⟩, rfl⟩
    rw [hr] at h
    cases h

theorem entered_buff (c : Chunk) (s : OutputState) : (entered cfg c s).buff = s.buff := by
  unfold entered
  dsimp only
  split_ifs <;> rfl

theorem Settled.entered (st : Settled cfg accepted s) (c : Chunk) :
    Settled cfg accepted (entered cfg c s) ∧ (entered cfg c s).nextChunk = s.nextChunk := by
  have hfirst : s.nextChunk ≠ -1 := by have := st.stage.nonneg; omega
  unfold PeerStreamer.entered
  cases hr : cfg.reorder with
  | true =>
    simp only [if_true, if_neg hfirst]
    exact ⟨st, trivial⟩
  | false =>
    simp only [Bool.false_eq_true, if_false, log_nextChunk, if_neg hfirst]
    refine ⟨⟨st.stage.log trivial fun h => ?_, st.empty⟩, trivial⟩
    rw [hr] at h
    cases h

/-- The first chunk sets `nextChunk` to its own id. -/
theorem settled_entered_init {c : Chunk} (hc : 0 ≤ c.id) :
    Settled cfg [] (entered cfg c init) ∧ (entered cfg c init).nextChunk = c.id := by
  have key : ∀ s : OutputState, s.buff = (fun _ => none) → s.nextChunk = c.id →
      FreesInTurn s.trace → (cfg.reorder = true → written s.trace = []) →
      Settled cfg [] s ∧ s.nextChunk = c.id := by
    intro s hbuff hnext hturn hw
    refine ⟨⟨⟨by omega, hbuff ▸ Ring.Window.empty .., ?_, ?_, ?_, hturn⟩, by rw [hbuff]⟩, hnext⟩
    · intro a
      rw [hbuff]
      simpa using Ring.not_stored_empty a
    · intro hr a
      simp [hw hr]
    · intro hr
      rw [hw hr]
      exact List.Pairwise.nil
  unfold entered
  cases hr : cfg.reorder with
  | true => exact key _ rfl rfl (.single trivial) fun _ => rfl
  | false =>
    refine key _ rfl rfl (.cons trivial (.single trivial)) fun h => ?_
    rw [hr] at h
    cases h

theorem outputDeliver_settled (hB : 0 < cfg.buffSize) (hd : DistinctIds accepted)
    (st : Settled cfg accepted s) {c : Chunk} (hc : s.nextChunk ≤ c.id) (hmax : c.id ≤ INT_MAX)
    (hfits : Fits cfg s c) :
    ∃ s', outputDeliver cfg c s = .ok s' ∧ Settled cfg (acceptNew accepted c) s' ∧
      max s.nextChunk (c.id - cfg.buffSize + 1) ≤ s'.nextChunk ∧
      Filled (acceptNew accepted c) (max s.nextChunk (c.id - cfg.buffSize + 1)) s'.nextChunk := by
  obtain ⟨st', hnext⟩ := st.entered c
  rw [outputDeliver_of_le hc, ← hnext]
  refine deliver_settled hB hd st' (hnext.trans_le hc) hmax ⟨hnext ▸ hfits.ahead, ?_⟩
  rw [entered_buff]
  exact hfits.last

/-- The first delivery. -/
theorem outputDeliver_init (hB : 0 < cfg.buffSize) {c : Chunk} (hc : 0 ≤ c.id)
    (hmax : c.id + cfg.buffSize ≤ INT_MAX) :
    ∃ s', outputDeliver cfg c init = .ok s' ∧ Settled cfg [c] s' ∧ c.id ≤ s'.nextChunk ∧
      Filled [c] c.id s'.nextChunk := by
  obtain ⟨st, hnext⟩ := settled_entered_init hc
  obtain ⟨s', hs', st', hle, hfill⟩ := deliver_settled hB
    (fun a ha => absurd ha List.not_mem_nil) st hnext.le (by omega)
    ⟨by omega, fun hlast => by omega⟩
  have hstart : max (entered cfg c init).nextChunk (c.id - cfg.buffSize + 1) = c.id := by omega
  rw [hstart] at hle hfill
  rw [outputDeliver_of_le (show (-1 : Int) ≤ c.id by omega)]
  exact ⟨s', hs', st', hle, hfill⟩

theorem deliverAll_concat (cfg : OutputConfig) (ds : List Chunk) (c : Chunk) :
    deliverAll cfg (ds ++ [c]) = deliverAll cfg ds >>= fun s => outputDeliver cfg c s := by
  simp [deliverAll, List.foldlM_append]

end PeerStreamer
