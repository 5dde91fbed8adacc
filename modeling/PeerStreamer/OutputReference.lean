import Mathlib.Order.Bounds.Basic
import PeerStreamer.OutputGrapesProof

/-!
# What the reorder buffer is for

`Reference` accepts a chunk when its id is not below the first delivered one, less than the buffer
size behind the newest one, and new.  The play point is the least id from
`max first (newest - B + 1)` on that was not accepted.  Every run of `outputDeliver` agrees with
the reference (`deliverAll_refines`): what it wrote are the accepted chunks before the play point
in id order, and what it stores are those after it.
-/

namespace PeerStreamer

/-- The first and the newest delivered id, and the accepted chunks in the order of arrival. -/
structure Reference where
  first : Int
  newest : Int
  accepted : List Chunk

namespace Reference

/-- `c` is neither older than the stream nor `B` ids late, and its id is new. -/
def Accepts (B : Int) (r : Reference) (c : Chunk) : Prop :=
  r.first ≤ c.id ∧ r.newest - B < c.id ∧ ∀ a ∈ r.accepted, a.id ≠ c.id

instance (B : Int) (r : Reference) (c : Chunk) : Decidable (r.Accepts B c) :=
  inferInstanceAs (Decidable (_ ∧ _ ∧ _))

/-- The first delivery is always accepted. -/
def start (c : Chunk) : Reference := ⟨c.id, c.id, [c]⟩

def deliver (B : Int) (r : Reference) (c : Chunk) : Reference where
  first := r.first
  newest := max r.newest c.id
  accepted := if r.Accepts B c then r.accepted ++ [c] else r.accepted

/-- The deliveries `d :: ds` in order. -/
def run (B : Int) (d : Chunk) (ds : List Chunk) : Reference := ds.foldl (deliver B) (start d)

/-- No accepted chunk can be older than this. -/
def lower (B : Int) (r : Reference) : Int := max r.first (r.newest - B + 1)

theorem run_concat (B : Int) (d : Chunk) (ds : List Chunk) (c : Chunk) :
    run B d (ds ++ [c]) = (run B d ds).deliver B c := by
  simp [run, List.foldl_append]

theorem subset_deliver (B : Int) (r : Reference) (c : Chunk) :
    r.accepted ⊆ (r.deliver B c).accepted := by
  unfold deliver
  split_ifs
  · exact List.subset_append_left _ _
  · exact List.Subset.refl _

theorem subset_run (B : Int) (d : Chunk) (ds more : List Chunk) :
    (run B d ds).accepted ⊆ (run B d (ds ++ more)).accepted := by
  induction more using List.reverseRecOn with
  | nil => simp
  | append_singleton more c ih =>
    rw [← List.append_assoc, run_concat]
    exact List.Subset.trans ih (subset_deliver B _ c)

end Reference

variable {cfg : OutputConfig} {r : Reference} {s : OutputState}

/-- The state of the code and the state of the reference after the same deliveries. -/
structure Refines (cfg : OutputConfig) (r : Reference) (s : OutputState) : Prop where
  settled : Settled cfg r.accepted s
  distinct : DistinctIds r.accepted
  newest : ∀ a ∈ r.accepted, a.id ≤ r.newest
  lower : r.lower cfg.buffSize ≤ s.nextChunk
  upper : s.nextChunk ≤ r.newest + 1
  filled : Filled r.accepted (r.lower cfg.buffSize) s.nextChunk

theorem refines_start (hB : 0 < cfg.buffSize) {c : Chunk} (hc : 0 ≤ c.id)
    (hmax : c.id + cfg.buffSize < INT_MAX) :
    ∃ s, outputDeliver cfg c .init = .ok s ∧ Refines cfg (.start c) s := by
  obtain ⟨s, hs, st, hle, hfill⟩ := outputDeliver_init hB hc hmax.le
  have hlower : (Reference.start c).lower cfg.buffSize = c.id := by
    simp only [Reference.lower, Reference.start]
    omega
  refine ⟨s, hs, st, ?_, ?_, hlower ▸ hle, ?_, hlower ▸ hfill⟩
  · intro a ha b hb _
    exact (List.mem_singleton.1 ha).trans (List.mem_singleton.1 hb).symm
  · intro a ha
    exact (congrArg Chunk.id (List.mem_singleton.1 ha)).le
  · show s.nextChunk ≤ c.id + 1
    by_contra hgt
    obtain ⟨a, ha, he⟩ := hfill (c.id + 1) (by omega) (by omega)
    rw [List.mem_singleton.1 ha] at he
    omega

/-- A chunk from the play point on is accepted by the reference exactly when its id is new. -/
theorem Refines.accepted_deliver (rf : Refines cfg r s) {c : Chunk} (hc : s.nextChunk ≤ c.id) :
    (r.deliver cfg.buffSize c).accepted = acceptNew r.accepted c := by
  have hlower := rf.lower
  simp only [Reference.lower] at hlower
  have hiff : r.Accepts cfg.buffSize c ↔ ∀ a ∈ r.accepted, a.id ≠ c.id :=
    ⟨fun h => h.2.2, fun h => ⟨by omega, by omega, h⟩⟩
  simp only [Reference.deliver, acceptNew, hiff]

/-- A chunk behind the play point changes nothing in the reference. -/
theorem Refines.deliver_late (rf : Refines cfg r s) {c : Chunk} (hc : c.id < s.nextChunk) :
    r.deliver cfg.buffSize c = r := by
  have hupper := rf.upper
  have hnot : ¬ r.Accepts cfg.buffSize c := by
    rintro ⟨h1, h2, h3⟩
    obtain ⟨a, ha, he⟩ := rf.filled c.id (by simp only [Reference.lower]; omega) hc
    exact h3 a ha he
  have hmax : max r.newest c.id = r.newest := by omega
  simp only [Reference.deliver, if_neg hnot, hmax]

/-- One call keeps the agreement. -/
theorem refines_deliver (hB : 0 < cfg.buffSize) (rf : Refines cfg r s) {c : Chunk}
    (hmax : c.id + cfg.buffSize < INT_MAX) :
    ∃ s', outputDeliver cfg c s = .ok s' ∧ Refines cfg (r.deliver cfg.buffSize c) s' ∧
      s.nextChunk ≤ s'.nextChunk := by
  by_cases hc : c.id < s.nextChunk
  · obtain ⟨s', hs', st', hn⟩ := outputDeliver_late rf.settled hc
    rw [rf.deliver_late hc]
    exact ⟨s', hs', ⟨st', rf.distinct, rf.newest, hn ▸ rf.lower, hn ▸ rf.upper, hn ▸ rf.filled⟩,
      hn.ge⟩
  · rw [not_lt] at hc
    obtain ⟨s', hs', st', hle, hfill⟩ :=
      outputDeliver_settled hB rf.distinct rf.settled hc (by omega) (.of_lt hB hc hmax)
    have hacc := rf.accepted_deliver hc
    have hlow := rf.lower
    have hup := rf.upper
    have hold : Filled (acceptNew r.accepted c) (r.lower cfg.buffSize) s.nextChunk :=
      rf.filled.mono (subset_acceptNew _ c) le_rfl
    have hnewest : ∀ a ∈ acceptNew r.accepted c, a.id ≤ max r.newest c.id := by
      intro a ha
      unfold acceptNew at ha
      split_ifs at ha
      · rcases List.mem_append.1 ha with ha | ha
        · exact (rf.newest a ha).trans (le_max_left ..)
        · rw [List.mem_singleton.1 ha]
          exact le_max_right ..
      · exact (rf.newest a ha).trans (le_max_left ..)
    have hlower' : (r.deliver cfg.buffSize c).lower cfg.buffSize =
        max (r.lower cfg.buffSize) (c.id - cfg.buffSize + 1) := by
      simp only [Reference.lower, Reference.deliver]
      omega
    refine ⟨s', hs', ⟨hacc ▸ st', hacc ▸ rf.distinct.acceptNew c, ?_, ?_, ?_, ?_⟩, by omega⟩
    · rw [hacc]
      exact hnewest
    · rw [hlower']
      omega
    · show s'.nextChunk ≤ max r.newest c.id + 1
      by_contra hgt
      obtain ⟨a, ha, he⟩ := hfill (s'.nextChunk - 1) (by omega) (by omega)
      have := hnewest a ha
      omega
    · rw [hlower', hacc]
      by_cases hcase : c.id - cfg.buffSize + 1 ≤ s.nextChunk
      · rw [max_eq_left hcase] at hfill
        exact (hold.mono (List.Subset.refl _) (le_max_left ..)).trans hfill
      · exact hfill.mono (List.Subset.refl _) (by omega)

/-- Every run agrees with the reference. -/
theorem deliverAll_refines (hB : 0 < cfg.buffSize) (d : Chunk) (ds : List Chunk)
    (hds : ∀ c ∈ d :: ds, 0 ≤ c.id ∧ c.id + cfg.buffSize < INT_MAX) :
    ∃ s, deliverAll cfg (d :: ds) = .ok s ∧ Refines cfg (.run cfg.buffSize d ds) s := by
  induction ds using List.reverseRecOn with
  | nil =>
    obtain ⟨s, hs, rf⟩ := refines_start hB (hds d (by simp)).1 (hds d (by simp)).2
    refine ⟨s, ?_, rf⟩
    simp only [deliverAll, List.foldlM_cons, List.foldlM_nil, hs]
    rfl
  | append_singleton ds c ih =>
    obtain ⟨s, hs, rf⟩ := ih fun a ha => hds a (by simp at ha ⊢; tauto)
    obtain ⟨s', hs', rf', -⟩ := refines_deliver hB rf (hds c (by simp)).2
    refine ⟨s', ?_, Reference.run_concat .. ▸ rf'⟩
    rw [← List.cons_append, deliverAll_concat, hs]
    exact hs'

/-! ## The representation invariant -/

/-- The slots after a call, read off the agreement with the reference. -/
theorem Refines.slot (rf : Refines cfg r s) (hB : 0 < cfg.buffSize) {k : Int} {a : Chunk}
    (h : s.buff k = some a) : (0 ≤ k ∧ k < cfg.buffSize ∧ a.id % cfg.buffSize = k) ∧
      s.nextChunk < a.id ∧ a.id < s.nextChunk + cfg.buffSize := by
  have w := rf.settled.stage.window
  have hk := w.slot k a h
  have hne : a.id ≠ s.nextChunk := by
    intro he
    rw [hk, he, rf.settled.empty] at h
    cases h
  have hl := w.lower k a h
  have hu := w.upper k a h
  have h0 := Int.emod_nonneg a.id hB.ne'
  have h1 := Int.emod_lt_of_pos a.id hB
  exact ⟨⟨by omega, by omega, hk.symm⟩, by omega, by omega⟩

/-- After every call each occupied slot holds a chunk of the window behind `next_chunk` in the slot
of its id, the slot of `next_chunk` is empty and `next_chunk` has not decreased.  The call ends
without reaching `exit`, and every chunk freed so far was the one its caller expected. -/
theorem deliverAll_representation (cfg : OutputConfig) (hB : 1 ≤ cfg.buffSize) (ds : List Chunk)
    (c : Chunk) (hds : ∀ a ∈ ds ++ [c], 0 ≤ a.id ∧ a.id + cfg.buffSize < INT_MAX) :
    ∃ s s', deliverAll cfg ds = .ok s ∧ outputDeliver cfg c s = .ok s' ∧
      deliverAll cfg (ds ++ [c]) = .ok s' ∧
      (∀ k a, s'.buff k = some a → (0 ≤ k ∧ k < cfg.buffSize ∧ a.id % cfg.buffSize = k) ∧
        s'.nextChunk < a.id ∧ a.id < s'.nextChunk + cfg.buffSize) ∧
      s'.buff (s'.nextChunk % cfg.buffSize) = none ∧
      s.nextChunk ≤ s'.nextChunk ∧
      (∀ i a, .bufferFree (.evict i) a ∈ s'.trace → a.id = i) ∧
      (∀ next a, .bufferFree (.flush next) a ∈ s'.trace → a.id = next) := by
  have hB' : 0 < cfg.buffSize := hB
  have step : ∃ s s' r, deliverAll cfg ds = .ok s ∧ outputDeliver cfg c s = .ok s' ∧
      Refines cfg r s' ∧ s.nextChunk ≤ s'.nextChunk := by
    cases ds with
    | nil =>
      obtain ⟨s', hs', rf⟩ := refines_start hB' (hds c (by simp)).1 (hds c (by simp)).2
      have hnn := rf.settled.stage.nonneg
      exact ⟨.init, s', _, rfl, hs', rf, by show (-1 : Int) ≤ _; omega⟩
    | cons d ds =>
      obtain ⟨s, hs, rf⟩ := deliverAll_refines hB' d ds fun a ha =>
        hds a (List.mem_append_left _ ha)
      obtain ⟨s', hs', rf', hle⟩ := refines_deliver hB' rf (hds c (by simp)).2
      exact ⟨s, s', _, hs, hs', rf', hle⟩
  obtain ⟨s, s', r, hs, hs', rf, hle⟩ := step
  refine ⟨s, s', hs, hs', ?_, fun k a => rf.slot hB', rf.settled.empty, hle, ?_, ?_⟩
  · rw [deliverAll_concat, hs]
    exact hs'
  · exact fun i a h => rf.settled.stage.inTurn _ h
  · exact fun next a h => rf.settled.stage.inTurn _ h

theorem deliverAll_representation_gap :
    ∃ s s', deliverAll ⟨2, -1, -1, true⟩ [⟨0, 0, [7], []⟩, ⟨2, 0, [8], []⟩] = .ok s ∧
      outputDeliver ⟨2, -1, -1, true⟩ ⟨5, 0, [9], []⟩ s = .ok s' ∧ s.nextChunk ≤ s'.nextChunk := by
  obtain ⟨s, s', h, h', -, -, -, hle, -⟩ := deliverAll_representation ⟨2, -1, -1, true⟩
    (by decide) [⟨0, 0, [7], []⟩, ⟨2, 0, [8], []⟩] ⟨5, 0, [9], []⟩ (by decide)
  exact ⟨s, s', h, h', hle⟩

/-! ## Agreement with the reference -/

/-- A chunk that is not too old and not too late when it arrives has its id accepted, now or
earlier. -/
theorem Reference.mem_run_of_inTime (B : Int) (d : Chunk) (pre : List Chunk) (c : Chunk)
    (post : List Chunk) (h1 : (run B d pre).first ≤ c.id) (h2 : (run B d pre).newest - B < c.id) :
    ∃ a ∈ (run B d (pre ++ c :: post)).accepted, a.id = c.id := by
  have hsub := subset_run B d (pre ++ [c]) post
  rw [List.append_assoc, List.singleton_append] at hsub
  by_cases h3 : ∀ a ∈ (run B d pre).accepted, a.id ≠ c.id
  · have hacc : (run B d pre).Accepts B c := ⟨h1, h2, h3⟩
    refine ⟨c, hsub ?_, rfl⟩
    rw [run_concat, deliver, if_pos hacc]
    exact List.mem_append_right _ (List.mem_singleton_self c)
  · simp only [not_forall, not_not] at h3
    obtain ⟨a, ha, he⟩ := h3
    exact ⟨a, hsub (run_concat B d pre c ▸ subset_deliver B _ c ha), he⟩

/-- The reorder buffer computes its reference: `next_chunk` is the play point, the written chunks
are the accepted ones before it that are in range, in id order, and the stored ones are those after
it.  No chunk that arrives in time is lost. -/
theorem deliverAll_reference (cfg : OutputConfig) (hr : cfg.reorder = true)
    (hB : 1 ≤ cfg.buffSize) (d : Chunk) (ds : List Chunk)
    (hds : ∀ c ∈ d :: ds, 0 ≤ c.id ∧ c.id + cfg.buffSize < INT_MAX ∧ c.data ≠ []) :
    ∃ s, deliverAll cfg (d :: ds) = .ok s ∧
      IsLeast {n | max (Reference.run cfg.buffSize d ds).first
          ((Reference.run cfg.buffSize d ds).newest - cfg.buffSize + 1) ≤ n ∧
        ∀ a ∈ (Reference.run cfg.buffSize d ds).accepted, a.id ≠ n} s.nextChunk ∧
      ((written s.trace).Pairwise fun a b => a.id < b.id) ∧
      (∀ c, c ∈ written s.trace ↔ c ∈ (Reference.run cfg.buffSize d ds).accepted ∧
        c.id < s.nextChunk ∧ cfg.InRange c.id) ∧
      (∀ c, (∃ k, s.buff k = some c) ↔
        c ∈ (Reference.run cfg.buffSize d ds).accepted ∧ s.nextChunk < c.id) ∧
      (∀ pre c post, ds = pre ++ c :: post →
        (Reference.run cfg.buffSize d pre).first ≤ c.id →
        (Reference.run cfg.buffSize d pre).newest - cfg.buffSize < c.id →
        ∃ a ∈ (Reference.run cfg.buffSize d ds).accepted, a.id = c.id ∧
          (a ∈ written s.trace ∨ (∃ k, s.buff k = some a) ∨ ¬ cfg.InRange a.id)) := by
  obtain ⟨s, hs, rf⟩ := deliverAll_refines hB d ds fun c hc => ⟨(hds c hc).1, (hds c hc).2.1⟩
  have stg := rf.settled.stage
  have habsent : ∀ a ∈ (Reference.run cfg.buffSize d ds).accepted, a.id ≠ s.nextChunk :=
    fun a ha => stg.next_absent rf.settled.empty ha
  have hstored : ∀ c, (∃ k, s.buff k = some c) ↔
      c ∈ (Reference.run cfg.buffSize d ds).accepted ∧ s.nextChunk < c.id := by
    intro c
    refine (stg.stored c).trans (and_congr_right fun hc => ?_)
    have := habsent c hc
    omega
  refine ⟨s, hs, ⟨⟨rf.lower, habsent⟩, ?_⟩, stg.sorted hr, stg.written hr, hstored, ?_⟩
  · rintro n ⟨hn, hnone⟩
    by_contra hlt
    obtain ⟨a, ha, he⟩ := rf.filled n hn (not_le.1 hlt)
    exact hnone a ha he
  · rintro pre c post rfl h1 h2
    obtain ⟨a, ha, he⟩ := Reference.mem_run_of_inTime cfg.buffSize d pre c post h1 h2
    refine ⟨a, ha, he, ?_⟩
    rcases lt_or_gt_of_ne (habsent a ha) with hlt | hgt
    · by_cases hin : cfg.InRange a.id
      · exact Or.inl ((stg.written hr a).2 ⟨ha, hlt, hin⟩)
      · exact Or.inr (Or.inr hin)
    · exact Or.inr (Or.inl ((hstored a).2 ⟨ha, hgt⟩))

theorem deliverAll_reference_gap :
    ∃ s, deliverAll ⟨2, -1, -1, true⟩ [⟨0, 0, [7], []⟩, ⟨2, 0, [8], []⟩, ⟨5, 0, [9], []⟩] = .ok s ∧
      (written s.trace).Pairwise fun a b => a.id < b.id := by
  obtain ⟨s, hs, -, hsorted, -⟩ := deliverAll_reference ⟨2, -1, -1, true⟩ rfl (by decide)
    ⟨0, 0, [7], []⟩ [⟨2, 0, [8], []⟩, ⟨5, 0, [9], []⟩] (by decide)
  exact ⟨s, hs, hsorted⟩

end PeerStreamer
