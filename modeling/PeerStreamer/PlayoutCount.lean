import PeerStreamer.OutputReference

/-!
# Playout accounting

`next_chunk` advances by one with every call of `reg_chunk_playout`, whether a missing id is given
up, a stored chunk is freed or the chunk whose turn it is is played.  `Account` is the account of
this: the reports so far are one for each id from the first one up to `next_chunk`, in order, and a
report says "played" exactly when its id was taken into playout.
-/

namespace PeerStreamer

open OutputState

/-! ## The account -/

/-- The calls of `reg_chunk_playout`, with the id and the flag they pass. -/
def reports (t : List OutputEvent) : List (Int × Bool) :=
  t.filterMap fun
    | .regChunkPlayout id played _ => some (id, played)
    | _ => none

/-- The ids of the chunks that were played from the buffer. -/
def freed (t : List OutputEvent) : List Int :=
  t.filterMap fun
    | .bufferFree _ c => some c.id
    | _ => none

@[simp] theorem reports_append (t u : List OutputEvent) :
    reports (t ++ u) = reports t ++ reports u :=
  List.filterMap_append

@[simp] theorem freed_append (t u : List OutputEvent) : freed (t ++ u) = freed t ++ freed u :=
  List.filterMap_append

/-- One report for each id from `first` to `nextChunk`; `direct` are the ids played without the
buffer. -/
structure Account (first : Int) (direct : Int → Prop) (s : OutputState) : Prop where
  length : ((reports s.trace).length : Int) = s.nextChunk - first
  played : ∀ (k : ℕ) r, (reports s.trace)[k]? = some r →
    (r.2 = true ↔ first + k ∈ freed s.trace ∨ direct (first + k)) ∧ (r.2 = true → r.1 = first + k)
  range : ∀ x, x ∈ freed s.trace ∨ direct x → first ≤ x ∧ x < s.nextChunk

variable {cfg : OutputConfig} {first : Int} {direct direct' : Int → Prop} {s s' : OutputState}
  {c : Chunk}

/-- One report more. -/
theorem Account.advance (acc : Account first direct s) (es : List OutputEvent) (r : Int × Bool)
    (ht : s'.trace = s.trace ++ es) (hrep : reports es = [r]) (hn : s'.nextChunk = s.nextChunk + 1)
    (htaken : ∀ x, x ∈ freed s'.trace ∨ direct' x ↔
      (x ∈ freed s.trace ∨ direct x) ∨ r.2 = true ∧ x = s.nextChunk)
    (hid : r.2 = true → r.1 = s.nextChunk) : Account first direct' s' := by
  have hreports : reports s'.trace = reports s.trace ++ [r] := by
    rw [ht, reports_append, hrep]
  have hlen := acc.length
  refine ⟨?_, fun k q hq => ?_, fun x hx => ?_⟩
  · rw [hreports, List.length_append, List.length_singleton, hn]
    push_cast
    omega
  · rw [hreports] at hq
    rw [htaken]
    by_cases hk : k < (reports s.trace).length
    · rw [List.getElem?_append_left hk] at hq
      obtain ⟨hflag, hq'⟩ := acc.played k q hq
      refine ⟨hflag.trans (or_iff_left ?_).symm, hq'⟩
      rintro ⟨-, hx⟩
      omega
    · have hlast : k = (reports s.trace).length := by
        have hlt := (List.getElem?_eq_some_iff.1 hq).1
        rw [List.length_append, List.length_singleton] at hlt
        omega
      subst hlast
      rw [List.getElem?_concat_length] at hq
      obtain rfl := Option.some_inj.1 hq
      have hnext : first + ((reports s.trace).length : Int) = s.nextChunk := by omega
      rw [hnext]
      refine ⟨⟨fun hr => Or.inr ⟨hr, rfl⟩, ?_⟩, hid⟩
      rintro (hold | ⟨hr, -⟩)
      · exact absurd (acc.range _ hold).2 (lt_irrefl _)
      · exact hr
  · rcases (htaken x).1 hx with hold | ⟨-, rfl⟩
    · have := acc.range x hold
      omega
    · omega

/-- Events that are no reports leave the account as it is. -/
theorem Account.congr (acc : Account first direct s) (hrep : reports s'.trace = reports s.trace)
    (hfreed : freed s'.trace = freed s.trace) (hn : s'.nextChunk = s.nextChunk) :
    Account first direct s' := by
  refine ⟨?_, ?_, ?_⟩
  · rw [hrep, hn]
    exact acc.length
  · rw [hrep, hfreed]
    exact acc.played
  · rw [hfreed, hn]
    exact acc.range

/-! ## The steps -/

theorem playOut_silent (cfg : OutputConfig) (c : Chunk) (s : OutputState) :
    ∃ es, (playOut cfg c s).trace = s.trace ++ es ∧ reports es = [] ∧ freed es = [] := by
  obtain ⟨es, hes, hcases, -⟩ := playOut_trace cfg c s
  refine ⟨es, hes, List.filterMap_eq_nil_iff.2 fun e he => ?_,
    List.filterMap_eq_nil_iff.2 fun e he => ?_⟩
  · rcases hcases e he with rfl | rfl | rfl <;> rfl
  · rcases hcases e he with rfl | rfl | rfl <;> rfl

/-- What `buffer_free` adds to the trace. -/
theorem bufferFree_ok {site : FreeSite} {i : Int} (h : bufferFree cfg site i c s = .ok s') :
    ∃ es, s'.trace = s.trace ++ .bufferFree site c :: es ∧ reports es = [(c.id, true)] ∧
      freed es = [] ∧ s'.nextChunk = c.id + 1 := by
  obtain ⟨es, hes, hrep, hfreed⟩ := playOut_silent cfg c (s.log (.bufferFree site c))
  obtain ⟨next, hnext, h⟩ := bind_eq_ok.1 h
  obtain rfl := eq_of_int_ok hnext
  obtain rfl := Except.ok.inj h
  refine ⟨es ++ [.regChunkPlayout c.id true c.timestamp], ?_, ?_, ?_, rfl⟩
  · simp [hes]
  · rw [reports_append, hrep]
    rfl
  · rw [freed_append, hfreed]
    rfl

/-- A chunk that is freed in its turn. -/
theorem Account.bufferFree (acc : Account first direct s) {site : FreeSite} {i : Int}
    (h : bufferFree cfg site i c s = .ok s') (hid : c.id = s.nextChunk) :
    Account first direct s' := by
  obtain ⟨es, ht, hrep, hfreed, hn⟩ := bufferFree_ok h
  refine acc.advance _ (c.id, true) ht hrep (by omega) (fun x => ?_) (fun _ => hid)
  rw [ht, freed_append, List.mem_append]
  have hone : x ∈ freed (.bufferFree site c :: es) ↔ x = s.nextChunk := by
    rw [show freed (.bufferFree site c :: es) = c.id :: freed es from rfl, hfreed, hid,
      List.mem_singleton]
  rw [hone]
  tauto

/-- A missing id that is given up. -/
theorem Account.skip (acc : Account first direct s) (ts : UInt64) (x : Int) :
    Account first direct
      { s.log (.regChunkPlayout x false ts) with nextChunk := s.nextChunk + 1 } := by
  refine acc.advance [.regChunkPlayout x false ts] (x, false) rfl rfl rfl (fun y => ?_) (by simp)
  simp [freed]

/-- The chunk whose turn it is, played at once. -/
theorem Account.play (acc : Account first direct s) (hid : c.id = s.nextChunk) :
    Account first (fun x => direct x ∨ x = c.id)
      { (playOut cfg c s).log (.regChunkPlayout c.id true c.timestamp) with
        nextChunk := s.nextChunk + 1 } := by
  obtain ⟨es, hes, hrep, hfreed⟩ := playOut_silent cfg c s
  have ht : ((playOut cfg c s).log (.regChunkPlayout c.id true c.timestamp)).trace =
      s.trace ++ (es ++ [.regChunkPlayout c.id true c.timestamp]) := by
    rw [log_trace, hes, List.append_assoc]
  refine acc.advance _ (c.id, true) ht ?_ rfl (fun y => ?_) (fun _ => hid)
  · rw [reports_append, hrep]
    rfl
  · have hsame : freed ((playOut cfg c s).log (.regChunkPlayout c.id true c.timestamp)).trace =
        freed s.trace := by
      rw [ht, freed_append, freed_append, hfreed]
      simp [freed]
    show y ∈ freed ((playOut cfg c s).log _).trace ∨ _ ↔ _
    rw [hsame, hid]
    tauto

/-! ## The loops -/

theorem FreesInTurn.of_isPrefix {t u : List OutputEvent} (h : FreesInTurn u) (hp : t <+: u) :
    FreesInTurn t :=
  fun e he => h e (hp.subset he)

/-- One iteration of the eviction loop, run with its counter equal to `nextChunk`. -/
theorem evictStep_account {i : Int} (h : evictStep cfg c i s = .ok s') :
    s.trace <+: s'.trace ∧ (i = s.nextChunk → FreesInTurn s'.trace →
      s'.nextChunk = s.nextChunk + 1 ∧ ∀ first direct, Account first direct s →
        Account first direct s') := by
  unfold evictStep at h
  split at h
  · rename_i d _
    obtain ⟨es, ht, -, -, hn⟩ := bufferFree_ok h
    refine ⟨ht ▸ List.prefix_append .., fun hi hturn => ?_⟩
    have hid : d.id = i := hturn (.bufferFree (.evict i) d) (by rw [ht]; simp)
    exact ⟨by omega, fun _ _ acc => acc.bufferFree h (by omega)⟩
  · obtain ⟨next, hnext, h⟩ := bind_eq_ok.1 h
    obtain rfl := eq_of_int_ok hnext
    obtain rfl := Except.ok.inj h
    exact ⟨List.prefix_append .., fun _ _ => ⟨rfl, fun _ _ acc => acc.skip ..⟩⟩

theorem evictLoop_account {n : ℕ} {i : Int} (h : evictLoop cfg c n i s = .ok s') :
    s.trace <+: s'.trace ∧ (i = s.nextChunk → FreesInTurn s'.trace →
      ∀ first direct, Account first direct s → Account first direct s') := by
  induction n generalizing i s with
  | zero =>
    obtain rfl := Except.ok.inj h
    exact ⟨List.prefix_refl _, fun _ _ _ _ acc => acc⟩
  | succ n ih =>
    obtain ⟨s₁, hs, h⟩ := bind_eq_ok.1 h
    obtain ⟨j, hi, h⟩ := bind_eq_ok.1 h
    obtain rfl := eq_of_int_ok hi
    obtain ⟨hp, hstep⟩ := evictStep_account hs
    obtain ⟨hp', hloop⟩ := ih h
    refine ⟨hp.trans hp', fun heq hturn => ?_⟩
    obtain ⟨hn, hacc⟩ := hstep heq (hturn.of_isPrefix hp')
    exact fun _ _ acc => hloop (by omega) hturn _ _ (hacc _ _ acc)

theorem flushLoop_account {start : Int} {fuel : ℕ} {i : Int}
    (h : flushLoop cfg start fuel i s = .ok s') :
    s.trace <+: s'.trace ∧ (FreesInTurn s'.trace →
      ∀ first direct, Account first direct s → Account first direct s') := by
  induction fuel generalizing i s with
  | zero => cases h
  | succ fuel ih =>
    rw [flushLoop] at h
    split at h
    · obtain rfl := Except.ok.inj h
      exact ⟨List.prefix_refl _, fun _ _ _ acc => acc⟩
    · rename_i d _
      obtain ⟨s₁, hs, h⟩ := bind_eq_ok.1 h
      obtain ⟨j, hi, h⟩ := bind_eq_ok.1 h
      obtain ⟨es, ht, -, -, -⟩ := bufferFree_ok hs
      have hp : s.trace <+: s₁.trace := ht ▸ List.prefix_append ..
      have hfree : FreesInTurn s₁.trace → ∀ first direct, Account first direct s →
          Account first direct s₁ := by
        intro hturn _ _ acc
        have hid : d.id = s.nextChunk :=
          hturn (.bufferFree (.flush s.nextChunk) d) (by rw [ht]; simp)
        exact acc.bufferFree hs hid
      dsimp only at h
      split_ifs at h
      · obtain rfl := Except.ok.inj h
        exact ⟨hp, hfree⟩
      · obtain ⟨hp', hloop⟩ := ih h
        refine ⟨hp.trans hp', fun hturn _ _ acc => ?_⟩
        exact hloop hturn _ _ (hfree (hturn.of_isPrefix hp') _ _ acc)

/-! ## One delivery -/

theorem makeRoom_account (h : makeRoom cfg c s = .ok s') :
    s.trace <+: s'.trace ∧ (FreesInTurn s'.trace →
      ∀ first direct, Account first direct s → Account first direct s') := by
  obtain ⟨ahead, -, h⟩ := bind_eq_ok.1 h
  split_ifs at h
  · obtain ⟨last, -, h⟩ := bind_eq_ok.1 h
    obtain ⟨s₁, hs, h⟩ := bind_eq_ok.1 h
    obtain ⟨hp, hevict⟩ := evictLoop_account hs
    obtain ⟨hp', hflush⟩ := flushLoop_account h
    refine ⟨hp.trans hp', fun hturn _ _ acc => ?_⟩
    exact hflush hturn _ _ (hevict rfl (hturn.of_isPrefix hp') _ _ acc)
  · obtain rfl := Except.ok.inj h
    exact ⟨List.prefix_refl _, fun _ _ _ acc => acc⟩

theorem playOrStore_account (h : playOrStore cfg c s = .ok s') :
    s.trace <+: s'.trace ∧ (FreesInTurn s'.trace → ∀ first direct, Account first direct s →
      Account first (fun x => direct x ∨ c.id = s.nextChunk ∧ x = c.id) s') := by
  unfold playOrStore at h
  split_ifs at h with hturn
  · obtain ⟨next, hnext, h⟩ := bind_eq_ok.1 h
    rw [log_nextChunk, playOut_nextChunk] at hnext
    obtain rfl := eq_of_int_ok hnext
    obtain ⟨es, hes, -, -⟩ := playOut_silent cfg c s
    obtain ⟨hp, hflush⟩ := flushLoop_account h
    have hplayed : s.trace <+:
        ((playOut cfg c s).log (.regChunkPlayout c.id true c.timestamp)).trace := by
      rw [log_trace, hes, List.append_assoc]
      exact List.prefix_append ..
    refine ⟨hplayed.trans hp, fun hfrees _ _ acc => ?_⟩
    simp only [hturn, true_and]
    rw [← hturn]
    exact hflush hfrees _ _ (acc.play hturn)
  · have hnone : ∀ direct : Int → Prop,
        (fun x => direct x ∨ c.id = s.nextChunk ∧ x = c.id) = direct := by
      intro direct
      funext x
      simp [hturn]
    simp only [hnone]
    split at h
    · split_ifs at h
      obtain rfl := Except.ok.inj h
      refine ⟨List.prefix_append .., fun _ _ _ acc => acc.congr ?_ ?_ rfl⟩
      · simp [reports]
      · simp [freed]
    · obtain rfl := Except.ok.inj h
      exact ⟨List.prefix_refl _, fun _ _ _ acc => acc.congr rfl rfl rfl⟩

/-- The chunk is played without going through the buffer. -/
def PlaysDirectly (cfg : OutputConfig) (c : Chunk) (s : OutputState) : Prop :=
  s.nextChunk ≤ c.id ∧ ∃ s', makeRoom cfg c (entered cfg c s) = .ok s' ∧ c.id = s'.nextChunk

/-- The part of `outputDeliver` behind the check for late chunks. -/
theorem deliver_account (h : (makeRoom cfg c s >>= playOrStore cfg c) = .ok s')
    (hturn : FreesInTurn s'.trace) (acc : Account first direct s) :
    Account first (fun x => direct x ∨
      (∃ s₁, makeRoom cfg c s = .ok s₁ ∧ c.id = s₁.nextChunk) ∧ x = c.id) s' := by
  obtain ⟨s₁, hs, h⟩ := bind_eq_ok.1 h
  obtain ⟨-, hroom⟩ := makeRoom_account hs
  obtain ⟨hp, hplay⟩ := playOrStore_account h
  have hacc := hplay hturn _ _ (hroom (hturn.of_isPrefix hp) _ _ acc)
  simpa [hs] using hacc

theorem outputDeliver_account (h : outputDeliver cfg c s = .ok s') (hfirst : s.nextChunk ≠ -1)
    (hturn : FreesInTurn s'.trace) (acc : Account first direct s) :
    Account first (fun x => direct x ∨ PlaysDirectly cfg c s ∧ x = c.id) s' := by
  by_cases hc : c.id < s.nextChunk
  · have hnone : (fun x => direct x ∨ PlaysDirectly cfg c s ∧ x = c.id) = direct := by
      funext x
      simp [PlaysDirectly, not_le.2 hc]
    rw [outputDeliver_of_lt hc] at h
    obtain rfl := Except.ok.inj h
    rw [hnone]
    split_ifs
    · exact acc
    · refine acc.congr ?_ ?_ rfl
      · simp [reports]
      · simp [freed]
  · rw [not_lt] at hc
    rw [outputDeliver_of_le hc] at h
    have hentered : Account first direct (entered cfg c s) := by
      unfold entered
      cases cfg.reorder with
      | true => simpa [hfirst] using acc
      | false =>
        simp only [Bool.false_eq_true, if_false, log_nextChunk, if_neg hfirst]
        refine acc.congr ?_ ?_ rfl
        · simp [reports]
        · simp [freed]
    simpa [PlaysDirectly, hc] using deliver_account h hturn hentered

/-- The first delivery opens the account. -/
theorem outputDeliver_init_account (hc : 0 ≤ c.id) (h : outputDeliver cfg c init = .ok s')
    (hturn : FreesInTurn s'.trace) :
    Account c.id (fun x => PlaysDirectly cfg c init ∧ x = c.id) s' := by
  have hle : init.nextChunk ≤ c.id := by
    show (-1 : Int) ≤ c.id
    omega
  rw [outputDeliver_of_le hle] at h
  have hentered : Account c.id (fun _ => False) (entered cfg c init) := by
    unfold entered
    cases cfg.reorder with
    | true => exact ⟨by simp [init, reports], by simp [init, reports], by simp [init, freed]⟩
    | false => exact ⟨by simp [init, reports], by simp [init, reports], by simp [init, freed]⟩
  simpa [PlaysDirectly, hle] using deliver_account h hturn hentered

/-! ## Runs -/

/-- The chunk with this id was played directly when it was delivered. -/
def Direct (cfg : OutputConfig) (ds : List Chunk) (x : Int) : Prop :=
  ∃ pre c s, pre ++ [c] <+: ds ∧ deliverAll cfg pre = .ok s ∧ PlaysDirectly cfg c s ∧ x = c.id

/-- The chunk with this id was taken into playout in the run, from the buffer or directly. -/
def Taken (cfg : OutputConfig) (ds : List Chunk) (x : Int) : Prop :=
  (∃ s site c, deliverAll cfg ds = .ok s ∧ .bufferFree site c ∈ s.trace ∧ x = c.id) ∨
    Direct cfg ds x

theorem direct_concat {ds : List Chunk} (hs : deliverAll cfg ds = .ok s) (c : Chunk) (x : Int) :
    Direct cfg (ds ++ [c]) x ↔ Direct cfg ds x ∨ PlaysDirectly cfg c s ∧ x = c.id := by
  constructor
  · rintro ⟨pre, d, u, hp, hu, hplays, hx⟩
    rcases List.prefix_concat_iff.1 hp with heq | hp
    · obtain ⟨rfl, hd⟩ := List.append_inj' heq rfl
      obtain rfl := List.singleton_inj.1 hd
      obtain rfl := Except.ok.inj (hu.symm.trans hs)
      exact Or.inr ⟨hplays, hx⟩
    · exact Or.inl ⟨pre, d, u, hp, hu, hplays, hx⟩
  · rintro (⟨pre, d, u, hp, hu, hplays, hx⟩ | ⟨hplays, hx⟩)
    · exact ⟨pre, d, u, hp.trans (List.prefix_append ..), hu, hplays, hx⟩
    · exact ⟨ds, c, s, List.prefix_refl _, hs, hplays, hx⟩

/-- Every run keeps the account. -/
theorem deliverAll_account (hB : 0 < cfg.buffSize) (d : Chunk) (ds : List Chunk)
    (hds : ∀ c ∈ d :: ds, 0 ≤ c.id ∧ c.id + cfg.buffSize < INT_MAX) :
    ∃ s, deliverAll cfg (d :: ds) = .ok s ∧ Account d.id (Direct cfg (d :: ds)) s := by
  induction ds using List.reverseRecOn with
  | nil =>
    obtain ⟨s, hs, rf⟩ := refines_start hB (hds d (by simp)).1 (hds d (by simp)).2
    have hinit : deliverAll cfg [] = .ok init := rfl
    have hone : deliverAll cfg ([] ++ [d]) = .ok s := by
      rw [deliverAll_concat, hinit]
      exact hs
    have hacc := outputDeliver_init_account (hds d (by simp)).1 hs rf.settled.stage.inTurn
    refine ⟨s, hone, ?_⟩
    have hdirect : Direct cfg [d] = fun x => PlaysDirectly cfg d init ∧ x = d.id := by
      funext x
      have hnil : ¬ Direct cfg [] x := by
        rintro ⟨pre, c, u, hp, -⟩
        exact absurd (List.prefix_nil.1 hp) (by simp)
      have := direct_concat hinit d x
      simp only [List.nil_append, hnil, false_or] at this
      exact propext this
    rwa [hdirect]
  | append_singleton ds c ih =>
    obtain ⟨s, hs, acc⟩ := ih fun a ha => hds a (by simp at ha ⊢; tauto)
    obtain ⟨s₀, hs₀, rf⟩ := deliverAll_refines hB d ds fun a ha => hds a (by simp at ha ⊢; tauto)
    obtain rfl := Except.ok.inj (hs.symm.trans hs₀)
    obtain ⟨s', hs', rf', -⟩ := refines_deliver hB rf (hds c (by simp)).2
    have hfirst : s.nextChunk ≠ -1 := by
      have := rf.settled.stage.nonneg
      omega
    refine ⟨s', ?_, ?_⟩
    · rw [← List.cons_append, deliverAll_concat, hs]
      exact hs'
    · have hacc := outputDeliver_account hs' hfirst rf'.settled.stage.inTurn acc
      have hdirect : Direct cfg (d :: (ds ++ [c])) =
          fun x => Direct cfg (d :: ds) x ∨ PlaysDirectly cfg c s ∧ x = c.id := by
        funext x
        exact propext (direct_concat hs c x)
      rwa [hdirect]

/-! ## Counting -/

/-- A list that says of each number from `lo` up to `hi` whether it has a property. -/
theorem countP_eq_card_filter {α : Type} (p : α → Bool) (q : Int → Prop) [DecidablePred q]
    (l : List α) {lo hi : Int} (hlen : (l.length : Int) = hi - lo)
    (h : ∀ (k : ℕ) a, l[k]? = some a → (p a = true ↔ q (lo + k))) :
    l.countP p = ((Finset.Ico lo hi).filter q).card := by
  induction l generalizing lo with
  | nil =>
    rw [List.length_nil] at hlen
    rw [Finset.Ico_eq_empty (by omega)]
    rfl
  | cons a l ih =>
    rw [List.length_cons] at hlen
    push_cast at hlen
    have hhead : p a = true ↔ q lo := by simpa using h 0 a rfl
    have hrest : ∀ (k : ℕ) b, l[k]? = some b → (p b = true ↔ q (lo + 1 + k)) := by
      intro k b hb
      have := h (k + 1) b (by simpa using hb)
      push_cast at this
      rwa [show lo + ((k : Int) + 1) = lo + 1 + k by ring] at this
    have htail := ih (by omega) hrest
    have hnot : lo ∉ (Finset.Ico (lo + 1) hi).filter q := by simp
    rw [← Finset.insert_Ico_add_one_left_eq_Ico (show lo < hi by omega), Finset.filter_insert,
      List.countP_cons, htail]
    split_ifs with hp hq hq
    · rw [Finset.card_insert_of_notMem hnot]
    · exact absurd (hhead.1 hp) hq
    · exact absurd (hhead.2 hq) hp
    · rfl

theorem mem_freed {t : List OutputEvent} {x : Int} :
    x ∈ freed t ↔ ∃ site c, .bufferFree site c ∈ t ∧ x = c.id := by
  rw [freed, List.mem_filterMap]
  constructor
  · rintro ⟨e, he, hx⟩
    cases e with
    | bufferFree site c => exact ⟨site, c, he, (Option.some_inj.1 hx).symm⟩
    | _ => cases hx
  · rintro ⟨site, c, he, rfl⟩
    exact ⟨_, he, rfl⟩

open Classical in
/-- The ids from the first delivered one up to `next_chunk` are reported once each: "played" for
the ones that were taken into playout, "lost" for the others. -/
theorem playout_conserved (cfg : OutputConfig) (hB : 1 ≤ cfg.buffSize) (d : Chunk)
    (ds : List Chunk) (hds : ∀ c ∈ d :: ds, 0 ≤ c.id ∧ c.id + cfg.buffSize < INT_MAX) :
    ∃ s, deliverAll cfg (d :: ds) = .ok s ∧ d.id ≤ s.nextChunk ∧
      (reports s.trace).countP (·.2) =
        ((Finset.Ico d.id s.nextChunk).filter (Taken cfg (d :: ds))).card ∧
      (reports s.trace).countP (! ·.2) =
        ((Finset.Ico d.id s.nextChunk).filter fun x => ¬ Taken cfg (d :: ds) x).card ∧
      ((reports s.trace).countP (·.2) + (reports s.trace).countP (! ·.2) : Int) =
        s.nextChunk - d.id ∧
      ∀ k : ℕ, (k : Int) < s.nextChunk - d.id → ∃ r, (reports s.trace)[k]? = some r ∧
        (r.2 = true ↔ Taken cfg (d :: ds) (d.id + k)) ∧ (r.2 = true → r.1 = d.id + k) := by
  obtain ⟨s, hs, acc⟩ := deliverAll_account hB d ds hds
  have htaken : ∀ x, x ∈ freed s.trace ∨ Direct cfg (d :: ds) x ↔ Taken cfg (d :: ds) x := by
    intro x
    refine or_congr_left' fun _ => mem_freed.trans ⟨?_, ?_⟩
    · rintro ⟨site, c, hmem, hx⟩
      exact ⟨s, site, c, hs, hmem, hx⟩
    · rintro ⟨u, site, c, hu, hmem, hx⟩
      obtain rfl := Except.ok.inj (hs.symm.trans hu)
      exact ⟨site, c, hmem, hx⟩
  have hplayed : ∀ (k : ℕ) r, (reports s.trace)[k]? = some r →
      (r.2 = true ↔ Taken cfg (d :: ds) (d.id + k)) := by
    intro k r hr
    rw [← htaken]
    exact (acc.played k r hr).1
  have hsplit := List.length_eq_countP_add_countP (p := fun r => r.2) (l := reports s.trace)
  have hlen := acc.length
  refine ⟨s, hs, by omega, ?_, ?_, ?_, ?_⟩
  · exact countP_eq_card_filter _ _ _ hlen hplayed
  · refine countP_eq_card_filter _ _ _ hlen fun k r hr => ?_
    rw [Bool.not_eq_true', ← Bool.not_eq_true, hplayed k r hr]
  · simp only [Bool.not_eq_true, Bool.decide_eq_false] at hsplit
    omega
  · intro k hk
    have hlt : k < (reports s.trace).length := by omega
    have hget := List.getElem?_eq_getElem hlt
    exact ⟨_, hget, hplayed k _ hget, (acc.played k _ hget).2⟩

/-- The chunks 1 and 3 are missing when 5 arrives. -/
theorem playout_conserved_gap :
    ∃ s, deliverAll ⟨2, -1, -1, true⟩ [⟨0, 0, [7], []⟩, ⟨2, 0, [8], []⟩, ⟨5, 0, [9], []⟩] = .ok s ∧
      ((reports s.trace).countP (·.2) + (reports s.trace).countP (! ·.2) : Int) =
        s.nextChunk - 0 := by
  obtain ⟨s, hs, -, -, -, hsum, -⟩ := playout_conserved ⟨2, -1, -1, true⟩ (by decide)
    ⟨0, 0, [7], []⟩ [⟨2, 0, [8], []⟩, ⟨5, 0, [9], []⟩] (by decide)
  exact ⟨s, hs, hsum⟩

example : (deliverAll ⟨2, -1, -1, true⟩ [⟨0, 0, [7], []⟩, ⟨2, 0, [8], []⟩, ⟨5, 0, [9], []⟩]).map
    (fun s => (s.nextChunk, reports s.trace)) =
      .ok (4, [(0, true), (5, false), (2, true), (5, false)]) := by decide

end PeerStreamer
