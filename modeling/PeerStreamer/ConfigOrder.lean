import PeerStreamer.Config
import Mathlib.Tactic.FinCases

/-!
# The order of the lines of a configuration file

The lines of a file take effect as long as their keys come in the order of the table and no unknown
key has been met: the first line that breaks this moves the index to the end of the table, and no
line after it finds its entry.  A lost line does no harm if it gives an entry its default.
-/

namespace PeerStreamer.Config

open CString

variable {F : Type} (atof : List UInt8 → F) {cfg g : ConfigT F} {m : Meaning}
  {pre post ms : List Meaning} {i j : Fin configEntries.length} {value : List UInt8}

/-- The entry that a line names. -/
def Meaning.index? : Meaning → Option (Fin configEntries.length)
  | .assign i _ => some i
  | _ => none

/-- The entries that lines name. -/
def indices (ms : List Meaning) : List (Fin configEntries.length) := ms.filterMap Meaning.index?

/-- What a line gives an entry. -/
def Meaning.textFor (i : Fin configEntries.length) : Meaning → Option (List UInt8)
  | .assign j text => if j = i then some text else none
  | _ => none

/-- The value that a file gives an entry: that of its line, or else the default. -/
def setting (ms : List Meaning) (i : Fin configEntries.length) : Value F :=
  match ms.findSome? (Meaning.textFor i) with
  | some text => valueAt atof i text
  | none => defaultAt atof i

/-- There is no unknown key, and the keys come in the order of the table. -/
def InOrder (ms : List Meaning) : Prop := .unknown ∉ ms ∧ (indices ms).Pairwise (· ≤ ·)

instance (ms : List Meaning) : Decidable (InOrder ms) := inferInstanceAs (Decidable (_ ∧ _))

/-- Each entry has the value that the file gives it. -/
def AsWritten (g : ConfigT F) (lines : List Line) : Prop :=
  ∃ cfg, configLoad atof (some (text lines)) (configInit atof g) = .ok (1, cfg) ∧
    ∀ i, cfg (place i) = setting atof (lines.map Line.meaning) i

/-- Other orders of the lines, with any lines of unknown keys among them, lead to the same
configuration. -/
def OrderIndependent (g : ConfigT F) (lines : List Line) : Prop :=
  ∀ unknowns lines', (∀ l ∈ unknowns, l.meaning = .unknown) → lines'.Perm (unknowns ++ lines) →
    configLoad atof (some (text lines')) (configInit atof g) =
      configLoad atof (some (text lines)) (configInit atof g)

/-! ## Entries -/

theorem place_injective : ∀ {i j : Fin configEntries.length}, place i = place j → i = j := by
  decide +kernel

theorem configInit_place (g : ConfigT F) (i : Fin configEntries.length) :
    configInit atof g (place i) = defaultAt atof i := by
  fin_cases i <;> rfl

theorem indices_concat (ms : List Meaning) (m : Meaning) :
    indices (ms ++ [m]) = indices ms ++ m.index?.toList := by
  unfold indices
  rw [List.filterMap_append]
  cases h : m.index? <;> simp [h]

theorem mem_indices : i ∈ indices ms ↔ ∃ text, .assign i text ∈ ms := by
  unfold indices
  rw [List.mem_filterMap]
  constructor
  · rintro ⟨m, hm, hi⟩
    cases m with
    | assign j text =>
      obtain rfl : j = i := Option.some.inj hi
      exact ⟨text, hm⟩
    | skip => cases hi
    | unknown => cases hi
  · intro ⟨text, hm⟩
    exact ⟨_, hm, rfl⟩

theorem inOrder_concat : InOrder (ms ++ [m]) ↔
    InOrder ms ∧ m ≠ .unknown ∧ ∀ i, m.index? = some i → ∀ j ∈ indices ms, j ≤ i := by
  unfold InOrder
  rw [indices_concat, List.pairwise_append, List.mem_append, List.mem_singleton]
  constructor
  · rintro ⟨hu, hpre, -, hle⟩
    refine ⟨⟨fun h => hu (.inl h), hpre⟩, fun h => hu (.inr h.symm), fun i hi j hj => ?_⟩
    exact hle j hj i (by rw [hi]; exact List.mem_singleton_self _)
  · rintro ⟨⟨hu, hpre⟩, hm, hle⟩
    refine ⟨fun h => h.elim hu fun h => hm h.symm, hpre, ?_, fun j hj i hi => ?_⟩
    · cases m.index? with
      | none => exact List.Pairwise.nil
      | some i => exact List.pairwise_singleton ..
    · exact hle i (Option.mem_toList.1 hi) j hj

theorem InOrder.left (h : InOrder (pre ++ post)) : InOrder pre := by
  obtain ⟨hunknown, hpairs⟩ := h
  unfold indices at hpairs
  rw [List.filterMap_append] at hpairs
  exact ⟨fun hmem => hunknown (List.mem_append_left _ hmem), (List.pairwise_append.1 hpairs).1⟩

/-! ## What the lines do -/

theorem advance_of_le {s : ℕ × ConfigT F} (h : s.1 ≤ i) (text : List UInt8) :
    advance atof (.assign i text) s = (i.val, Function.update s.2 (place i) (valueAt atof i text)) :=
  if_pos h

theorem advance_of_not_le {s : ℕ × ConfigT F} (h : ¬ s.1 ≤ i) (text : List UInt8) :
    advance atof (.assign i text) s = (configEntries.length, s.2) :=
  if_neg h

theorem advanceAll_concat (ms : List Meaning) (m : Meaning) (s : ℕ × ConfigT F) :
    advanceAll atof (ms ++ [m]) s = advance atof m (advanceAll atof ms s) :=
  List.foldl_concat ..

/-- The index of the table is at or before an entry as long as the lines come in order and none of
them names a later entry. -/
theorem advanceAll_le_iff (ms : List Meaning) (cfg : ConfigT F) (i : Fin configEntries.length) :
    (advanceAll atof ms (0, cfg)).1 ≤ i ↔ InOrder ms ∧ ∀ j ∈ indices ms, j ≤ i := by
  have hlength : ∀ i : Fin configEntries.length, ¬ configEntries.length ≤ i.val :=
    fun i => Nat.not_le.2 i.isLt
  induction ms using List.reverseRecOn generalizing i with
  | nil => exact iff_of_true (Nat.zero_le _) (by decide +revert)
  | append_singleton ms m ih =>
    rw [advanceAll_concat, inOrder_concat, indices_concat]
    cases m with
    | skip => simp [advance, ih, Meaning.index?]
    | unknown => simp [advance, hlength, Meaning.index?]
    | assign j text =>
      have hj := ih j
      by_cases hpos : (advanceAll atof ms (0, cfg)).1 ≤ j
      · obtain ⟨hord, hle⟩ := hj.1 hpos
        rw [advance_of_le atof hpos]
        constructor
        · intro hji
          refine ⟨⟨hord, nofun, fun i' hi' => Option.some.inj hi' ▸ hle⟩, fun k hk => ?_⟩
          rcases List.mem_append.1 hk with hk | hk
          · exact Nat.le_trans (hle k hk) hji
          · rw [List.mem_singleton.1 hk]
            exact hji
        · rintro ⟨-, hall⟩
          exact hall j (List.mem_append_right _ (List.mem_singleton_self _))
      · rw [advance_of_not_le atof hpos]
        refine iff_of_false (hlength i) ?_
        rintro ⟨⟨hord, -, hle⟩, -⟩
        exact hpos (hj.2 ⟨hord, hle j rfl⟩)

/-- A place whose entry no line names is left alone. -/
theorem advanceAll_frame (hi : i ∉ indices ms) (s : ℕ × ConfigT F) :
    (advanceAll atof ms s).2 (place i) = s.2 (place i) := by
  induction ms using List.reverseRecOn with
  | nil => rfl
  | append_singleton ms m ih =>
    rw [indices_concat, List.mem_append, not_or] at hi
    rw [advanceAll_concat, ← ih hi.1]
    cases m with
    | skip => rfl
    | unknown => rfl
    | assign j text =>
      have hne : place i ≠ place j := fun h =>
        hi.2 (Option.mem_toList.2 (congrArg some (place_injective h).symm))
      by_cases hpos : (advanceAll atof ms s).1 ≤ j
      · rw [advance_of_le atof hpos]
        exact Function.update_of_ne hne ..
      · rw [advance_of_not_le atof hpos]

/-- An entry that one line names has the value of that line if the lines up to it come in order. -/
theorem advanceAll_split (hpre : i ∉ indices pre) (hpost : i ∉ indices post) (cfg : ConfigT F) :
    (advanceAll atof (pre ++ .assign i value :: post) (0, cfg)).2 (place i) =
      if InOrder (pre ++ [.assign i value]) then valueAt atof i value else cfg (place i) := by
  have hsplit : advanceAll atof (pre ++ .assign i value :: post) (0, cfg) =
      advanceAll atof post (advance atof (.assign i value) (advanceAll atof pre (0, cfg))) := by
    unfold advanceAll
    rw [List.foldl_append, List.foldl_cons]
  have horder : (advanceAll atof pre (0, cfg)).1 ≤ i ↔ InOrder (pre ++ [.assign i value]) := by
    rw [advanceAll_le_iff, inOrder_concat]
    refine and_congr_right fun _ => ⟨fun hle => ⟨nofun, fun j hj => ?_⟩, fun h => h.2 i rfl⟩
    exact Option.some.inj hj ▸ hle
  rw [hsplit, advanceAll_frame atof hpost]
  split_ifs with hord
  · rw [advance_of_le atof (horder.2 hord)]
    exact Function.update_self ..
  · rw [advance_of_not_le atof (mt horder.1 hord)]
    exact advanceAll_frame atof hpre _

/-- Lines that give every entry its default leave the defaults. -/
theorem advanceAll_default (h : ∀ i text, .assign i text ∈ ms → valueAt atof i text = defaultAt atof i)
    (e : ℕ) : (advanceAll atof ms (e, configInit atof g)).2 = configInit atof g := by
  induction ms using List.reverseRecOn with
  | nil => rfl
  | append_singleton ms m ih =>
    have hms := ih fun i text hmem => h i text (List.mem_append_left _ hmem)
    rw [advanceAll_concat]
    cases m with
    | skip => exact hms
    | unknown => exact hms
    | assign i text =>
      have hvalue := h i text (List.mem_append_right _ (List.mem_singleton_self _))
      by_cases hpos : (advanceAll atof ms (e, configInit atof g)).1 ≤ i
      · rw [advance_of_le atof hpos, hms, hvalue, ← configInit_place atof g]
        exact Function.update_eq_self ..
      · rw [advance_of_not_le atof hpos]
        exact hms

/-! ## What a file gives an entry -/

theorem findSome?_textFor (hi : i ∉ indices ms) : ms.findSome? (Meaning.textFor i) = none := by
  refine List.findSome?_eq_none_iff.2 fun m hm => ?_
  cases m with
  | assign j text =>
    have hne : j ≠ i := fun h => hi (mem_indices.2 ⟨text, h ▸ hm⟩)
    exact if_neg hne
  | skip => rfl
  | unknown => rfl

theorem setting_of_notMem (hi : i ∉ indices ms) : setting atof ms i = defaultAt atof i := by
  unfold setting
  rw [findSome?_textFor hi]

/-- Each key occurs at most once. -/
def KeysOnce (lines : List Line) : Prop := (indices (lines.map Line.meaning)).Nodup

instance (lines : List Line) : Decidable (KeysOnce lines) :=
  inferInstanceAs (Decidable (List.Nodup _))

variable {lines lines' before after : List Line} {l : Line}

theorem KeysOnce.notMem (h : KeysOnce (before ++ l :: after)) (hl : l.meaning = .assign i value) :
    i ∉ indices (before.map Line.meaning) ∧ i ∉ indices (after.map Line.meaning) := by
  have hsplit : indices ((before ++ l :: after).map Line.meaning) =
      indices (before.map Line.meaning) ++ i :: indices (after.map Line.meaning) := by
    unfold indices
    rw [List.map_append, List.map_cons, hl, List.filterMap_append]
    rfl
  unfold KeysOnce at h
  rw [hsplit] at h
  obtain ⟨-, hpost, hdisj⟩ := List.nodup_append.1 h
  exact ⟨fun hi => hdisj i hi i (List.mem_cons_self ..) rfl, (List.nodup_cons.1 hpost).1⟩

theorem setting_of_line (h : KeysOnce (before ++ l :: after)) (hl : l.meaning = .assign i value) :
    setting atof ((before ++ l :: after).map Line.meaning) i = valueAt atof i value := by
  have hsome : Meaning.textFor i (.assign i value) = some value := if_pos rfl
  unfold setting
  rw [List.map_append, List.map_cons, hl, List.findSome?_append,
    findSome?_textFor (h.notMem hl).1, Option.none_or, List.findSome?_cons, hsome]

theorem KeysOnce.perm (h : KeysOnce lines) (hperm : lines.Perm lines') : KeysOnce lines' :=
  ((hperm.map Line.meaning).filterMap Meaning.index?).nodup_iff.1 h

/-- An entry with a line, after the whole file. -/
theorem configLoad_split (h : KeysOnce (before ++ l :: after)) (hl : l.meaning = .assign i value)
    (g : ConfigT F) : ∃ cfg, configLoad atof (some (text (before ++ l :: after)))
      (configInit atof g) = .ok (1, cfg) ∧
      cfg (place i) = if InOrder ((before ++ [l]).map Line.meaning) then valueAt atof i value
        else defaultAt atof i := by
  obtain ⟨hbefore, hafter⟩ := h.notMem hl
  refine ⟨_, configLoad_text atof _ _, ?_⟩
  rw [List.map_append, List.map_cons, hl, advanceAll_split atof hbefore hafter,
    configInit_place, List.map_append, List.map_singleton, hl]

/-- A file is read as written if and only if every line that comes after an unknown key or out of
order gives its entry the default. -/
theorem asWritten_iff (g : ConfigT F) (hkeys : KeysOnce lines) :
    AsWritten atof g lines ↔ ∀ before l after, lines = before ++ l :: after → ∀ i text,
      l.meaning = .assign i text → ¬ InOrder ((before ++ [l]).map Line.meaning) →
      valueAt atof i text = defaultAt atof i := by
  constructor
  · rintro ⟨cfg, hload, hcfg⟩ before l after rfl i text hl hord
    obtain ⟨cfg', hload', hplace⟩ := configLoad_split atof hkeys hl g
    obtain rfl : cfg = cfg' := congrArg Prod.snd (Except.ok.inj (hload.symm.trans hload'))
    rw [if_neg hord] at hplace
    exact (setting_of_line atof hkeys hl).symm.trans ((hcfg i).symm.trans hplace)
  · intro hlost
    refine ⟨_, configLoad_text atof lines _, fun i => ?_⟩
    by_cases hi : i ∈ indices (lines.map Line.meaning)
    · obtain ⟨text, htext⟩ := mem_indices.1 hi
      obtain ⟨l, hmem, hl⟩ := List.mem_map.1 htext
      obtain ⟨before, after, rfl⟩ := List.append_of_mem hmem
      obtain ⟨cfg', hload', hplace⟩ := configLoad_split atof hkeys hl g
      obtain ⟨-, rfl⟩ := Prod.mk.inj (Except.ok.inj ((configLoad_text atof _ _).symm.trans hload'))
      rw [hplace, setting_of_line atof hkeys hl]
      split_ifs with hord
      · rfl
      · exact (hlost before l after rfl i text hl hord).symm
    · rw [advanceAll_frame atof hi, setting_of_notMem atof hi]
      exact configInit_place ..

/-- A file whose lines give the defaults leads to the defaults. -/
theorem configLoad_default (h : ∀ l ∈ lines, ∀ i text, l.meaning = .assign i text →
    valueAt atof i text = defaultAt atof i) :
    configLoad atof (some (text lines)) (configInit atof g) = .ok (1, configInit atof g) := by
  rw [configLoad_text, advanceAll_default]
  intro i text hmem
  obtain ⟨l, hl, hm⟩ := List.mem_map.1 hmem
  exact h l hl i text hm

/-- A line with a key that is not in the table. -/
def unknownLine : Line := ⟨bytes "x", by decide, by decide⟩

theorem meaning_unknownLine : unknownLine.meaning = .unknown := by decide +kernel

/-- The order does not matter if and only if every line gives its entry the default. -/
theorem orderIndependent_iff (g : ConfigT F) (hkeys : KeysOnce lines) :
    OrderIndependent atof g lines ↔ ∀ l ∈ lines, ∀ i text, l.meaning = .assign i text →
      valueAt atof i text = defaultAt atof i := by
  constructor
  · intro hind l hmem i text hl
    obtain ⟨before, after, rfl⟩ := List.append_of_mem hmem
    have hunknown : ∀ l ∈ [unknownLine], l.meaning = .unknown := by
      simpa using meaning_unknownLine
    have hperm : (unknownLine :: before ++ l :: after).Perm
        ([] ++ l :: (unknownLine :: before ++ after)) := List.perm_middle
    have honce : KeysOnce (unknownLine :: before ++ l :: after) := by
      unfold KeysOnce
      rw [List.cons_append, List.map_cons, meaning_unknownLine]
      exact hkeys
    -- behind an unknown key the line is lost, and at the start of the file it is not
    obtain ⟨cfg, hload, hlost⟩ := configLoad_split atof honce hl g
    obtain ⟨cfg', hload', hkept⟩ := configLoad_split atof (honce.perm hperm) hl g
    have hsame := (hind [unknownLine] _ hunknown (List.Perm.refl _)).trans
      (hind [unknownLine] _ hunknown hperm.symm).symm
    obtain ⟨-, rfl⟩ := Prod.mk.inj (Except.ok.inj (hload.symm.trans (hsame.trans hload')))
    have hbehind : ¬ InOrder ((unknownLine :: before ++ [l]).map Line.meaning) := by
      rw [List.cons_append, List.map_cons, meaning_unknownLine]
      exact fun h => h.1 (List.mem_cons_self ..)
    have hfirst : InOrder (([] ++ [l]).map Line.meaning) := by
      rw [List.nil_append, List.map_singleton, hl]
      exact ⟨by simp, List.pairwise_singleton ..⟩
    rw [if_neg hbehind] at hlost
    rw [if_pos hfirst] at hkept
    exact hkept.symm.trans hlost
  · intro hall unknowns lines' hunknown hperm
    rw [configLoad_default atof hall]
    refine configLoad_default atof fun l hl i text hm => ?_
    rcases List.mem_append.1 (hperm.subset hl) with hl | hl
    · exact nomatch hm.symm.trans (hunknown l hl)
    · exact hall l hl i text hm

/-- The lines of a file in which each key occurs at most once: exactly when the entries have the
values written in the file, and exactly when this is so in every order. -/
theorem configLoad_iff (g : ConfigT F) (hkeys : KeysOnce lines) :
    (AsWritten atof g lines ↔ ∀ before l after, lines = before ++ l :: after → ∀ i text,
      l.meaning = .assign i text → ¬ InOrder ((before ++ [l]).map Line.meaning) →
      valueAt atof i text = defaultAt atof i) ∧
    (OrderIndependent atof g lines ↔ ∀ l ∈ lines, ∀ i text, l.meaning = .assign i text →
      valueAt atof i text = defaultAt atof i) :=
  ⟨asWritten_iff atof g hkeys, orderIndependent_iff atof g hkeys⟩

/-- `g_config` before it is filled. -/
def blank : ConfigT (List UInt8) := fun _ => .int 0

/-- `alto_factor` and `update_interval`, in the order of the table. -/
def factorLine : Line := ⟨bytes "alto_factor 0.5", by decide, by decide⟩

def intervalLine : Line := ⟨bytes "update_interval 5", by decide, by decide⟩

/-- Two lines in the order of the table are read as written, and would not be in the other order. -/
theorem configLoad_iff_two : AsWritten id blank [factorLine, intervalLine] ∧
    ¬ OrderIndependent id blank [factorLine, intervalLine] := by
  have hkeys : KeysOnce [factorLine, intervalLine] := by decide +kernel
  have hiff := configLoad_iff id blank hkeys
  have hord : InOrder ([factorLine, intervalLine].map Line.meaning) := by decide +kernel
  constructor
  · refine hiff.1.2 fun before l after h i text hl hnot => absurd ?_ hnot
    rw [h, List.append_cons, List.map_append] at hord
    exact hord.left
  · intro hind
    have hm : intervalLine.meaning = .assign ⟨5, by decide⟩ (bytes "5") := by decide +kernel
    have hmem : intervalLine ∈ [factorLine, intervalLine] := by simp
    exact absurd (hiff.2.1 hind intervalLine hmem _ _ hm) (by decide +kernel)

/-- A line behind an unknown key is lost. -/
theorem not_asWritten_unknown : ¬ AsWritten id blank [unknownLine, intervalLine] := by
  rintro ⟨cfg, hload, hcfg⟩
  obtain ⟨-, rfl⟩ := Prod.mk.inj (Except.ok.inj ((configLoad_text ..).symm.trans hload))
  exact absurd (hcfg ⟨5, by decide⟩) (by decide +kernel)

end PeerStreamer.Config
