import PeerStreamer.CInt
import PeerStreamer.Lib.CString
import Mathlib.Data.Fintype.Basic
import Mathlib.Logic.Function.Basic

/-!
# The configuration file (`config.c`)

A file is read line by line, and each line is compared with the entries of a table.  The index into
the table is set to 0 once, before the first line: the comparison of a line goes on from the entry at
which that of the line before it stopped.  What `atof` makes of a text is an argument.
-/

namespace PeerStreamer.Config

open CString

/-- The `CONFIG_TYPE_` constants. -/
inductive ConfigType where
  | int
  | float
  | string
  deriving DecidableEq, Repr

/-- The places in a `Config_t`. -/
inductive Field where
  | neighborhoodTargetSize
  | altoServer
  | altoFactor
  | altoPriCriterion
  | altoSecCriterion
  | updateInterval
  deriving DecidableEq, Repr

/-- What a place holds. -/
inductive Value (F : Type) where
  | int (x : ℕ)
  | float (x : F)
  | string (s : List UInt8)
  deriving DecidableEq, Repr

/-- `Config_t`: what each place holds. -/
abbrev ConfigT (F : Type) := Field → Value F

/-- `ConfigEntry_t`. -/
structure ConfigEntry where
  entry : Field
  string : List UInt8
  type : ConfigType
  defaultValue : List UInt8
  deriving DecidableEq, Repr

/-- `config_entries`, without the end marker. -/
def configEntries : List ConfigEntry :=
  [⟨.neighborhoodTargetSize, bytes "neighborhood_target_size", .int, bytes "15"⟩,
    ⟨.altoServer, bytes "alto_server", .string, bytes ""⟩,
    ⟨.altoFactor, bytes "alto_factor", .float, bytes "0.8"⟩,
    ⟨.altoPriCriterion, bytes "alto_pri_criterion", .int, bytes "1"⟩,
    ⟨.altoSecCriterion, bytes "alto_sec_criterion", .int, bytes "0"⟩,
    ⟨.updateInterval, bytes "update_interval", .int, bytes "60"⟩]

variable {F : Type} (atof : List UInt8 → F)

/-- What a text stands for at a place of this type.  The integers are `unsigned int`. -/
def ConfigType.value (type : ConfigType) (text : List UInt8) : Value F :=
  match type with
  | .int => .int (uint32 (atoi text))
  | .float => .float (atof text)
  | .string => .string text

/-- `config_parse_entry`: the configuration, if the line has the key of the entry. -/
def configParseEntry (entry : ConfigEntry) (src : List UInt8) (cfg : ConfigT F) :
    Option (ConfigT F) :=
  let len := entry.string.length
  if src.take len = entry.string ∧ (src[len]?).any isspace then
    let value := (src.drop (len + 1)).dropWhile isspace
    some (Function.update cfg entry.entry (entry.type.value atof value))
  else none

/-- `config_init_entry`. -/
def configInitEntry (entry : ConfigEntry) (cfg : ConfigT F) : ConfigT F :=
  Function.update cfg entry.entry (entry.type.value atof entry.defaultValue)

/-- `config_init`. -/
def configInit (cfg : ConfigT F) : ConfigT F :=
  configEntries.foldl (fun cfg entry => configInitEntry atof entry cfg) cfg

/-- The inner loop of `config_load`, from the entry at which it finds the index. -/
def scan (p : List UInt8) : List ConfigEntry → ConfigT F → List ConfigEntry × ConfigT F
  | [], cfg => ([], cfg)
  | entry :: entries, cfg =>
    match configParseEntry atof entry p cfg with
    | some cfg => (entry :: entries, cfg)
    | none => scan p entries cfg

/-- The body of the outer loop, for the contents of the buffer. -/
def loadLine (line : List UInt8) (s : List ConfigEntry × ConfigT F) :
    List ConfigEntry × ConfigT F :=
  let p := (ofBuffer line).dropWhile isspace
  if p.head? = some 35 ∨ p.head? = some 10 ∨ p = [] then s
  else
    let p := if p.getLast? = some 10 then p.dropLast else p
    scan atof p s.1 s.2

def loadLoop : ℕ → List UInt8 → List ConfigEntry × ConfigT F → Except Fault (ConfigT F)
  | 0, _, _ => .error .outOfFuel
  | fuel + 1, file, s =>
    match fgets 512 file with
    | none => .ok s.2
    | some (line, file) => loadLoop fuel file (loadLine atof line s)

/-- `config_load`: the returned value and the configuration; there is no file if it does not open. -/
def configLoad (file : Option (List UInt8)) (cfg : ConfigT F) :
    Except Fault (Int × ConfigT F) :=
  match file with
  | none => .ok (0, cfg)
  | some file => do
    let cfg ← loadLoop atof (file.length + 1) file (configEntries, cfg)
    return (1, cfg)

/-! ## Lines -/

/-- The place of an entry. -/
def place (i : Fin configEntries.length) : Field := configEntries[i].entry

/-- What a text stands for at an entry. -/
def valueAt (i : Fin configEntries.length) (text : List UInt8) : Value F :=
  configEntries[i].type.value atof text

def defaultAt (i : Fin configEntries.length) : Value F :=
  valueAt atof i configEntries[i].defaultValue

/-- A line that fits in the buffer, without the newline at its end. -/
structure Line where
  bytes : List UInt8
  no_newline : 10 ∉ bytes
  short : bytes.length < 511

/-- The file with these lines. -/
def text (lines : List Line) : List UInt8 := [10].intercalate (lines.map Line.bytes)

/-- What a line says: nothing, a key that is not in the table, or a value for an entry. -/
inductive Meaning where
  | skip
  | unknown
  | assign (i : Fin configEntries.length) (value : List UInt8)
  deriving DecidableEq, Repr

/-- A line that is not blank and not a comment begins with its key. -/
def Line.meaning (l : Line) : Meaning :=
  let p := (ofBuffer l.bytes).dropWhile isspace
  if p = [] ∨ p.head? = some 35 then .skip
  else
    match keyword p with
    | none => .unknown
    | some (key, value) =>
      match (List.finRange configEntries.length).find? (configEntries[·].string = key) with
      | none => .unknown
      | some i => .assign i value

variable {p key value line : List UInt8} {entries : List ConfigEntry} {cfg : ConfigT F}
  {s : List ConfigEntry × ConfigT F}

/-! ## One line -/

theorem isspace_string : ∀ entry ∈ configEntries, ∀ c ∈ entry.string, isspace c = false := by
  decide +kernel

theorem string_injective : ∀ i j : Fin configEntries.length,
    configEntries[i].string = configEntries[j].string → i = j := by
  decide +kernel

theorem configParseEntry_of_keyword {entry : ConfigEntry} (hmem : entry ∈ configEntries)
    (hkey : keyword p = some (entry.string, value)) (cfg : ConfigT F) :
    configParseEntry atof entry p cfg =
      some (Function.update cfg entry.entry (entry.type.value atof value)) := by
  obtain ⟨hmatch, rfl⟩ := (keyword_eq_some_iff (isspace_string entry hmem)).1 hkey
  exact if_pos hmatch

theorem configParseEntry_of_ne {entry : ConfigEntry} (hmem : entry ∈ configEntries)
    (hne : ∀ value, keyword p ≠ some (entry.string, value)) (cfg : ConfigT F) :
    configParseEntry atof entry p cfg = none := by
  refine if_neg fun hmatch => ?_
  exact hne _ ((keyword_eq_some_iff (isspace_string entry hmem)).2 ⟨hmatch, rfl⟩)

theorem scan_of_ne (hmem : ∀ entry ∈ entries, entry ∈ configEntries)
    (hne : ∀ entry ∈ entries, ∀ value, keyword p ≠ some (entry.string, value)) (cfg : ConfigT F) :
    scan atof p entries cfg = ([], cfg) := by
  induction entries with
  | nil => rfl
  | cons entry entries ih =>
    have hnone := configParseEntry_of_ne atof (hmem entry (List.mem_cons_self ..))
      (hne entry (List.mem_cons_self ..)) cfg
    unfold scan
    rw [hnone]
    exact ih (fun e he => hmem e (List.mem_cons_of_mem _ he))
      (fun e he => hne e (List.mem_cons_of_mem _ he))

/-- A key is found from its entry or an earlier one. -/
theorem scan_of_le {i : Fin configEntries.length}
    (hkey : keyword p = some (configEntries[i].string, value)) {e : ℕ} (he : e ≤ i)
    (cfg : ConfigT F) :
    scan atof p (configEntries.drop e) cfg = (configEntries.drop i,
      Function.update cfg configEntries[i].entry (configEntries[i].type.value atof value)) := by
  obtain ⟨d, hd⟩ := Nat.exists_eq_add_of_le he
  induction d generalizing e with
  | zero =>
    obtain rfl : i.val = e := hd
    have hparse := configParseEntry_of_keyword atof (List.getElem_mem i.isLt) hkey cfg
    rw [List.drop_eq_getElem_cons i.isLt]
    unfold scan
    rw [hparse]
    rfl
  | succ d ih =>
    have hlt : e < configEntries.length := by have := i.isLt; omega
    have hne : ∀ v, keyword p ≠ some (configEntries[e].string, v) := by
      intro v h
      obtain ⟨hstring, -⟩ := Prod.mk.inj (Option.some.inj (hkey.symm.trans h))
      have hi : i.val = e := congrArg Fin.val (string_injective i ⟨e, hlt⟩ hstring)
      omega
    rw [List.drop_eq_getElem_cons hlt]
    unfold scan
    rw [configParseEntry_of_ne atof (List.getElem_mem _) hne]
    exact ih (by omega) (by omega)

/-- A key is not found from an entry behind its own. -/
theorem scan_of_lt {i : Fin configEntries.length}
    (hkey : keyword p = some (configEntries[i].string, value)) {e : ℕ} (he : i.val < e)
    (cfg : ConfigT F) : scan atof p (configEntries.drop e) cfg = ([], cfg) := by
  refine scan_of_ne atof (fun entry h => List.mem_of_mem_drop h) ?_ cfg
  intro entry hentry v h
  obtain ⟨j, hj, rfl⟩ := List.getElem_of_mem hentry
  rw [List.length_drop] at hj
  rw [List.getElem_drop] at h
  obtain ⟨hstring, -⟩ := Prod.mk.inj (Option.some.inj (hkey.symm.trans h))
  have hi : i.val = e + j := congrArg Fin.val (string_injective i ⟨e + j, by omega⟩ hstring)
  omega

/-- What a line does, for the index at which it finds the table. -/
def advance (m : Meaning) (s : ℕ × ConfigT F) : ℕ × ConfigT F :=
  match m with
  | .skip => s
  | .unknown => (configEntries.length, s.2)
  | .assign i value =>
    if s.1 ≤ i then
      (i, Function.update s.2 configEntries[i].entry (configEntries[i].type.value atof value))
    else (configEntries.length, s.2)

theorem loadLine_eq (hline : 10 ∉ line) (hp : (ofBuffer line).dropWhile isspace = p) :
    loadLine atof line s = if p = [] ∨ p.head? = some 35 then s else scan atof p s.1 s.2 := by
  have hnewline : 10 ∉ p := fun h =>
    hline ((List.takeWhile_sublist _).subset ((List.dropWhile_sublist _).subset (hp ▸ h)))
  have hhead : p.head? ≠ some 10 := fun h => hnewline (List.mem_of_head? h)
  have hlast : p.getLast? ≠ some 10 := fun h => hnewline (List.mem_of_getLast? h)
  unfold loadLine
  simp only [hp, hhead, hlast, false_or, if_false]
  simp only [or_comm]

/-- The newline at the end of the buffer is white space or the last byte of what the line says. -/
theorem dropWhile_newline (hp : (ofBuffer line).dropWhile isspace = p) :
    (ofBuffer (line ++ [10])).dropWhile isspace = p ∨
      p ≠ [] ∧ (ofBuffer (line ++ [10])).dropWhile isspace = p ++ [10] := by
  unfold ofBuffer at hp ⊢
  rw [List.takeWhile_append]
  split_ifs with hfull
  · rw [List.Sublist.eq_of_length (List.takeWhile_sublist _) hfull] at hp
    have hlast : [(10 : UInt8)].takeWhile (· ≠ 0) = [10] := by decide
    rw [hlast, List.dropWhile_append, hp]
    split_ifs with hblank
    · rw [List.isEmpty_iff.1 hblank]
      exact .inl (by decide)
    · exact .inr ⟨fun h => hblank (List.isEmpty_iff.2 h), rfl⟩
  · exact .inl hp

theorem loadLine_newline (hline : 10 ∉ line) :
    loadLine atof (line ++ [10]) s = loadLine atof line s := by
  rcases dropWhile_newline rfl with h | ⟨hne, h⟩
  · unfold loadLine
    rw [h]
  · rw [loadLine_eq atof hline rfl, if_congr (or_iff_right hne) rfl rfl]
    have hhead : ((ofBuffer line).dropWhile isspace).head? ≠ some 10 := fun h =>
      hline ((List.takeWhile_sublist _).subset
        ((List.dropWhile_sublist _).subset (List.mem_of_head? h)))
    have hfirst : ((ofBuffer line).dropWhile isspace ++ [10]).head? =
        ((ofBuffer line).dropWhile isspace).head? := List.head?_append_of_ne_nil _ hne
    unfold loadLine
    simp [h, hfirst, hhead]

/-- A line is blank or a comment, or it has a key that is not in the table, or one that is. -/
theorem Line.meaning_cases (l : Line) (hp : (ofBuffer l.bytes).dropWhile isspace = p) :
    (l.meaning = .skip ∧ (p = [] ∨ p.head? = some 35)) ∨
      (l.meaning = .unknown ∧ ¬ (p = [] ∨ p.head? = some 35) ∧
        ∀ entry ∈ configEntries, ∀ value, keyword p ≠ some (entry.string, value)) ∨
      ∃ i value, l.meaning = .assign i value ∧ ¬ (p = [] ∨ p.head? = some 35) ∧
        keyword p = some (configEntries[i].string, value) := by
  unfold Line.meaning
  rw [hp]
  by_cases hskip : p = [] ∨ p.head? = some 35
  · exact .inl ⟨if_pos hskip, hskip⟩
  · refine .inr ?_
    rw [if_neg hskip]
    rcases hkey : keyword p with _ | ⟨key, value⟩
    · exact .inl ⟨rfl, hskip, fun _ _ _ => nofun⟩
    · rcases hfind : (List.finRange configEntries.length).find?
          (configEntries[·].string = key) with _ | i
      · refine .inl ⟨by simp only [hfind], hskip, fun entry hentry v h => ?_⟩
        obtain ⟨j, hj, rfl⟩ := List.getElem_of_mem hentry
        obtain ⟨hstring, -⟩ := Prod.mk.inj (Option.some.inj h)
        have hnone := List.find?_eq_none.1 hfind ⟨j, hj⟩ (List.mem_finRange _)
        exact hnone (decide_eq_true hstring.symm)
      · have hstring : configEntries[i].string = key := by
          simpa using List.find?_some hfind
        exact .inr ⟨i, value, by simp only [hfind], hskip, by rw [hstring]⟩

/-- The meaning of a line determines what it does. -/
theorem loadLine_advance (l : Line) (s : ℕ × ConfigT F) :
    loadLine atof l.bytes (configEntries.drop s.1, s.2) =
      (configEntries.drop (advance atof l.meaning s).1, (advance atof l.meaning s).2) := by
  rw [loadLine_eq atof l.no_newline rfl]
  rcases l.meaning_cases rfl with ⟨hm, hskip⟩ | ⟨hm, hskip, hne⟩ | ⟨i, value, hm, hskip, hkey⟩
  · rw [if_pos hskip, hm]
    rfl
  · have hscan := scan_of_ne atof (fun _ => List.mem_of_mem_drop)
      (fun entry h => hne entry (List.mem_of_mem_drop (i := s.1) h)) s.2
    rw [if_neg hskip, hm, hscan]
    rfl
  · rw [if_neg hskip, hm]
    unfold advance
    by_cases he : s.1 ≤ i
    · simp only [if_pos he, scan_of_le atof hkey he]
    · simp only [if_neg he, scan_of_lt atof hkey (Nat.lt_of_not_le he), List.drop_length]

/-! ## The whole file -/

/-- What the lines do one after the other. -/
def advanceAll (ms : List Meaning) (s : ℕ × ConfigT F) : ℕ × ConfigT F :=
  ms.foldl (fun s m => advance atof m s) s

theorem text_cons_cons (l l' : Line) (lines : List Line) :
    text (l :: l' :: lines) = l.bytes ++ 10 :: text (l' :: lines) := by
  unfold text
  rw [List.map_cons, List.map_cons, List.intercalate_cons_cons, List.append_assoc]
  rfl

theorem loadLoop_text (lines : List Line) {fuel : ℕ} (hfuel : (text lines).length < fuel)
    (s : ℕ × ConfigT F) :
    loadLoop atof fuel (text lines) (configEntries.drop s.1, s.2) =
      .ok (advanceAll atof (lines.map Line.meaning) s).2 := by
  induction lines generalizing fuel s with
  | nil =>
    obtain ⟨fuel, rfl⟩ := Nat.exists_eq_add_of_lt hfuel
    rfl
  | cons l lines ih =>
    obtain ⟨fuel, rfl⟩ := Nat.exists_eq_add_of_lt hfuel
    cases lines with
    | nil =>
      have htext : text [l] = l.bytes := List.intercalate_singleton
      rw [htext]
      by_cases hempty : l.bytes = []
      · have hm : l.meaning = .skip := by
          unfold Line.meaning
          rw [hempty]
          rfl
        rw [hempty, List.map_singleton, hm]
        rfl
      · unfold loadLoop
        rw [fgets_last l.no_newline hempty (Nat.lt_succ_of_lt l.short)]
        dsimp only
        rw [loadLine_advance]
        exact ih (Nat.add_pos_left (List.length_pos_iff.2 hempty) fuel) _
    | cons l' lines =>
      rw [text_cons_cons] at hfuel ⊢
      unfold loadLoop
      rw [fgets_line l.no_newline (Nat.succ_lt_succ l.short)]
      dsimp only
      rw [loadLine_newline atof l.no_newline, loadLine_advance]
      refine ih ?_ _
      rw [List.length_append, List.length_cons]
      omega

theorem configLoad_text (lines : List Line) (cfg : ConfigT F) :
    configLoad atof (some (text lines)) cfg =
      .ok (1, (advanceAll atof (lines.map Line.meaning) (0, cfg)).2) := by
  have hloop := loadLoop_text atof lines (Nat.lt_succ_self _) (0, cfg)
  unfold configLoad
  dsimp only
  rw [List.drop_zero] at hloop
  rw [hloop]
  rfl

end PeerStreamer.Config
