import CodeGraph.Proofs.Toml.Document
import CodeGraph.Settings.Files

/-!
# Settings read back

The document of settings spells one statement for every part that is set, and these statements make the tables that
the settings are read from. So settings survive being saved to a file, whatever was in it. They are not saved where
the file is there and may not be written over, or where a limit takes more than sixty-three bits; then the file stays
as it was. Main statement: `load_save`.
-/

namespace CodeGraph.Settings

open Toml (IsBare Spells SpellsValue Statement Value)

variable {rest : List Char} {ss : List Statement}

/-! ### Lines of the document -/

theorem spells_header {key : String} (hkey : IsBare key) (h : Spells rest ss) :
    Spells (header key ++ rest) (.header [key] false :: ss) := by
  simpa [header] using Spells.line (Toml.spellsLine_header hkey) h

theorem spells_line {key : String} {value : List Char} {v : Value} (hkey : IsBare key)
    (hvalue : SpellsValue value v) (h : Spells rest ss) :
    Spells (line key value ++ rest) (.entry [key] v :: ss) := by
  simpa [line] using Spells.line (Toml.spellsLine_entry hkey hvalue) h

theorem spells_numberLine {key : String} {n : Nat} (hkey : IsBare key) (hn : n < 2 ^ 63)
    (h : Spells rest ss) : Spells (numberLine key n ++ rest) (.entry [key] (.integer n) :: ss) :=
  spells_line hkey (Toml.spellsValue_toDigits hn) h

/-- The statement of a text that may be missing. -/
def textStatement (key : String) : Option String → List Statement
  | none => []
  | some s => [.entry [key] (.string s)]

theorem spells_textLine {key : String} (hkey : IsBare key) (text : Option String) (h : Spells rest ss) :
    Spells (textLine key text ++ rest) (textStatement key text ++ ss) := by
  cases text with
  | none => exact h
  | some s => exact spells_line hkey (Toml.spellsValue_quote s) h

/-- The statements of settings: the texts that are set, the limits and the server. -/
def statements (s : Settings) : List Statement :=
  textStatement "cache" s.cache ++ (textStatement "default_language" s.defaultLanguage ++
    [.header ["limits"] false, .entry ["max_source_bytes"] (.integer s.limits.maxSourceBytes),
      .entry ["max_tree_depth"] (.integer s.limits.maxTreeDepth), .header ["server"] false,
      .entry ["port"] (.integer s.server.port.toNat)])

theorem isWritable_iff (s : Settings) :
    s.isWritable = true ↔ s.limits.maxSourceBytes < 2 ^ 63 ∧ s.limits.maxTreeDepth < 2 ^ 63 := by
  rw [isWritable, Bool.and_eq_true, decide_eq_true_eq, decide_eq_true_eq]
  exact Iff.rfl

theorem eq_none_of_textLine {key : String} {text : Option String} (h : textLine key text = []) :
    text = none := by
  cases text with
  | none => rfl
  | some s => simp [textLine, line] at h

theorem spells_texts (s : Settings) (h : Spells rest ss) :
    Spells (s.texts ++ rest)
      (textStatement "cache" s.cache ++ (textStatement "default_language" s.defaultLanguage ++ ss)) := by
  have hcache : IsBare "cache" := by decide
  have hlanguage : IsBare "default_language" := by decide
  unfold texts
  dsimp only
  split
  · next hempty =>
    obtain ⟨hfirst, hsecond⟩ := List.append_eq_nil_iff.mp (List.isEmpty_iff.mp hempty)
    rw [eq_none_of_textLine hfirst, eq_none_of_textLine hsecond]
    exact h
  · rw [List.append_assoc, List.append_assoc]
    exact spells_textLine hcache s.cache (spells_textLine hlanguage s.defaultLanguage (.blank h))

/-- The document of settings spells their statements. -/
theorem spells_toTomlChars {s : Settings} (h : s.isWritable = true) : Spells s.toTomlChars s.statements := by
  obtain ⟨hbytes, hdepth⟩ := s.isWritable_iff.mp h
  have hport : s.server.port.toNat < 2 ^ 63 := Nat.lt_trans s.server.port.toNat_lt (by decide)
  have hserver : Spells (header "server" ++ (numberLine "port" s.server.port.toNat ++ []))
      [.header ["server"] false, .entry ["port"] (.integer s.server.port.toNat)] :=
    spells_header (by decide) (spells_numberLine (by decide) hport .nil)
  have hlimits := spells_numberLine (by decide : IsBare "max_source_bytes") hbytes
    (spells_numberLine (by decide : IsBare "max_tree_depth") hdepth (.blank hserver))
  have htexts := s.spells_texts (spells_header (by decide : IsBare "limits") hlimits)
  simpa [toTomlChars, statements] using htexts

/-! ### The settings of the document -/

theorem naturalOf?_integer {bound n : Nat} (h : n < bound) : naturalOf? bound (.integer n) = some n := by
  rw [naturalOf?, if_pos ⟨Int.natCast_nonneg n, Int.ofNat_lt.mpr h⟩, Int.toNat_natCast]

theorem part?_some {α : Type} (default : α) (read : Value → Option α) (v : Value) :
    part? default read (some v) = read v := rfl

/-- The table of limits. -/
def limitsTable (l : Limits) : Value :=
  .table .headed [("max_source_bytes", .integer l.maxSourceBytes), ("max_tree_depth", .integer l.maxTreeDepth)]

/-- The table of the settings of the server. -/
def serverTable (s : ServerSettings) : Value := .table .headed [("port", .integer s.port.toNat)]

/-- The entries of the document of settings. -/
def entries (s : Settings) : Toml.Entries :=
  (s.cache.map fun text => ("cache", Value.string text)).toList ++
    ((s.defaultLanguage.map fun text => ("default_language", Value.string text)).toList ++
      [("limits", limitsTable s.limits), ("server", serverTable s.server)])

theorem entriesOf?_statements (s : Settings) : Toml.entriesOf? s.statements = some s.entries := by
  obtain ⟨cache, language, limits, server⟩ := s
  cases cache <;> cases language <;> rfl

theorem limitsOf?_limitsTable {l : Limits} (hbytes : l.maxSourceBytes < UInt64.size)
    (hdepth : l.maxTreeDepth < UInt64.size) : limitsOf? (limitsTable l) = some l := by
  have hparts : parts? ["max_source_bytes", "max_tree_depth"] (limitsTable l) =
      some [some (.integer l.maxSourceBytes), some (.integer l.maxTreeDepth)] := rfl
  rw [limitsOf?, hparts]
  dsimp only
  rw [part?_some, part?_some, naturalOf?_integer hbytes, naturalOf?_integer hdepth]
  rfl

theorem serverOf?_serverTable (s : ServerSettings) : serverOf? (serverTable s) = some s := by
  have hparts : parts? ["port"] (serverTable s) = some [some (.integer s.port.toNat)] := rfl
  have hport : s.port.toNat < UInt16.size := s.port.toNat_lt
  rw [serverOf?, hparts]
  dsimp only
  rw [part?_some, naturalOf?_integer hport, Option.map_some, Option.map_some, UInt16.ofNat_toNat]

theorem ofEntries?_entries {s : Settings} (hbytes : s.limits.maxSourceBytes < UInt64.size)
    (hdepth : s.limits.maxTreeDepth < UInt64.size) : ofEntries? s.entries = some s := by
  have hlimits := limitsOf?_limitsTable hbytes hdepth
  have hserver := serverOf?_serverTable s.server
  obtain ⟨cache, language, limits, server⟩ := s
  cases cache <;> cases language <;>
    simp [ofEntries?, entries, entry?, Toml.lookup?, textOf?, hlimits, hserver]

theorem ofToml?_toTomlChars {s : Settings} (h : s.isWritable = true) :
    ofToml? (String.ofList s.toTomlChars) = some s := by
  obtain ⟨hbytes, hdepth⟩ := s.isWritable_iff.mp h
  rw [ofToml?, (spells_toTomlChars h).read?, entriesOf?_statements, Option.bind_some]
  exact ofEntries?_entries (Nat.lt_trans hbytes (by decide)) (Nat.lt_trans hdepth (by decide))

variable {file : Option ByteArray} {force : Bool}

/-- What writing comes to where the file is the state. -/
theorem save_eq (file : Option ByteArray) (path : String) (s : Settings) (force : Bool) :
    save file path s force =
      if file.isSome && !force then (.error (.alreadyThere path), file)
      else
        match s.toToml? with
        | none => (.error .limitTooLarge, file)
        | some text => (.ok (), some text.toUTF8) := by
  unfold save write
  cases file <;> cases force <;> cases s.toToml? <;> rfl

theorem save_of_locked (path : String) (s : Settings) (h : file.isSome = true ∧ force = false) :
    save file path s force = (.error (.alreadyThere path), file) := by
  rw [save_eq, h.1, h.2]
  rfl

theorem save_of_not_isWritable (path : String) {s : Settings} (h : ¬(file.isSome = true ∧ force = false))
    (hs : s.isWritable = false) : save file path s force = (.error .limitTooLarge, file) := by
  have hopen : (file.isSome && !force) = false := by simpa using h
  rw [save_eq, hopen, toToml?, hs]
  rfl

theorem save_of_isWritable (path : String) {s : Settings} (h : ¬(file.isSome = true ∧ force = false))
    (hs : s.isWritable = true) :
    save file path s force = (.ok (), some (String.ofList s.toTomlChars).toUTF8) := by
  have hopen : (file.isSome && !force) = false := by simpa using h
  rw [save_eq, hopen, toToml?, hs]
  rfl

theorem fromUTF8?_toUTF8 (text : String) : String.fromUTF8? text.toUTF8 = some text := by
  have hvalid : text.toUTF8.IsValidUTF8 := text.isValidUTF8
  unfold String.fromUTF8?
  rw [dif_pos hvalid]
  rfl

/-- **Settings survive being saved, and a file that is not written stays as it was.** Saving fails exactly where
the file is there and may not be written over, or a limit takes more than sixty-three bits. Where it does not, the
bytes of the file are a text that is loaded as the same settings. -/
theorem load_save (file : Option ByteArray) (path : String) (s : Settings) (force : Bool) :
    ((∃ fault, (save file path s force).1 = .error fault) ↔
      file.isSome = true ∧ force = false ∨
        2 ^ 63 ≤ s.limits.maxSourceBytes ∨ 2 ^ 63 ≤ s.limits.maxTreeDepth) ∧
    (∀ fault, (save file path s force).1 = .error fault →
      (save file path s force).2 = file ∧
        fault = if file.isSome && !force then .alreadyThere path else .limitTooLarge) ∧
    ((save file path s force).1 = .ok () →
      ∃ bytes text, (save file path s force).2 = some bytes ∧ String.fromUTF8? bytes = some text ∧
        load (some text) = .ok (some s)) := by
  have hlimits : s.isWritable = false ↔
      2 ^ 63 ≤ s.limits.maxSourceBytes ∨ 2 ^ 63 ≤ s.limits.maxTreeDepth := by
    rw [← Bool.not_eq_true, isWritable_iff]
    omega
  rw [← hlimits]
  by_cases hlocked : file.isSome = true ∧ force = false
  · rw [save_of_locked path s hlocked]
    refine ⟨⟨fun _ => .inl hlocked, fun _ => ⟨_, rfl⟩⟩, ?_, fun h => nomatch h⟩
    intro fault hfault
    obtain rfl := Except.error.inj hfault
    rw [hlocked.1, hlocked.2]
    exact ⟨rfl, rfl⟩
  cases hs : s.isWritable with
  | false =>
    have hopen : (file.isSome && !force) = false := by simpa using hlocked
    rw [save_of_not_isWritable path hlocked hs, hopen]
    refine ⟨⟨fun _ => .inr rfl, fun _ => ⟨_, rfl⟩⟩, ?_, fun h => nomatch h⟩
    intro fault hfault
    exact ⟨rfl, (Except.error.inj hfault).symm⟩
  | true =>
    rw [save_of_isWritable path hlocked hs]
    refine ⟨⟨?_, ?_⟩, ?_, fun _ => ⟨_, _, rfl, fromUTF8?_toUTF8 _, ?_⟩⟩
    · rintro ⟨fault, hfault⟩
      cases hfault
    · rintro (h | h)
      · exact absurd h hlocked
      · cases h
    · intro fault hfault
      cases hfault
    · rw [load, ofToml?_toTomlChars hs]

example : (save (some "old".toUTF8) "asgraph.toml" { cache := some "it's" } true).2.bind String.fromUTF8? =
    some ("cache = \"it's\"\n\n[limits]\nmax_source_bytes = 10485760\nmax_tree_depth = 1024\n\n" ++
      "[server]\nport = 3000\n") := by
  decide

end CodeGraph.Settings
