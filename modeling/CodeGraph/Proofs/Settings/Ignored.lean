import CodeGraph.Settings.Files
import Mathlib.Data.List.Forall2
import Mathlib.Logic.Function.Iterate

/-!
# The entry that has the stored results ignored

The lines of a text end at its newlines, where a carriage return right before a newline belongs to the end and not to
the line, and what follows the last newline is a line only where it is not empty. The entry is looked for between
newlines, which comes to the same: white space around a line does not count. Where it is missing it becomes a last line
of its own, and no other line changes but by a carriage return at its end. Main statement: `ensureIgnored_adds_once`.
-/

namespace CodeGraph

namespace Text

/-- The lines of some characters. -/
def lineChars : List Char → List (List Char)
  | [] => []
  | c :: cs =>
    if c = '\n' then [] :: lineChars cs
    else if c = '\r' ∧ cs.head? = some '\n' then lineChars cs
    else
      match lineChars cs with
      | [] => [[c]]
      | line :: rest => (c :: line) :: rest

/-- The lines of a text. -/
def lines (text : String) : List String := (lineChars text.toList).map String.ofList

/-- Two lines are the same, or the first has a carriage return behind it. -/
def SameLine (a b : List Char) : Prop := a = b ∨ a = b ++ ['\r']

variable {cs rest : List Char} {c : Char} {a b : List Char}

theorem SameLine.cons (h : SameLine a b) (c : Char) : SameLine (c :: a) (c :: b) := by
  rcases h with rfl | rfl
  · exact Or.inl rfl
  · exact Or.inr rfl

theorem stripChars_concat {p : Char → Bool} (hc : p c = true) (cs : List Char) :
    stripChars p (cs ++ [c]) = stripChars p cs := by
  unfold stripChars
  rw [List.dropWhile_append]
  by_cases hempty : (cs.dropWhile p).isEmpty = true
  · rw [if_pos hempty, List.isEmpty_iff.mp hempty]
    simp [hc]
  · rw [if_neg hempty]
    simp [hc]

/-- White space around a line apart, lines that are the same have the same text. -/
theorem SameLine.trim_eq (h : SameLine a b) : trim (String.ofList a) = trim (String.ofList b) := by
  rcases h with rfl | rfl
  · rfl
  · simp only [trim, stripEnds, String.toList_ofList]
    rw [stripChars_concat (by decide)]

theorem map_trim_eq {as bs : List (List Char)} (h : List.Forall₂ SameLine as bs) :
    as.map (trim ∘ String.ofList) = bs.map (trim ∘ String.ofList) := by
  induction h with
  | nil => rfl
  | cons hline _ ih =>
    rw [List.map_cons, List.map_cons, ih, Function.comp_apply, Function.comp_apply, hline.trim_eq]

/-! ### Lines and newlines -/

theorem lineChars_cons (c : Char) (cs : List Char) :
    lineChars (c :: cs) =
      if c = '\n' then [] :: lineChars cs
      else if c = '\r' ∧ cs.head? = some '\n' then lineChars cs
      else
        match lineChars cs with
        | [] => [[c]]
        | line :: rest => (c :: line) :: rest := rfl

theorem lineChars_ne_nil (h : cs ≠ []) : lineChars cs ≠ [] := by
  induction cs with
  | nil => exact absurd rfl h
  | cons c cs ih =>
    rw [lineChars]
    split
    · exact List.cons_ne_nil _ _
    split
    · next hreturn =>
      refine ih ?_
      rintro rfl
      cases hreturn.2
    · split <;> exact List.cons_ne_nil _ _

/-- Between its newlines a text has its lines, and one empty piece more where it ends in a newline or is empty. -/
theorem exists_splitOn_eq (cs : List Char) :
    ∃ pieces after, splitOn '\n' cs = pieces ++ after ∧ (after = [] ∨ after = [[]]) ∧
      List.Forall₂ SameLine pieces (lineChars cs) := by
  induction cs with
  | nil => exact ⟨[], [[]], rfl, Or.inr rfl, .nil⟩
  | cons c cs ih =>
    obtain ⟨pieces, after, hsplit, hafter, hsame⟩ := ih
    by_cases hnewline : c = '\n'
    · refine ⟨[] :: pieces, after, ?_, hafter, ?_⟩
      · rw [splitOn, if_pos hnewline, hsplit, List.cons_append]
      · rw [lineChars, if_pos hnewline]
        exact .cons (Or.inl rfl) hsame
    by_cases hreturn : c = '\r' ∧ cs.head? = some '\n'
    · obtain ⟨rfl, hhead⟩ := hreturn
      obtain ⟨cs, rfl⟩ : ∃ tail, cs = '\n' :: tail := by
        cases cs with
        | nil => cases hhead
        | cons d tail => exact ⟨tail, by rw [Option.some.inj hhead]⟩
      -- the pieces start with the empty one before the newline, and the carriage return joins it
      have hline : lineChars ('\n' :: cs) = [] :: lineChars cs := rfl
      have hpiece : splitOn '\n' ('\n' :: cs) = [] :: splitOn '\n' cs := rfl
      rw [hline] at hsame
      cases hsame with
      | @cons piece _ pieces _ hfirst hothers =>
        rw [hpiece, List.cons_append] at hsplit
        obtain ⟨rfl, hsplit⟩ := List.cons_eq_cons.mp hsplit
        refine ⟨['\r'] :: pieces, after, ?_, hafter, ?_⟩
        · rw [splitOn, if_neg hnewline, hpiece, hsplit]
          rfl
        · rw [lineChars, if_neg hnewline, if_pos ⟨rfl, rfl⟩, hline]
          exact .cons (Or.inr rfl) hothers
    · rw [lineChars, if_neg hnewline, if_neg hreturn, splitOn, if_neg hnewline, hsplit]
      generalize lineChars cs = ls at hsame ⊢
      cases hsame with
      | nil =>
        refine ⟨[[c]], [], ?_, Or.inl rfl, .cons (Or.inl rfl) .nil⟩
        rcases hafter with rfl | rfl <;> rfl
      | @cons piece line pieces ls hfirst hothers =>
        exact ⟨(c :: piece) :: pieces, after, rfl, hafter, .cons (hfirst.cons c) hothers⟩

end Text

/-- The entry is looked for among the lines of a text. -/
theorem hasIgnoredEntry_iff (text : String) :
    hasIgnoredEntry text = true ↔ ∃ line ∈ Text.lines text, Text.trim line = ignoredEntry := by
  obtain ⟨pieces, after, hsplit, hafter, hsame⟩ := Text.exists_splitOn_eq text.toList
  have hlines : (∃ line ∈ Text.lines text, Text.trim line = ignoredEntry) ↔
      ignoredEntry ∈ pieces.map (Text.trim ∘ String.ofList) := by
    rw [Text.map_trim_eq hsame, Text.lines]
    simp
  have hempty : ∀ piece ∈ after, Text.trim (String.ofList piece) ≠ ignoredEntry := by
    intro piece hpiece
    rcases hafter with rfl | rfl
    · exact absurd hpiece List.not_mem_nil
    · rw [List.mem_singleton.mp hpiece]
      decide
  rw [hlines, hasIgnoredEntry, hsplit, List.any_append, Bool.or_eq_true]
  simp only [List.any_eq_true, beq_iff_eq, List.mem_map, Function.comp_apply]
  constructor
  · rintro (h | ⟨piece, hpiece, heq⟩)
    · exact h
    · exact absurd heq (hempty piece hpiece)
  · exact Or.inl

namespace Text

variable {cs rest : List Char} {c : Char}

/-- What follows a newline starts with lines of its own. -/
theorem lineChars_append (h : cs = [] ∨ cs.getLast? = some '\n') (rest : List Char) :
    lineChars (cs ++ rest) = lineChars cs ++ lineChars rest := by
  induction cs with
  | nil => rfl
  | cons c cs ih =>
    have hlast : (c :: cs).getLast? = some '\n' := by
      rcases h with h | h
      · cases h
      · exact h
    cases cs with
    | nil =>
      obtain rfl : c = '\n' := Option.some.inj hlast
      rfl
    | cons d cs =>
      have ih := ih (Or.inr (by rwa [List.getLast?_cons_cons] at hlast))
      have hhead : (d :: cs ++ rest).head? = (d :: cs).head? := rfl
      rw [List.cons_append, lineChars_cons c (d :: cs), lineChars_cons c (d :: cs ++ rest), ih, hhead]
      split
      · rfl
      split
      · rfl
      · obtain ⟨line, others, hlines⟩ :=
          List.exists_cons_of_ne_nil (lineChars_ne_nil (List.cons_ne_nil d cs))
        rw [hlines]
        rfl

/-- A newline at the end of a text takes a carriage return from its last line, and changes no other. -/
theorem sameLine_newline (h : cs ≠ []) (hlast : cs.getLast? ≠ some '\n') :
    List.Forall₂ SameLine (lineChars cs) (lineChars (cs ++ ['\n'])) := by
  induction cs with
  | nil => exact absurd rfl h
  | cons c cs ih =>
    cases cs with
    | nil =>
      have hnewline : c ≠ '\n' := fun heq => hlast (heq ▸ rfl)
      have hline : lineChars [c] = [[c]] := by simp [lineChars, hnewline]
      rw [hline]
      by_cases hreturn : c = '\r'
      · subst hreturn
        exact .cons (Or.inr rfl) .nil
      · have hended : lineChars ([c] ++ ['\n']) = [[c]] := by simp [lineChars, hnewline, hreturn]
        rw [hended]
        exact .cons (Or.inl rfl) .nil
    | cons d cs =>
      rw [List.getLast?_cons_cons] at hlast
      have ih := ih (List.cons_ne_nil d cs) hlast
      have hhead : (d :: cs ++ ['\n']).head? = (d :: cs).head? := rfl
      rw [List.cons_append, lineChars_cons c (d :: cs), lineChars_cons c (d :: cs ++ ['\n']), hhead]
      split
      · exact .cons (Or.inl rfl) ih
      split
      · exact ih
      · generalize lineChars (d :: cs) = before at ih ⊢
        generalize lineChars (d :: cs ++ ['\n']) = after at ih ⊢
        cases ih with
        | nil => exact .cons (Or.inl rfl) .nil
        | cons hfirst hothers => exact .cons (hfirst.cons c) hothers

end Text

/-- What comes before the entry where it is added to a text. -/
def entryBreak (text : String) : String :=
  if text = "" ∨ text.toList.getLast? = some '\n' then "" else "\n"

theorem ensureIgnored_of_hasEntry {text : String} (h : hasIgnoredEntry text = true) :
    ensureIgnored (some text) = text := by
  rw [ensureIgnored, if_pos h]

theorem ensureIgnored_of_not_hasEntry {prior : Option String}
    (h : hasIgnoredEntry (prior.getD "") = false) :
    ensureIgnored prior = prior.getD "" ++ entryBreak (prior.getD "") ++ ignoredEntry ++ "\n" := by
  cases prior with
  | none => rfl
  | some text =>
    have hlacks : hasIgnoredEntry text = false := h
    rw [ensureIgnored, hlacks, if_neg Bool.false_ne_true, Option.getD_some, entryBreak]
    by_cases hbreak : text = "" ∨ text.toList.getLast? = some '\n'
    · have hcond : (text.isEmpty || decide (text.toList.getLast? = some '\n')) = true := by
        simpa [String.isEmpty_iff] using hbreak
      rw [if_pos hcond, if_pos hbreak, String.append_empty]
    · have hcond : ¬(text.isEmpty || decide (text.toList.getLast? = some '\n')) = true := by
        simpa [String.isEmpty_iff] using hbreak
      rw [if_neg hcond, if_neg hbreak]

/-- The entry becomes a line of its own behind the lines that were there. -/
theorem map_trim_lines_entry (text : String) :
    (Text.lines (text ++ entryBreak text ++ ignoredEntry ++ "\n")).map Text.trim =
      (Text.lines text).map Text.trim ++ [ignoredEntry] := by
  have hentry : Text.lineChars (ignoredEntry.toList ++ ['\n']) = [ignoredEntry.toList] := by decide
  have htrim : Text.trim ignoredEntry = ignoredEntry := by decide
  rw [entryBreak]
  by_cases hbreak : text = "" ∨ text.toList.getLast? = some '\n'
  · have hcs : text.toList = [] ∨ text.toList.getLast? = some '\n' :=
      hbreak.imp_left fun h => by rw [h]; rfl
    have hchars : (text ++ "" ++ ignoredEntry ++ "\n").toList =
        text.toList ++ (ignoredEntry.toList ++ ['\n']) := by
      simp [String.toList_append]
    rw [if_pos hbreak, Text.lines, hchars, Text.lineChars_append hcs, hentry]
    simp [Text.lines, htrim]
  · obtain ⟨hne, hlast⟩ := not_or.mp hbreak
    have hcs : text.toList ≠ [] := fun h => hne (String.toList_eq_nil_iff.mp h)
    have hchars : (text ++ "\n" ++ ignoredEntry ++ "\n").toList =
        (text.toList ++ ['\n']) ++ (ignoredEntry.toList ++ ['\n']) := by
      simp [String.toList_append]
    have hended : (text.toList ++ ['\n']).getLast? = some '\n' := List.getLast?_concat
    have hsame := Text.map_trim_eq (Text.sameLine_newline hcs hlast)
    rw [if_neg hbreak, Text.lines, hchars, Text.lineChars_append (Or.inr hended), hentry]
    simp [Text.lines, htrim, hsame]

/-- **The entry is added once, and everything else is kept.** Afterwards there is a line that is the entry, white space
around it apart. Where there was one before, the file stays as it was. Otherwise the text goes on with the entry as a
line of its own, which a newline parts from a text that is not empty and does not end in one: the lines are those that
were there, and the entry behind them. Doing it again, however often, changes nothing. -/
theorem ensureIgnored_adds_once (prior : Option String) :
    let text := prior.getD ""
    let after := ensureIgnored prior
    (∃ line ∈ Text.lines after, Text.trim line = ignoredEntry) ∧
      ((∃ line ∈ Text.lines text, Text.trim line = ignoredEntry) → prior = some after) ∧
      ((∀ line ∈ Text.lines text, Text.trim line ≠ ignoredEntry) →
        after = text ++
            (if text = "" ∨ text.toList.getLast? = some '\n' then "" else "\n") ++ ".asgraph/" ++ "\n" ∧
          (Text.lines after).map Text.trim = (Text.lines text).map Text.trim ++ [".asgraph/"]) ∧
      ∀ n, (fun text => ensureIgnored (some text))^[n] after = after := by
  intro text after
  have hkept : (∃ line ∈ Text.lines text, Text.trim line = ignoredEntry) → prior = some after := by
    intro h
    have hentry := (hasIgnoredEntry_iff text).mpr h
    cases prior with
    | none => exact absurd hentry (by decide)
    | some text => exact congrArg some (ensureIgnored_of_hasEntry hentry).symm
  have hadded : (∀ line ∈ Text.lines text, Text.trim line ≠ ignoredEntry) →
      after = text ++ entryBreak text ++ ignoredEntry ++ "\n" := by
    intro h
    refine ensureIgnored_of_not_hasEntry (Bool.eq_false_iff.mpr fun hentry => ?_)
    obtain ⟨line, hline, heq⟩ := (hasIgnoredEntry_iff text).mp hentry
    exact h line hline heq
  have hlisted : ∃ line ∈ Text.lines after, Text.trim line = ignoredEntry := by
    by_cases h : ∃ line ∈ Text.lines text, Text.trim line = ignoredEntry
    · have htext : text = after := by
        show prior.getD "" = after
        rw [hkept h, Option.getD_some]
      rwa [← htext]
    · have hmem : ignoredEntry ∈ (Text.lines after).map Text.trim := by
        rw [hadded fun line hline heq => h ⟨line, hline, heq⟩, map_trim_lines_entry]
        exact List.mem_append_right _ List.mem_cons_self
      exact List.mem_map.mp hmem
  refine ⟨hlisted, hkept, fun h => ⟨hadded h, ?_⟩, fun n => ?_⟩
  · rw [hadded h]
    exact map_trim_lines_entry text
  · exact Function.iterate_fixed (ensureIgnored_of_hasEntry ((hasIgnoredEntry_iff after).mpr hlisted)) n

/-- A carriage return without a newline becomes part of the end of its line. -/
example : ensureIgnored (some "target/\r") = "target/\r\n.asgraph/\n" := by decide

end CodeGraph
