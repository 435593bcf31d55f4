import CodeGraph.Proofs.Change.Ranges
import CodeGraph.Proofs.Request.Logic

/-!
# Two versions of a source

To compare two versions of a source, and to parse the newer upon the older, an analyzer asks the parser for the same
two parses, in the same order and after the same checks: the older on its own, and the newer upon it
(`Analyzer.parseBoth`). Both ask for the ranges between these two. From there on the one request normalizes the old
tree and then the new, and the other the new tree alone. So they differ only where the old tree cannot be normalized.
Main statement: `Analyzer.diff_agrees_parseIncremental`.
-/

namespace CodeGraph

namespace Analyzer

variable (a : Analyzer)

/-- The parses of two versions of a source, the newer upon the older. -/
def parseBoth (oldCode newCode : String) (hint : SourceHint) : Except Fault (Parse × Parse) := do
  let language ← a.prepare newCode hint
  a.checkSize oldCode
  let old ← a.parser.parse oldCode language none
  let new ← a.parser.parse newCode language (some old)
  return (old, new)

/-- The comparison of two parses, whose trees are normalized one after the other. -/
def compareParses (old new : Parse) : Except Fault TreeDiff := do
  let old ← TreeResult.ofParse old a.limits.maxTreeDepth
  let new ← TreeResult.ofParse new a.limits.maxTreeDepth
  diffResults a.parser old new

/-- The result of a parse, with the ranges that differ from an older one. -/
def resultSince (old new : Parse) : Except Fault TreeResult := do
  let result ← TreeResult.ofParse new a.limits.maxTreeDepth
  return { result with changedRanges := some (a.parser.changedRanges old new) }

variable {a} {oldCode newCode : String} {hint : SourceHint} {old new : Parse}

theorem diff_eq_bind : a.diff oldCode newCode hint =
    a.parseBoth oldCode newCode hint >>= fun parses => a.compareParses parses.1 parses.2 := by
  simp only [diff, parseBoth, compareParses, bind_assoc, pure_bind]

theorem parseIncremental_eq_bind : a.parseIncremental newCode (some oldCode) hint =
    a.parseBoth oldCode newCode hint >>= fun parses => a.resultSince parses.1 parses.2 := by
  simp only [parseIncremental, parseBoth, resultSince, bind_assoc, pure_bind]

/-- Both parses are of one language. -/
theorem language_of_parseBoth (h : a.parseBoth oldCode newCode hint = .ok (old, new)) :
    old.language = new.language := by
  obtain ⟨language, -, h⟩ := exists_of_bind_eq_ok h
  obtain ⟨-, -, h⟩ := exists_of_bind_eq_ok h
  obtain ⟨p, hp, h⟩ := exists_of_bind_eq_ok h
  obtain ⟨q, hq, h⟩ := exists_of_bind_eq_ok h
  obtain ⟨rfl, rfl⟩ := Prod.mk.inj (Except.ok.inj h)
  exact (Parser.parse_eq_ok hp).1.trans (Parser.parse_eq_ok hq).1.symm

/-! ### From the parses on -/

theorem compareParses_eq (hlanguages : old.language = new.language) :
    a.compareParses old new =
      match old.toTree a.limits.maxTreeDepth, new.toTree a.limits.maxTreeDepth with
      | .error e, _ => .error e
      | .ok _, .error e => .error e
      | .ok oldTree, .ok newTree =>
        let ranges := a.parser.changedRanges old new
        .ok ⟨new.language, ranges, newTree.changedNodes ranges, oldTree, newTree⟩ := by
  unfold compareParses TreeResult.ofParse
  cases old.toTree a.limits.maxTreeDepth with
  | error e => rfl
  | ok oldTree =>
    cases new.toTree a.limits.maxTreeDepth with
    | error e => rfl
    | ok newTree => exact if_pos hlanguages

theorem resultSince_eq :
    a.resultSince old new =
      match new.toTree a.limits.maxTreeDepth with
      | .error e => .error e
      | .ok newTree => .ok ⟨new.language, newTree, some new, some (a.parser.changedRanges old new)⟩ := by
  unfold resultSince TreeResult.ofParse
  cases new.toTree a.limits.maxTreeDepth <;> rfl

/-- A comparison succeeds exactly where both trees can be normalized. -/
theorem exists_compareParses_iff (hlanguages : old.language = new.language) :
    (∃ d, a.compareParses old new = .ok d) ↔
      (∃ oldTree, old.toTree a.limits.maxTreeDepth = .ok oldTree) ∧
        ∃ newTree, new.toTree a.limits.maxTreeDepth = .ok newTree := by
  rw [compareParses_eq hlanguages]
  cases old.toTree a.limits.maxTreeDepth with
  | error f => simp
  | ok oldTree => cases new.toTree a.limits.maxTreeDepth <;> simp

/-- A comparison has the tree, the language and the ranges of the result. -/
theorem resultSince_of_compareParses (hlanguages : old.language = new.language) {d : TreeDiff}
    (h : a.compareParses old new = .ok d) :
    ∃ r, a.resultSince old new = .ok r ∧ r.language = d.language ∧ r.tree = d.newTree ∧
      r.changedRanges = some d.changedRanges := by
  rw [compareParses_eq hlanguages] at h
  rw [resultSince_eq]
  split at h
  · cases h
  · cases h
  · next oldTree newTree _ hnew =>
    obtain rfl := Except.ok.inj h
    rw [hnew]
    exact ⟨_, rfl, rfl, rfl, rfl⟩

/-- Behind an old tree that can be normalized both have the fault of the new one. -/
theorem compareParses_eq_error_iff (hlanguages : old.language = new.language) {oldTree : Node}
    (hold : old.toTree a.limits.maxTreeDepth = .ok oldTree) (e : Fault) :
    a.compareParses old new = .error e ↔ a.resultSince old new = .error e := by
  rw [compareParses_eq hlanguages, resultSince_eq, hold]
  cases new.toTree a.limits.maxTreeDepth with
  | error f => simp only [Except.error.injEq]
  | ok newTree => simp only [reduceCtorEq]

/-- The comparison alone fails where the old tree alone cannot be normalized, and with its fault. -/
theorem only_compareParses_fails_iff (hlanguages : old.language = new.language) (e : Fault) :
    ((∃ r, a.resultSince old new = .ok r) ∧ a.compareParses old new = .error e) ↔
      old.toTree a.limits.maxTreeDepth = .error e ∧
        ∃ newTree, new.toTree a.limits.maxTreeDepth = .ok newTree := by
  rw [compareParses_eq hlanguages, resultSince_eq]
  cases old.toTree a.limits.maxTreeDepth with
  | error f => cases new.toTree a.limits.maxTreeDepth <;> simp
  | ok oldTree => cases new.toTree a.limits.maxTreeDepth <;> simp

/-- **Comparing two versions of a source and parsing the newer upon the older agree.** The comparison succeeds exactly
where both trees can be normalized. Then so does the parse, with the new tree, its language and the ranges of the
comparison. They fail together and with one fault unless the old tree cannot be normalized; and the comparison fails
alone exactly where the old tree alone cannot be. -/
theorem diff_agrees_parseIncremental (a : Analyzer) (oldCode newCode : String) (hint : SourceHint) :
    ((∃ d, a.diff oldCode newCode hint = .ok d) ↔
      ∃ old new oldTree newTree, a.parseBoth oldCode newCode hint = .ok (old, new) ∧
        old.toTree a.limits.maxTreeDepth = .ok oldTree ∧
        new.toTree a.limits.maxTreeDepth = .ok newTree) ∧
    (∀ d, a.diff oldCode newCode hint = .ok d →
      ∃ r, a.parseIncremental newCode (some oldCode) hint = .ok r ∧ r.language = d.language ∧
        r.tree = d.newTree ∧ r.changedRanges = some d.changedRanges) ∧
    ((∀ old new, a.parseBoth oldCode newCode hint = .ok (old, new) →
        ∃ oldTree, old.toTree a.limits.maxTreeDepth = .ok oldTree) →
      ∀ e, a.diff oldCode newCode hint = .error e ↔
        a.parseIncremental newCode (some oldCode) hint = .error e) ∧
    (∀ e, ((∃ r, a.parseIncremental newCode (some oldCode) hint = .ok r) ∧
        a.diff oldCode newCode hint = .error e) ↔
      ∃ old new newTree, a.parseBoth oldCode newCode hint = .ok (old, new) ∧
        old.toTree a.limits.maxTreeDepth = .error e ∧
        new.toTree a.limits.maxTreeDepth = .ok newTree) := by
  rw [diff_eq_bind, parseIncremental_eq_bind]
  cases hparses : a.parseBoth oldCode newCode hint with
  | error f => simp [bind, Except.bind]
  | ok parses =>
    obtain ⟨old, new⟩ := parses
    have hlanguages := language_of_parseBoth hparses
    refine ⟨?_, fun d => resultSince_of_compareParses hlanguages, fun hnormal => ?_, fun e => ?_⟩
    · refine (exists_compareParses_iff hlanguages).trans ⟨?_, ?_⟩
      · rintro ⟨⟨oldTree, hold⟩, newTree, hnew⟩
        exact ⟨old, new, oldTree, newTree, rfl, hold, hnew⟩
      · rintro ⟨old', new', oldTree, newTree, hsame, hold, hnew⟩
        obtain ⟨rfl, rfl⟩ := Prod.mk.inj (Except.ok.inj hsame)
        exact ⟨⟨oldTree, hold⟩, newTree, hnew⟩
    · obtain ⟨oldTree, hold⟩ := hnormal old new rfl
      exact compareParses_eq_error_iff hlanguages hold
    · refine (only_compareParses_fails_iff hlanguages e).trans ⟨?_, ?_⟩
      · rintro ⟨hold, newTree, hnew⟩
        exact ⟨old, new, newTree, rfl, hold, hnew⟩
      · rintro ⟨old', new', newTree, hsame, hold, hnew⟩
        obtain ⟨rfl, rfl⟩ := Prod.mk.inj (Except.ok.inj hsame)
        exact ⟨hold, newTree, hnew⟩

/-- An analyzer that lets two levels through. Its parser takes `"x"` as three levels and every other source as one, and
the root tells whether it was built upon the parse of another source. Of two parses with different spans it reports the
newer as a whole. -/
def twoLevels : Analyzer where
  parser :=
    { tree := fun _ code base =>
        let span := Span.of code.toUTF8 0 code.utf8ByteSize
        let edited := (base.bind EditedParse.edit).isSome
        some (⟨if edited then "edited_module" else "module", span,
          if code = "x" then [⟨"statement", span, [⟨"name", span, []⟩]⟩] else []⟩, false)
      changes := fun old new => if old.parse.root.span = new.root.span then [] else [new.root.span] }
  limits := { maxTreeDepth := 2 }
  defaultLanguage := some .python

/-- Upon a source that is too deep another can be parsed, though not compared with it; the other way round both
requests fail. Where neither is too deep, both have the tree that the newer source has upon the older, and the range
that the parser reports between them. -/
theorem diff_agrees_parseIncremental_twoLevels :
    ((∃ r, twoLevels.parseIncremental "y" (some "x") {} = .ok r) ∧
        twoLevels.diff "x" "y" {} = .error (.treeTooDeep 2)) ∧
      (twoLevels.diff "y" "x" {} = .error (.treeTooDeep 2) ∧
        twoLevels.parseIncremental "x" (some "y") {} = .error (.treeTooDeep 2)) ∧
      ∃ d r, twoLevels.diff "y" "y; z" {} = .ok d ∧
        twoLevels.parseIncremental "y; z" (some "y") {} = .ok r ∧ r.tree = d.newTree ∧
        r.changedRanges = some d.changedRanges ∧ d.newTree.kind = "edited_module" ∧
        d.changedRanges = [⟨0, 4, ⟨0, 0⟩, ⟨0, 4⟩⟩] := by
  refine ⟨?_, ?_, ?_⟩
  · obtain ⟨-, -, -, honly⟩ := diff_agrees_parseIncremental twoLevels "x" "y" {}
    exact (honly (.treeTooDeep 2)).mpr ⟨_, _, _, rfl, rfl, rfl⟩
  · obtain ⟨-, -, htogether, -⟩ := diff_agrees_parseIncremental twoLevels "y" "x" {}
    have hfails : twoLevels.diff "y" "x" {} = .error (.treeTooDeep 2) := rfl
    refine ⟨hfails, (htogether (fun old new hparses => ?_) (.treeTooDeep 2)).mp hfails⟩
    obtain ⟨rfl, rfl⟩ := Prod.mk.inj (Except.ok.inj hparses)
    exact ⟨_, rfl⟩
  · obtain ⟨-, hagrees, -⟩ := diff_agrees_parseIncremental twoLevels "y" "y; z" {}
    obtain ⟨r, hr, -, htree, hranges⟩ := hagrees _ rfl
    refine ⟨_, r, rfl, hr, htree, hranges, rfl, ?_⟩
    have hedit : (textEdit "y" "y; z").map TextEdit.written = some ⟨1, 4, ⟨0, 1⟩, ⟨0, 4⟩⟩ := by decide
    show changedRanges [⟨0, 4, ⟨0, 0⟩, ⟨0, 4⟩⟩] "y" "y; z" = _
    rw [changedRanges_of_written hedit, List.singleton_append, mergeRanges_pair]
    decide

end Analyzer

end CodeGraph
