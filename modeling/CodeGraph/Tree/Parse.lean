import CodeGraph.Change.Edit
import CodeGraph.Change.Ranges
import CodeGraph.Tree.Raw

/-!
# Parses

A `Parser` is the outside program that knows the grammars. A `Parse` is one answer of it, with the
source it belongs to and the number of parses it was built upon. What a newer parse is built upon, or
compared with, is an `EditedParse`: an older one that has been told of the edit towards the newer
source.
-/

namespace CodeGraph

/-- One parse of a source. -/
structure Parse where
  language : Language
  root : RawNode
  hasErrors : Bool
  source : String
  /-- Zero for a fresh parse, and one more than that of the parse it was built upon. -/
  version : Nat

/-- A parse that has been told of the edit towards a newer source. -/
structure EditedParse where
  parse : Parse
  /-- None where the newer source is the same. -/
  edit : Option TextEdit

namespace Parse

/-- The syntax tree of a parse. -/
def toTree (p : Parse) (limit : Nat) : Except Fault Node :=
  p.root.normalize p.source.toUTF8 limit

/-- The parse with the edit towards a newer source. -/
def editedTowards (p : Parse) (newer : String) : EditedParse := ⟨p, textEdit p.source newer⟩

end Parse

/-- The outside program that turns sources into trees. -/
structure Parser where
  /-- The tree of a source, and whether the parser had to recover from errors. The tree may depend on
  the older parse that it is built upon. -/
  tree : Language → String → Option EditedParse → Option (RawNode × Bool)
  /-- The ranges of the newer source whose structure differs between an older parse and a newer. -/
  changes : EditedParse → Parse → List Span

/-- The ranges that differ between two sources. The parser reports changes of structure alone, so
the range of the textual edit is added to its ranges; equal sources differ nowhere. -/
def changedRanges (raw : List Span) (old new : String) : List Span :=
  match textEdit old new with
  | none => []
  | some edit => mergeRanges (raw ++ [edit.written])

namespace Parser

/-- Parse a source. A previous parse of another language is not built upon. -/
def parse (parser : Parser) (source : String) (language : Language) (previous : Option Parse) :
    Except Fault Parse :=
  if language.hasGrammar then
    let base := previous.filter (·.language = language)
    match parser.tree language source (base.map (·.editedTowards source)) with
    | none => .error (.noTree (.notParsed language))
    | some (root, hasErrors) =>
      .ok ⟨language, root, hasErrors, source, (base.map (·.version + 1)).getD 0⟩
  else .error (.unsupportedLanguage language.name)

/-- A parse is of the language and the source that it was asked for. -/
theorem parse_eq_ok {parser : Parser} {source : String} {language : Language}
    {previous : Option Parse} {p : Parse} (h : parser.parse source language previous = .ok p) :
    p.language = language ∧ p.source = source := by
  unfold parse at h
  split at h
  · dsimp only at h
    split at h
    · cases h
    · obtain rfl := Except.ok.inj h
      exact ⟨rfl, rfl⟩
  · cases h

/-- A fresh parse is built upon nothing. -/
theorem parse_none {parser : Parser} {source : String} {language : Language}
    (h : language.hasGrammar = true) :
    parser.parse source language none =
      match parser.tree language source none with
      | none => .error (.noTree (.notParsed language))
      | some (root, hasErrors) => .ok ⟨language, root, hasErrors, source, 0⟩ :=
  if_pos h

/-- The ranges that differ between two parses. -/
def changedRanges (parser : Parser) (old new : Parse) : List Span :=
  CodeGraph.changedRanges (parser.changes (old.editedTowards new.source) new) old.source new.source

end Parser

end CodeGraph
