import CodeGraph.Json.Record
import CodeGraph.Language
import CodeGraph.Tree.Node

/-!
# The JSON of trees

A node is a record of its kind, the offsets and points of its span, its text and its children; the
children are left out where there are none.
-/

namespace CodeGraph

namespace Language

/-- A language is written as its name. -/
def codec : Codec Language where
  encode l := .string l.name
  decode := Document.name? ofName?

end Language

namespace NodeId

/-- An identity is written as its text. -/
def codec : Codec NodeId where
  encode id := .string id.text
  decode d := d.text?.map NodeId.mk

end NodeId

namespace Span

/-- The members for the points of a span. -/
def pointMembers (s : Span) : List (String × Json) :=
  [("start_line", .nat s.start.line), ("start_col", .nat s.start.column),
    ("end_line", .nat s.stop.line), ("end_col", .nat s.stop.column)]

/-- The members of a node for its span. -/
def nodeMembers (s : Span) : List (String × Json) :=
  ("byte_start", .nat s.startByte) :: ("byte_end", .nat s.endByte) :: s.pointMembers

/-- The span of six parts of a record. -/
def ofSlots? (startByte endByte startLine startCol endLine endCol : Slot) : Option Span := do
  let startByte ← startByte.required Document.count?
  let endByte ← endByte.required Document.count?
  let startLine ← startLine.required Document.count?
  let startCol ← startCol.required Document.count?
  let endLine ← endLine.required Document.count?
  let endCol ← endCol.required Document.count?
  return ⟨startByte, endByte, ⟨startLine, startCol⟩, ⟨endLine, endCol⟩⟩

/-- A changed range is a record of its offsets and points. -/
def codec : Codec Span where
  encode s := .object (("start_byte", .nat s.startByte) :: ("end_byte", .nat s.endByte) ::
    s.pointMembers)
  decode d :=
    match d.slots? ["start_byte", "end_byte", "start_line", "start_col", "end_line", "end_col"] with
    | some [a, b, c, d, e, f] => ofSlots? a b c d e f
    | _ => none

end Span

namespace Node

mutual

/-- The JSON of a node. -/
def toJson : Node → Json
  | ⟨kind, span, text, children⟩ =>
    .object
      (("kind", .string kind) :: span.nodeMembers ++ ("text", .string text) ::
        (if children.isEmpty then [] else [("children", .array (toJsonAll children))]))

/-- The JSON of some nodes. -/
def toJsonAll : List Node → List Json
  | [] => []
  | n :: ns => toJson n :: toJsonAll ns

end

/-- The parts of a node. -/
def parts : List String :=
  ["kind", "byte_start", "byte_end", "start_line", "start_col", "end_line", "end_col", "text",
    "children"]

/-- The node of a document of at most so many levels. -/
def ofDocumentWithin? : Nat → Document → Option Node
  | 0, _ => none
  | fuel + 1, d =>
    match d.slots? parts with
    | some [kind, a, b, c, d, e, f, text, children] => do
      let kind ← kind.required Document.text?
      let span ← Span.ofSlots? a b c d e f
      let text ← text.required Document.text?
      let children ← children.withDefault [] (Document.list? (ofDocumentWithin? fuel))
      return ⟨kind, span, text, children⟩
    | _ => none

/-- The node of a document. -/
def ofDocument? (d : Document) : Option Node := ofDocumentWithin? d.levels d

/-- A node is a record. -/
def codec : Codec Node where
  encode := toJson
  decode := ofDocument?

end Node

end CodeGraph
