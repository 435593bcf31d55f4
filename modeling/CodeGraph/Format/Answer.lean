import CodeGraph.Change.Diff
import CodeGraph.Format.Tree
import CodeGraph.Locate
import CodeGraph.Outline

/-!
# The JSON of answers

Results of parsing, differences, outlines and the answers to look-ups. A result of parsing is
written without its parse. The answers to look-ups are told apart by their `status`.
-/

namespace CodeGraph

namespace ResultKind

/-- A kind of stored result is written as its name. -/
def codec : Codec ResultKind where
  encode k := .string k.name
  decode := Document.name? ofName?

end ResultKind

namespace TreeResult

/-- The member for the changed ranges, where there are any to speak of. -/
def rangeMembers : Option (List Span) → List (String × Json)
  | none => []
  | some ranges => [("changed_ranges", .array (ranges.map Span.codec.encode))]

/-- A result of parsing is a record. -/
def codec : Codec TreeResult where
  encode r :=
    .object (("language", .string r.language.name) :: ("ast", r.tree.toJson) ::
      rangeMembers r.changedRanges)
  decode d :=
    match d.slots? ["language", "ast", "changed_ranges"] with
    | some [language, tree, ranges] => do
      let language ← language.required Language.codec.decode
      let tree ← tree.required Node.ofDocument?
      let ranges ← ranges.withDefault none (Slot.nullable (Document.list? Span.codec.decode))
      return ⟨language, tree, none, ranges⟩
    | _ => none

end TreeResult

namespace TreeDiff

/-- A difference is a record. -/
def codec : Codec TreeDiff where
  encode d :=
    .object [("language", .string d.language.name),
      ("changed_ranges", .array (d.changedRanges.map Span.codec.encode)),
      ("changed_nodes", .array (d.changedNodes.map Node.toJson)), ("old_ast", d.oldTree.toJson),
      ("new_ast", d.newTree.toJson)]
  decode d :=
    match d.slots? ["language", "changed_ranges", "changed_nodes", "old_ast", "new_ast"] with
    | some [language, ranges, nodes, oldTree, newTree] => do
      let language ← language.required Language.codec.decode
      let ranges ← ranges.required (Document.list? Span.codec.decode)
      let nodes ← nodes.required (Document.list? Node.ofDocument?)
      let oldTree ← oldTree.required Node.ofDocument?
      let newTree ← newTree.required Node.ofDocument?
      return ⟨language, ranges, nodes, oldTree, newTree⟩
    | _ => none

end TreeDiff

namespace LineRange

/-- A range of lines is a record. -/
def codec : Codec LineRange where
  encode r := .object [("start_line", .nat r.first), ("end_line", .nat r.last)]
  decode d :=
    match d.slots? ["start_line", "end_line"] with
    | some [first, last] => do
      let first ← first.required Document.count?
      let last ← last.required Document.count?
      return ⟨first, last⟩
    | _ => none

end LineRange

namespace FunctionEntry

/-- The entry of a function is a record. -/
def codec : Codec FunctionEntry where
  encode f :=
    .object [("name", .string f.name), ("location", LineRange.codec.encode f.lines),
      ("parameters", .array (f.parameters.map .string))]
  decode d :=
    match d.slots? ["name", "location", "parameters"] with
    | some [name, lines, parameters] => do
      let name ← name.required Document.text?
      let lines ← lines.required LineRange.codec.decode
      let parameters ← parameters.required (Document.list? Document.text?)
      return ⟨name, lines, parameters⟩
    | _ => none

end FunctionEntry

namespace ClassEntry

/-- The entry of a class is a record. -/
def codec : Codec ClassEntry where
  encode c := .object [("name", .string c.name), ("location", LineRange.codec.encode c.lines)]
  decode d :=
    match d.slots? ["name", "location"] with
    | some [name, lines] => do
      let name ← name.required Document.text?
      let lines ← lines.required LineRange.codec.decode
      return ⟨name, lines⟩
    | _ => none

end ClassEntry

namespace ImportEntry

/-- The entry of an import is a record. -/
def codec : Codec ImportEntry where
  encode i := .object [("module", .string i.moduleName), ("line", .nat i.line)]
  decode d :=
    match d.slots? ["module", "line"] with
    | some [moduleName, line] => do
      let moduleName ← moduleName.required Document.text?
      let line ← line.required Document.count?
      return ⟨moduleName, line⟩
    | _ => none

end ImportEntry

namespace Outline

/-- The two sizes of an outline, as the record of their own that they are written in. -/
def metrics? (d : Document) : Option (Nat × Nat) :=
  match d.slots? ["max_nesting_level", "total_nodes"] with
  | some [nesting, total] => do
    let nesting ← nesting.required Document.count?
    let total ← total.required Document.count?
    return (nesting, total)
  | _ => none

/-- An outline is a record. -/
def codec : Codec Outline where
  encode o :=
    .object [("language", .string o.language.name), ("code_length", .nat o.codeLength),
      ("functions", .array (o.functions.map FunctionEntry.codec.encode)),
      ("classes", .array (o.classes.map ClassEntry.codec.encode)),
      ("imports", .array (o.imports.map ImportEntry.codec.encode)),
      ("complexity_metrics",
        .object [("max_nesting_level", .nat o.maxNesting), ("total_nodes", .nat o.totalNodes)])]
  decode d :=
    match d.slots?
        ["language", "code_length", "functions", "classes", "imports", "complexity_metrics"] with
    | some [language, length, functions, classes, imports, metrics] => do
      let language ← language.required Language.codec.decode
      let length ← length.required Document.count?
      let functions ← functions.required (Document.list? FunctionEntry.codec.decode)
      let classes ← classes.required (Document.list? ClassEntry.codec.decode)
      let imports ← imports.required (Document.list? ImportEntry.codec.decode)
      let (nesting, total) ← metrics.required metrics?
      return ⟨language, length, functions, classes, imports, nesting, total⟩
    | _ => none

end Outline

/-- The record of a node that was found. -/
def foundJson (node : Node) (language : Language) : Json :=
  .object [("status", .string "found"), ("node", node.toJson),
    ("language", .string language.name)]

/-- A node that was found, read from what follows the status. -/
def found? (d : Document) : Option (Node × Language) :=
  match d.slots? ["node", "language"] with
  | some [node, language] => do
    let node ← node.required Node.ofDocument?
    let language ← language.required (Document.looseName? Language.ofName?)
    return (node, language)
  | _ => none

namespace LocateResult

/-- The answer to a look-up by position, told apart by its status. -/
def codec : Codec LocateResult where
  encode
    | found node language => foundJson node language
    | notFound line column message =>
      .object [("status", .string "not_found"), ("line", .nat line), ("column", .nat column),
        ("message", .string message)]
  decode d :=
    match d.tagged? "status" with
    | none => none
    | some (status, rest) =>
      if status = "found" then (found? rest).map fun p => found p.1 p.2
      else if status = "not_found" then
        match rest.slots? ["line", "column", "message"] with
        | some [line, column, message] => do
          let line ← line.required Document.count?
          let column ← column.required Document.count?
          let message ← message.required Document.text?
          return notFound line column message
        | _ => none
      else none

end LocateResult

namespace NodeLookup

/-- The answer to a look-up by name, told apart by its status. -/
def codec : Codec NodeLookup where
  encode
    | found node language => foundJson node language
    | notFound id message =>
      .object [("status", .string "not_found"), ("node_id", .string id.text),
        ("message", .string message)]
  decode d :=
    match d.tagged? "status" with
    | none => none
    | some (status, rest) =>
      if status = "found" then (found? rest).map fun p => found p.1 p.2
      else if status = "not_found" then
        match rest.slots? ["node_id", "message"] with
        | some [id, message] => do
          let id ← id.required NodeId.codec.decode
          let message ← message.required Document.text?
          return notFound id message
        | _ => none
      else none

end NodeLookup

end CodeGraph
