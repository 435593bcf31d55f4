import CodeGraph.Change.Diff
import CodeGraph.Format.Answer
import CodeGraph.Format.Graph
import CodeGraph.Locate
import CodeGraph.Outline
import CodeGraph.Request.Plan
import CodeGraph.Scoping.RuleBook
import CodeGraph.Settings.Basic

/-!
# Analyzers

An `Analyzer` answers requests about sources. Each request settles the language, checks the limits,
and answers from the store where it can: a stored result is trusted as it is, and one that cannot be
read counts as missing. Results read back from the store have no parse.
-/

namespace CodeGraph

/-- What a request says of the language of its source. -/
structure SourceHint where
  /-- A tag; it wins over everything else. -/
  language : Option String := none
  /-- A file name, for its extension. -/
  fileName : Option String := none
deriving DecidableEq, Repr, Inhabited

/-- A language whose sources can be parsed, and whether it has rules of its own. -/
structure LanguageSupport where
  language : Language
  semantic : Bool
deriving DecidableEq, Repr

/-- The JSON of a supported language. -/
def LanguageSupport.toJson (s : LanguageSupport) : Json :=
  .object [("language", .string s.language.name), ("semantic", .bool s.semantic)]

/-- What answers requests. -/
structure Analyzer where
  parser : Parser
  rules : RuleBook := .standard
  limits : Limits := {}
  /-- The language where neither a tag nor a file name tells it. -/
  defaultLanguage : Option Language := none

namespace Analyzer

variable (a : Analyzer)

/-- Whether a language has rules of its own. -/
def hasSemantics (language : Language) : Bool := a.rules.hasSemantics language

/-- The languages whose sources can be parsed. -/
def supportedLanguages : List LanguageSupport :=
  Language.supported.map fun l => ⟨l, a.hasSemantics l⟩

/-- The language of a source: by tag, by file name, by default, and at last by a guess. -/
def resolveLanguage (code : String) (hint : SourceHint) : Except Fault Language :=
  match hint.language with
  | some tag =>
    match Language.ofTag? tag with
    | some l => .ok l
    | none => .error (.unsupportedLanguage tag)
  | none =>
    match hint.fileName.bind Language.ofFileName? with
    | some l => .ok l
    | none =>
      match a.defaultLanguage with
      | some l => .ok l
      | none => .ok (Language.detect code hint.fileName)

/-- Refuse a source that is too long. -/
def checkSize (code : String) : Except Fault Unit :=
  if code.utf8ByteSize > a.limits.maxSourceBytes then
    .error (.sourceTooLong code.utf8ByteSize a.limits.maxSourceBytes)
  else .ok ()

/-- The language of an acceptable source: short enough, and in a language with a grammar. -/
def prepare (code : String) (hint : SourceHint) : Except Fault Language := do
  a.checkSize code
  let language ← a.resolveLanguage code hint
  if language.hasGrammar then return language else throw (.unsupportedLanguage language.name)

/-- Parse a source without the store. -/
def parseFresh (code : String) (language : Language) : Except Fault TreeResult := do
  TreeResult.ofParse (← a.parser.parse code language none) a.limits.maxTreeDepth

/-- Build a graph without the store. -/
def graphFresh (code : String) (language : Language) : Except Fault SemanticGraph := do
  let result ← a.parseFresh code language
  return .build result.tree language (a.rules.rulesFor language)

/-- Sum a source up without the store. -/
def outlineFresh (code : String) (language : Language) : Except Fault Outline := do
  let result ← a.parseFresh code language
  return outline result.tree language (a.rules.rulesFor language) code.length

/-- The stored result of a source where it can be read, and otherwise a new one, which is stored. -/
def remember {α : Type} (kind : ResultKind) (codec : Codec α) (code : String)
    (compute : Language → Except Fault α) : Except Fault Language → Plan α
  | .error e => .done (.error e)
  | .ok language =>
    let key := StoreKey.ofSource code language kind
    .get key fun found =>
      match found.toOption.join.bind codec.read? with
      | some x => .done (.ok x)
      | none => .compute fun _ =>
        match compute language with
        | .error e => .done (.error e)
        | .ok x => .put key (codec.write x) (.done (.ok x))

/-- The syntax tree of a source. -/
def parse (code : String) (hint : SourceHint) : Plan TreeResult :=
  remember .tree TreeResult.codec code (a.parseFresh code) (a.prepare code hint)

/-- The semantic graph of a source. -/
def graph (code : String) (hint : SourceHint) : Plan SemanticGraph :=
  remember .graph SemanticGraph.codec code (a.graphFresh code) (a.prepare code hint)

/-- The outline of a source. -/
def outlineOf (code : String) (hint : SourceHint) : Plan Outline :=
  remember .outline Outline.codec code (a.outlineFresh code) (a.prepare code hint)

/-- The innermost node of a source at a point. -/
def locate (code : String) (p : Point) (hint : SourceHint) : Plan LocateResult :=
  (a.parse code hint).mapAnswer (·.map fun r => .of r.tree r.language p)

/-- The syntax tree of a source, parsed upon an older version of it where there is one, with the
ranges that changed since. The store is left alone. -/
def parseIncremental (code : String) (oldCode : Option String) (hint : SourceHint) :
    Except Fault TreeResult := do
  let language ← a.prepare code hint
  match oldCode with
  | none => a.parseFresh code language
  | some oldCode =>
    a.checkSize oldCode
    let old ← a.parser.parse oldCode language none
    let new ← a.parser.parse code language (some old)
    let ranges := a.parser.changedRanges old new
    let result ← TreeResult.ofParse new a.limits.maxTreeDepth
    return { result with changedRanges := some ranges }

/-- How two versions of a source differ. The new version tells the language of both. -/
def diff (oldCode newCode : String) (hint : SourceHint) : Except Fault TreeDiff := do
  let language ← a.prepare newCode hint
  a.checkSize oldCode
  let oldParse ← a.parser.parse oldCode language none
  let newParse ← a.parser.parse newCode language (some oldParse)
  let old ← TreeResult.ofParse oldParse a.limits.maxTreeDepth
  let new ← TreeResult.ofParse newParse a.limits.maxTreeDepth
  diffResults a.parser old new

end Analyzer

/-- Ask for the earliest stored payload of a kind for a digest, and answer from it. -/
def lookUp {α : Type} (digest : String) (kind : ResultKind)
    (answer : String → Except Fault α) : Plan α :=
  .find digest kind fun found =>
    .done (match found with
      | .error e => .error e
      | .ok none => .error (.notStored kind digest)
      | .ok (some (_, payload)) => answer payload)

/-- A stored result as generic JSON. -/
def storedResult (digest : String) (kind : ResultKind) : Plan Json :=
  lookUp digest kind fun payload =>
    match Json.parse? payload with
    | some j => .ok j
    | none => .error .badPayload

/-- A node of a stored syntax tree. -/
def storedNode (digest : String) (id : NodeId) : Plan NodeLookup :=
  lookUp digest .tree fun payload =>
    (ResultStore.read TreeResult.codec payload).map fun r => .of r.tree r.language id

end CodeGraph
