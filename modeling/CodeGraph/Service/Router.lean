import CodeGraph.Request.Analyzer
import CodeGraph.Service.Body
import CodeGraph.Service.ContentType
import CodeGraph.Text.Blank
import CodeGraph.Text.Percent

/-!
# The web service

`respond` answers a request of the web interface. Sources are posted as JSON, stored results are
fetched by path. A request is refused when it comes by an unknown path, by the wrong method, with a
body that cannot be read, or with a path that cannot be read, in this order.
-/

namespace CodeGraph

/-- What a request wants done with a path. -/
inductive HttpMethod where
  | get | head | post | options
  | other
deriving DecidableEq, Repr

/-- The method of a name. -/
def HttpMethod.ofName (name : String) : HttpMethod :=
  if name = "GET" then get
  else if name = "HEAD" then head
  else if name = "POST" then post
  else if name = "OPTIONS" then options
  else other

/-- A request. -/
structure HttpRequest where
  method : HttpMethod
  /-- What the request is for: a path with its query, or a whole address. -/
  target : String
  contentType : Option String
  body : String

/-- The answer to a request. -/
structure HttpReply where
  status : Nat
  body : Option Json

namespace Service

/-- An answer without a body. -/
def plain (status : Nat) : HttpReply := ⟨status, none⟩

/-- The answer where a request failed. Faults of the system are not told. -/
def faultReply (f : Fault) : HttpReply :=
  let body : Json := .object [("error", .string f.message)]
  if f.isNotStored then ⟨404, some body⟩
  else if f.isClient then ⟨400, some body⟩
  else plain 500

/-- The answer to a request that was carried out. -/
def replyOf {α : Type} (toJson : α → Json) : Except Fault α → Except Fault HttpReply
  | .ok x => .ok ⟨200, some (toJson x)⟩
  | .error f => .ok (faultReply f)

/-- A request with the answer as JSON. -/
def planned {α : Type} (toJson : α → Json) (p : Plan α) : Plan HttpReply :=
  p.mapAnswer (replyOf toJson)

/-- A request that is answered at once. -/
def answered (r : HttpReply) : Plan HttpReply := .done (.ok r)

/-! ### Paths -/

/-- Characters of the name before an address. -/
def isSchemeChar (c : Char) : Bool := c.isAlphanum || c == '+' || c == '-' || c == '.'

/-- The address of a target without its scheme and host. What is neither a path nor such an address
has no path. -/
def withoutHost (target : List Char) : List Char :=
  match target with
  | '/' :: _ => target
  | _ =>
    match target.dropWhile isSchemeChar with
    | ':' :: '/' :: '/' :: rest => rest.dropWhile fun c => c != '/' && c != '?' && c != '#'
    | _ => []

/-- The parts of a target's path between its slashes, without the query. -/
def partsOf (target : String) : List (List Char) :=
  Text.splitOn '/' ((withoutHost target.toList).takeWhile fun c => c != '?' && c != '#')

/-- The requests with a source as their body. -/
inductive SourceRoute where
  | parse | graph | diff | locate | analyze
deriving DecidableEq, Repr

/-- What a path leads to. -/
inductive Route where
  | health
  | languages
  | source (route : SourceRoute)
  /-- A stored result, by kind and digest. -/
  | stored (kind digest : List Char)
  /-- A node of a stored tree, by digest and name. -/
  | node (digest id : List Char)

/-- The route of a target. A path may leave its first value empty, and not its last. -/
def Route.ofTarget? (target : String) : Option Route :=
  match partsOf target with
  | [[], name] =>
    match String.ofList name with
    | "health" => some .health
    | "languages" => some .languages
    | "parse" => some (.source .parse)
    | "graph" => some (.source .graph)
    | "diff" => some (.source .diff)
    | "locate" => some (.source .locate)
    | "analyze" => some (.source .analyze)
    | _ => none
  | [[], name, a, b] =>
    if b.isEmpty then none
    else
      match String.ofList name with
      | "cache" => some (.stored a b)
      | "nodes" => some (.node a b)
      | _ => none
  | _ => none

/-! ### Bodies -/

/-- The largest body that is read, in bytes. -/
def maxBodyBytes : Nat := 2097152

/-- The fields of a body. -/
def SourceRoute.fields : SourceRoute → Body.Fields
  | parse | graph | analyze =>
    [("code", .text), ("language", .optionalText), ("filename", .optionalText),
      ("old_code", .optionalText)]
  | diff =>
    [("old_code", .text), ("new_code", .text), ("language", .optionalText),
      ("filename", .optionalText)]
  | locate =>
    [("code", .text), ("line", .count), ("column", .count), ("language", .optionalText),
      ("filename", .optionalText)]

/-- Carry out a request with the values of its fields. -/
def SourceRoute.carryOut (a : Analyzer) (route : SourceRoute) (values : List Body.FieldValue) :
    Plan HttpReply :=
  match route, values with
  | parse, [.text (some code), .text language, .text fileName, .text oldCode] =>
    let hint : SourceHint := ⟨language, fileName⟩
    match oldCode with
    | some old =>
      .done (replyOf TreeResult.codec.encode (a.parseIncremental code (some old) hint))
    | none => planned TreeResult.codec.encode (a.parse code hint)
  | graph, [.text (some code), .text language, .text fileName, _] =>
    planned SemanticGraph.codec.encode (a.graph code ⟨language, fileName⟩)
  | analyze, [.text (some code), .text language, .text fileName, _] =>
    planned Outline.codec.encode (a.outlineOf code ⟨language, fileName⟩)
  | diff, [.text (some old), .text (some new), .text language, .text fileName] =>
    .done (replyOf TreeDiff.codec.encode (a.diff old new ⟨language, fileName⟩))
  | locate, [.text (some code), .count line, .count column, .text language, .text fileName] =>
    planned LocateResult.codec.encode (a.locate code ⟨line, column⟩ ⟨language, fileName⟩)
  | _, _ => answered (plain 422)

/-- Answer a request that posts a source. -/
def SourceRoute.respond (a : Analyzer) (route : SourceRoute) (r : HttpRequest) : Plan HttpReply :=
  if !r.contentType.any ContentType.isJson then answered (plain 415)
  else if maxBodyBytes < r.body.utf8ByteSize then answered (plain 413)
  else
    match Body.read route.fields r.body with
    | .error .malformed => answered (plain 400)
    | .error .wrongShape => answered (plain 422)
    | .ok values => route.carryOut a values

/-! ### Requests -/

/-- Answer a request that fetches something. -/
def fetch (a : Analyzer) : Route → Plan HttpReply
  | .health => answered ⟨200, some (.object [("status", .string "ok")])⟩
  | .languages =>
    answered ⟨200, some (.array (a.supportedLanguages.map LanguageSupport.toJson))⟩
  | .stored kind digest =>
    match (Text.percentText? kind).bind ResultKind.ofName?, Text.percentText? digest with
    | some kind, some digest => planned id (storedResult digest kind)
    | _, _ => answered (plain 400)
  | .node digest id =>
    match Text.percentText? digest, Text.percentText? id with
    | some digest, some id => planned NodeLookup.codec.encode (storedNode digest ⟨id⟩)
    | _, _ => answered (plain 400)
  | .source _ => answered (plain 405)

/-- An answer without its body. -/
def withoutBody (r : HttpReply) : HttpReply := plain r.status

/-- Answer a request. -/
def respond (a : Analyzer) (r : HttpRequest) : Plan HttpReply :=
  if r.method = .options then answered (plain 200)
  else
    match Route.ofTarget? r.target with
    | none => answered (plain 404)
    | some (.source route) =>
      if r.method = .post then route.respond a r else answered (plain 405)
    | some route =>
      match r.method with
      | .get => fetch a route
      | .head => (fetch a route).mapAnswer (·.map withoutBody)
      | _ => answered (plain 405)

end Service

end CodeGraph
