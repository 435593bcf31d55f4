/-!
# Content types

A content type is two names with a slash between them, and parameters after semicolons. A name may
end in a suffix after a plus sign. `isJson` tells the types whose bodies are JSON.
-/

namespace CodeGraph.ContentType

/-- Characters of names. -/
def isNameChar (c : Char) : Bool := c.isAlphanum || "!#$%&'*+-.^_\x60|~".toList.contains c

/-- Characters of a quoted value: those of ASCII that can be printed. -/
def isQuotedChar (c : Char) : Bool := 31 < c.toNat && c.toNat < 127

/-- Where a reader of parameters stands. -/
inductive Place where
  /-- Before a parameter. -/
  | start
  | name
  /-- Behind the equals sign. -/
  | value
  | bare
  /-- Behind the opening quote. -/
  | opening
  | quoted
  /-- Behind the closing quote. -/
  | closed
deriving DecidableEq, Repr

/-- The place after one more character. -/
def Place.next? (p : Place) (c : Char) : Option Place :=
  match p with
  | start => if c = ' ' then some start else if isNameChar c then some name else none
  | name => if c = '=' then some value else if isNameChar c then some name else none
  | value => if c = '"' then some opening else if isNameChar c then some bare else none
  | bare => if c = ';' then some start else if isNameChar c then some bare else none
  | opening => if isQuotedChar c then some quoted else none
  | quoted => if c = '"' then some closed else if isQuotedChar c then some quoted else none
  | closed => if c = ';' then some start else if c = ' ' then some closed else none

/-- Whether the parameters may end at a place. -/
def Place.isEnd : Place → Bool
  | start | value | bare | closed => true
  | name | opening | quoted => false

/-- Whether a text is a list of parameters. -/
def areParameters (cs : List Char) : Bool :=
  (cs.foldl (fun p c => p.bind (·.next? c)) (some Place.start)).any Place.isEnd

/-- A name without its suffix, and the suffix; the name does not start with the plus sign. -/
def splitSuffix (name : List Char) : List Char × List Char :=
  let suffix := (name.reverse.takeWhile (· != '+')).reverse
  if suffix.length + 1 < name.length then (name.take (name.length - suffix.length - 1), suffix)
  else (name, [])

/-- Whether the two names of a type are those of JSON. -/
def areJsonNames (top sub : List Char) : Bool :=
  let lower (cs : List Char) : String := (String.ofList cs).toLower
  let (base, suffix) := splitSuffix sub
  lower top == "application" && (lower base == "json" || lower suffix == "json")

/-- Whether a content type is one of JSON. -/
def isJson (contentType : String) : Bool :=
  let cs := contentType.toList
  match cs.dropWhile isNameChar with
  | '/' :: rest =>
    areJsonNames (cs.takeWhile isNameChar) (rest.takeWhile isNameChar) &&
      (match rest.dropWhile isNameChar with
        | [] => true
        | ';' :: rest => areParameters rest
        | _ => false)
  | _ => false

end CodeGraph.ContentType
