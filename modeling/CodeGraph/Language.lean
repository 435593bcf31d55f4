import CodeGraph.Text.Blank

/-!
# Source languages

The languages known by name, the tags and file extensions that name them, and a guess from words
that occur in a source. Some languages have no grammar: their sources cannot be parsed.
-/

namespace CodeGraph

/-- A source language. -/
inductive Language where
  | python | javaScript | typeScript | tsx | go | rust | c | cpp | java
deriving DecidableEq, Repr, Inhabited

namespace Language

/-- The languages in their order of declaration. -/
def all : List Language :=
  [python, javaScript, typeScript, tsx, go, rust, c, cpp, java]

/-- The canonical name. -/
def name : Language → String
  | python => "python"
  | javaScript => "javascript"
  | typeScript => "typescript"
  | tsx => "tsx"
  | go => "go"
  | rust => "rust"
  | c => "c"
  | cpp => "cpp"
  | java => "java"

instance : ToString Language := ⟨name⟩

/-- Whether sources of the language can be parsed. -/
def hasGrammar : Language → Bool
  | c | cpp | java => false
  | _ => true

/-- The languages whose sources can be parsed. -/
def supported : List Language := all.filter hasGrammar

/-- The tags of a language, in lower case: names, abbreviations and file extensions. -/
def tags : Language → List String
  | python => ["py", "pyi", "python"]
  | javaScript => ["js", "jsx", "mjs", "cjs", "javascript"]
  | typeScript => ["ts", "typescript"]
  | tsx => ["tsx"]
  | go => ["go", "golang"]
  | rust => ["rs", "rust"]
  | c => ["c", "h"]
  | cpp => ["cpp", "c++", "cc", "hpp"]
  | java => ["java"]

/-- The language of a tag, white space around it and letter case apart. Only ASCII letters are
folded: the one other character whose lower case is a single ASCII letter is the Kelvin sign, and
no tag has a `k`. -/
def ofTag? (tag : String) : Option Language :=
  let folded := (Text.trim tag).toLower
  all.find? (·.tags.contains folded)

/-- The language of a canonical name. -/
def ofName? (text : String) : Option Language := all.find? (·.name == text)

/-- The last component of a path: slashes at the end and `.` components do not count, and a path
that ends in `..` has none. -/
def baseName? (path : String) : Option String :=
  let parts := (Text.splitOn '/' path.toList).filter fun p => !(p == [] || p == ['.'])
  match parts.getLast? with
  | none => none
  | some last => if last = ['.', '.'] then none else some (String.ofList last)

/-- What follows the last dot of a file name, unless that dot is its first character. -/
def extension? (path : String) : Option String :=
  match baseName? path with
  | none => none
  | some base =>
    let ext := Text.afterLast '.' base.toList
    if ext.length + 1 < base.toList.length then some (String.ofList ext) else none

/-- The language that a file name's extension names. -/
def ofFileName? (path : String) : Option Language := (extension? path).bind ofTag?

/-- A guess from words of the code; Python where nothing else fits. -/
def ofWords (code : String) : Language :=
  let chars := code.toList
  let has (word : String) : Bool := Text.occursIn word.toList chars
  if has "def " && has ":" && has "import " then python
  else if has "func " && has "\x7b" && has "\x7d" && has "package " then go
  else if has "fn " && has "let " && has "->" then rust
  else if has "const " && has "function" && has "=>" then typeScript
  else if has "function" && has "var " && has ";" then javaScript
  else if has "class " && has "public " && has "void " then java
  else if has "int " && has "#include" then c
  else if has "std::" || has "template<" then cpp
  else python

/-- The language of a file name where its extension names one, and otherwise a guess. -/
def detect (code : String) (fileName : Option String) : Language :=
  ((fileName.bind ofFileName?).getD (ofWords code))

theorem ofName?_name (l : Language) : ofName? l.name = some l := by
  cases l <;> decide

/-- The canonical name is a tag of its language. -/
theorem ofTag?_name (l : Language) : ofTag? l.name = some l := by
  cases l <;> decide +kernel

end Language

end CodeGraph
