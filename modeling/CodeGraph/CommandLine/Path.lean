import CodeGraph.Text.Blank

/-!
# Paths

A path is a text of names with slashes between them. Empty names, and `.` but for the first name, make
no difference to where a path leads.
-/

namespace CodeGraph.CommandLine

/-- The names of a path in order, with the empty ones. -/
def namesOf (path : String) : List String := (Text.splitOn '/' path.toList).map String.ofList

/-- Whether a path starts at the root. -/
def isAbsolute (path : String) : Bool := path.toList.head? == some '/'

/-- The components of a path that tell it from others. -/
def components (path : String) : List String :=
  match namesOf path with
  | "." :: rest => "." :: rest.filter fun p => p != "" && p != "."
  | "" :: rest => "/" :: rest.filter fun p => p != "" && p != "."
  | names => names.filter fun p => p != "" && p != "."

/-- Drop the slashes, and the names `.` behind slashes, from the front of a reversed path. -/
def dropEmptyNames : List Char → List Char
  | '/' :: rest => dropEmptyNames rest
  | '.' :: '/' :: rest => dropEmptyNames rest
  | cs => cs

/-- The directory part of a path, where it has one. -/
def parent? (path : String) : Option String :=
  let cs := dropEmptyNames path.toList.reverse
  let dir := dropEmptyNames (cs.dropWhile (· != '/'))
  if cs.isEmpty then none
  else if !dir.isEmpty then some (String.ofList dir.reverse)
  else if isAbsolute path then some "/"
  else none

/-- Go on from a directory, given by its names from the last to the first, to what one more name
stands for. -/
def enter (dir : List String) (name : String) : List String :=
  if name = "" ∨ name = "." then dir
  else if name = ".." then dir.drop 1
  else name :: dir

/-- The path from the root that names lead along. -/
def pathOfNames (names : List String) : String := "/" ++ "/".intercalate names

/-- A path seen from a directory, as the plain path from the root. -/
def plainPath (dir path : String) : String :=
  let start := if isAbsolute path then [] else (namesOf dir).foldl enter []
  pathOfNames ((namesOf path).foldl enter start).reverse

end CodeGraph.CommandLine
