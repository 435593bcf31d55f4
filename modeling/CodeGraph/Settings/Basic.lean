/-!
# Settings

What a user can set: where results are stored, which language holds where nothing tells it, how large
a source and how deep its tree may be, and the port of the server. Every part has a default.
-/

namespace CodeGraph

/-- Bounds on what is accepted. -/
structure Limits where
  maxSourceBytes : Nat := 10485760
  maxTreeDepth : Nat := 1024
deriving DecidableEq, Repr, Inhabited

/-- How the server is reached. -/
structure ServerSettings where
  port : UInt16 := 3000
deriving DecidableEq, Repr, Inhabited

/-- Everything that can be set. -/
structure Settings where
  /-- The path of the stored results; nothing is stored without one. -/
  cache : Option String := none
  /-- The tag of the language that holds where neither a tag nor a file name tells it. -/
  defaultLanguage : Option String := none
  limits : Limits := {}
  server : ServerSettings := {}
deriving DecidableEq, Repr, Inhabited

end CodeGraph
