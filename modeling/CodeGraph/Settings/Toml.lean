import CodeGraph.Settings.Basic
import CodeGraph.Toml.Reader

/-!
# Settings as TOML

Settings are read from a TOML document: keys that mean nothing here are passed over, and what is missing
has its default. The limits and the settings of the server may also be arrays of their parts. `toToml?`
writes all settings that are set; TOML has no integers of more than sixty-three bits.
-/

namespace CodeGraph

open Toml (Value Entries)

namespace Settings

/-- A text. -/
def textOf? : Value → Option String
  | .string s => some s
  | _ => none

/-- A natural number below a bound. -/
def naturalOf? (bound : Nat) : Value → Option Nat
  | .integer n => if 0 ≤ n ∧ n < bound then some n.toNat else none
  | _ => none

/-- The value of a key, read where the key is there. -/
def entry? {α : Type} (entries : Entries) (key : String) (default : α)
    (read : Value → Option α) : Option α :=
  match Toml.lookup? key entries with
  | none => some default
  | some v => read v

/-- The parts of a record with the names `keys`: by name from a table, and in order from an array. A
time is read as a table that has none of them. -/
def parts? (keys : List String) : Value → Option (List (Option Value))
  | .table _ entries => some (keys.map fun key => Toml.lookup? key entries)
  | .array items => some (keys.zipIdx.map fun p => items[p.2]?)
  | .tables elements =>
    some (keys.zipIdx.map fun p => elements[p.2]?.map fun entries => .table .headed entries)
  | .time _ => some (keys.map fun _ => none)
  | _ => none

/-- A part, read where it is there. -/
def part? {α : Type} (default : α) (read : Value → Option α) : Option Value → Option α
  | none => some default
  | some v => read v

/-- The limits of a value. -/
def limitsOf? (v : Value) : Option Limits :=
  match parts? ["max_source_bytes", "max_tree_depth"] v with
  | some [bytes, depth] => do
    let bytes ← part? ({} : Limits).maxSourceBytes (naturalOf? UInt64.size) bytes
    let depth ← part? ({} : Limits).maxTreeDepth (naturalOf? UInt64.size) depth
    return ⟨bytes, depth⟩
  | _ => none

/-- The settings of the server of a value. -/
def serverOf? (v : Value) : Option ServerSettings :=
  match parts? ["port"] v with
  | some [port] =>
    (part? ({} : ServerSettings).port (fun v => (naturalOf? UInt16.size v).map UInt16.ofNat) port).map
      ServerSettings.mk
  | _ => none

/-- The settings of a document. -/
def ofEntries? (entries : Entries) : Option Settings := do
  let cache ← entry? entries "cache" none fun v => (textOf? v).map some
  let language ← entry? entries "default_language" none fun v => (textOf? v).map some
  let limits ← entry? entries "limits" {} limitsOf?
  let server ← entry? entries "server" {} serverOf?
  return ⟨cache, language, limits, server⟩

/-- The settings of a text. -/
def ofToml? (text : String) : Option Settings := (Toml.read? text).bind ofEntries?

/-- One line of a document. -/
def line (key : String) (value : List Char) : List Char :=
  key.toList ++ ' ' :: '=' :: ' ' :: (value ++ ['\n'])

/-- The line of a text that may be missing. -/
def textLine (key : String) : Option String → List Char
  | none => []
  | some s => line key (Toml.quote s.toList)

/-- The line of a number. -/
def numberLine (key : String) (n : Nat) : List Char := line key (Nat.toDigits 10 n)

/-- The header of a table. -/
def header (key : String) : List Char := '[' :: (key.toList ++ [']', '\n'])

/-- The texts that are set, and a blank line behind them. -/
def texts (s : Settings) : List Char :=
  let lines := textLine "cache" s.cache ++ textLine "default_language" s.defaultLanguage
  if lines.isEmpty then [] else lines ++ ['\n']

/-- The document of settings whose numbers TOML has. -/
def toTomlChars (s : Settings) : List Char :=
  s.texts ++
    (header "limits" ++ numberLine "max_source_bytes" s.limits.maxSourceBytes ++
      numberLine "max_tree_depth" s.limits.maxTreeDepth) ++
    '\n' :: (header "server" ++ numberLine "port" s.server.port.toNat)

/-- Whether TOML has the numbers of some settings. -/
def isWritable (s : Settings) : Bool :=
  s.limits.maxSourceBytes < 1 <<< 63 && s.limits.maxTreeDepth < 1 <<< 63

/-- The document of settings; none where a limit is too large for TOML. -/
def toToml? (s : Settings) : Option String :=
  if s.isWritable then some (String.ofList s.toTomlChars) else none

end Settings

end CodeGraph
