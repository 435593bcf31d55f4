import CodeGraph.Fault
import CodeGraph.Text.Blank
import CodeGraph.Text.Percent

/-!
# Where a store is kept

A store is named by the path of its file, or by an address: `file:`, a path with percent escapes, and
parameters behind a question mark, which say how the store may be used. A store may also be kept
nowhere, for one command only. `StoreLocation.ofName` reads a name.
-/

namespace CodeGraph

/-- What may be done with the file of a store. -/
inductive StoreAccess where
  | readOnly
  | readWrite
  /-- The file may also be made. -/
  | create
  /-- There is no file. -/
  | memory
deriving DecidableEq, Repr

namespace StoreAccess

/-- The access that a mode stands for. -/
def ofMode? : String → Option StoreAccess
  | "ro" => some readOnly
  | "rw" => some readWrite
  | "rwc" => some create
  | "memory" => some memory
  | _ => none

/-- How much an access allows. -/
def rank : StoreAccess → Nat
  | readOnly => 0
  | readWrite => 1
  | create => 2
  | memory => 3

/-- Whether an access may take the place of another: it allows no more, or it leaves the file out. -/
def mayReplace (new old : StoreAccess) : Bool := new == memory || new.rank ≤ old.rank

end StoreAccess

/-- Where a store is kept. -/
structure StoreLocation where
  /-- The path of the file; a store for one command has none. -/
  path : Option String
  mayCreate : Bool
  mayWrite : Bool
deriving DecidableEq, Repr

namespace StoreLocation

/-- A text of an address with its escapes read, up to an escaped zero byte. A text that is not UTF-8
then stays as it is. -/
def unescape (cs : List Char) : String :=
  (Text.textOfBytes? ((Text.percentBytes cs).takeWhile (· != 0))).getD (String.ofList cs)

/-- The parameters of an address: names and values in order, without those whose name is empty. -/
def parameters (cs : List Char) : List (String × String) :=
  (Text.splitOn '&' cs).filterMap fun p =>
    let name := unescape (p.takeWhile (· != '='))
    if name.isEmpty then none else some (name, unescape ((p.dropWhile (· != '=')).drop 1))

/-- The access that parameters lead to from another one. The first parameter that cannot be is the
fault. -/
def accessAfter (access : StoreAccess) : List (String × String) → Except StorageFault StoreAccess
  | [] => .ok access
  | ("mode", mode) :: rest =>
    match StoreAccess.ofMode? mode with
    | none => .error (.unknownMode "access" mode)
    | some new => if new.mayReplace access then accessAfter new rest else .error (.modeNotAllowed mode)
  | ("cache", mode) :: rest =>
    if mode = "shared" ∨ mode = "private" then accessAfter access rest
    else .error (.unknownMode "cache" mode)
  | _ :: rest => accessAfter access rest

/-- Whether a value means yes. -/
def isYes (value : String) : Bool :=
  let digits := value.toList.takeWhile Char.isDigit
  if digits.isEmpty then ["on", "yes", "true"].contains value.toLower
  else (digits.foldl (fun n d => 10 * n + (d.toNat - 48)) 0) % 256 != 0

/-- The file systems that keep a store in its file. -/
def fileSystems : List String := ["unix", "unix-none", "unix-dotfile", "unix-excl"]

/-- The file system that keeps a store nowhere. -/
def memorySystem : String := "memdb"

/-- The location of a path with parameters. -/
def ofParts (path : String) (parameters : List (String × String)) :
    Except StorageFault StoreLocation := do
  let access ← accessAfter .create parameters
  let system := (parameters.filter (·.1 == "vfs")).getLast?.map (·.2)
  if let some name := system then
    if name ≠ memorySystem ∧ name ∉ fileSystems then throw (.unknownFileSystem name)
  let mayWrite := access != .readOnly
  if path = "" ∨ path = ":memory:" ∨ access = .memory ∨ system = some memorySystem then
    return ⟨none, false, mayWrite⟩
  let isFixed := (parameters.find? (·.1 == "immutable")).any (isYes ·.2)
  return ⟨some path, access == .create, mayWrite && !isFixed⟩

/-- The location of an address, without the `file:` in front. Of hosts there is only this one. -/
def ofAddress (cs : List Char) : Except StorageFault StoreLocation :=
  let (host, rest) := match cs with
    | '/' :: '/' :: rest =>
      (String.ofList (rest.takeWhile (· != '/')), rest.dropWhile (· != '/'))
    | _ => ("", cs)
  if host ≠ "" ∧ host ≠ "localhost" then .error (.foreignHost host)
  else
    let body := rest.takeWhile (· != '#')
    ofParts (unescape (body.takeWhile (· != '?'))) (parameters ((body.dropWhile (· != '?')).drop 1))

/-- The location that a name stands for. -/
def ofName (name : String) : Except StorageFault StoreLocation :=
  match name.toList with
  | 'f' :: 'i' :: 'l' :: 'e' :: ':' :: address => ofAddress address
  | _ => ofParts name []

end StoreLocation

end CodeGraph
