import CodeGraph.Cache.Location
import CodeGraph.CommandLine.Host
import CodeGraph.CommandLine.Path

/-!
# Stores in use

`openStore` opens the store of a name, and makes it where it is missing; `OpenStore.save` keeps what is
in it. A change of a store is told beforehand in its journal, a file beside the store that is removed
when the change is done. A store whose journal cannot be made cannot be changed. What unfinished
changes have left beside a store, a journal or a log, is removed when the store is opened.
-/

namespace CodeGraph.CommandLine

open Job

variable {m : Type → Type} [Monad m] (h : Host m)

/-- The longest path of a store, in bytes. -/
def maxStorePathBytes : Nat := 504

/-- The journal of a store. -/
def journalOf (file : String) : String := file ++ "-journal"

/-- The log of a store. -/
def logOf (file : String) : String := file ++ "-wal"

/-- A store in use; one that is kept for one command has no file. -/
structure OpenStore where
  file : Option String
  mayWrite : Bool
  store : ResultStore

/-- Write a store to its file, told beforehand in its journal. -/
def writeStore (file : String) (store : ResultStore) : Job m (Except StorageFault Unit) := do
  match ← host (h.writeFile (journalOf file) ByteArray.empty) with
  | .error _ => return .error .cannotOpenBeside
  | .ok () =>
    let written ← host (h.writeStore file store)
    discard (host (h.removeFile (journalOf file)))
    return written.mapError fun _ => .cannotFlush

/-- Keep what is in a store now. -/
def OpenStore.save (s : OpenStore) : Job m (Except StorageFault Unit) :=
  match s.file with
  | none => return .ok ()
  | some file => if s.mayWrite then writeStore h file s.store else return .error .readOnly

/-- Remove what is left beside a file that holds nothing yet. -/
def clearBesideBlank (file : String) : Job m (Except StorageFault Unit) := do
  if let .ok journal ← host (h.readFile (journalOf file)) then
    if !journal.isEmpty then discard (host (h.removeFile (journalOf file)))
  match ← host (h.readFile (logOf file)) with
  | .ok log =>
    if !log.isEmpty then discard (host (h.removeFile (logOf file)))
    return .ok ()
  | .error .isDirectory => return .error .cannotRemove
  | .error _ => return .ok ()

/-- Remove what is left beside a file with something in it. A journal that starts with a zero byte is of
a change that is done. -/
def clearBeside (file : String) : Job m (Except StorageFault Unit) := do
  match ← host (h.readFile (journalOf file)) with
  | .error .isDirectory => return .error .cannotRead
  | .ok journal =>
    if journal.data.toList.head?.any (· != 0) then discard (host (h.removeFile (journalOf file)))
  | .error _ => pure ()
  match ← host (h.readFile (logOf file)) with
  | .error .isDirectory => return .error .cannotOpenBeside
  | _ => return .ok ()

/-- Make a store of a file that holds nothing yet. -/
def openBlank (file : String) (mayWrite : Bool) : Job m (Except StorageFault OpenStore) := do
  match ← clearBesideBlank h file with
  | .error e => return .error e
  | .ok () =>
    let s : OpenStore := ⟨some file, mayWrite, ∅⟩
    return (← s.save h).map fun _ => s

/-- Open the store in a file; `name` is what the file is called where it cannot be opened. -/
def openFile (name file : String) (mayCreate mayWrite : Bool) :
    Job m (Except StorageFault OpenStore) := do
  match ← host (h.readStore file) with
  | .ok .blank => openBlank h file mayWrite
  | .ok found =>
    match ← clearBeside h file, found with
    | .error e, _ => return .error e
    | .ok (), .store store => return .ok ⟨some file, mayWrite, store⟩
    | .ok (), _ => return .error .notDatabase
  | .error .missing =>
    if !mayCreate then return .error (.cannotOpen name)
    match ← host (h.writeFile file ByteArray.empty) with
    | .error _ => return .error (.cannotOpen name)
    | .ok () => openBlank h file mayWrite
  | .error _ => return .error (.cannotOpen name)

/-- Open the store of a name, and make it where it is missing. -/
def openStore (name : String) : Job m (Except StorageFault OpenStore) := do
  if name.toList.contains '\x00' then return .error (.cannotOpen name)
  match StoreLocation.ofName name with
  | .error e => return .error e
  | .ok ⟨none, _, mayWrite⟩ =>
    return if mayWrite then .ok ⟨none, true, ∅⟩ else .error .readOnly
  | .ok ⟨some path, mayCreate, mayWrite⟩ =>
    let file := plainPath (← host h.currentDirectory) path
    if maxStorePathBytes < file.utf8ByteSize then return .error (.cannotOpen name)
    openFile h name file mayCreate mayWrite

end CodeGraph.CommandLine
