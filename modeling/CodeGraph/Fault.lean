import CodeGraph.Cache.Kind
import CodeGraph.Language

/-!
# Faults

Why a request can fail. `Fault.message` is the wording of each cause, and `Fault.isClient` tells
the faults of a request from those of the system that serves it.
-/

namespace CodeGraph

/-- Why the store of results cannot be used. -/
inductive StorageFault where
  /-- The file holds something else. -/
  | notDatabase
  /-- There is no file at the path, and none can be made. -/
  | cannotOpen (path : String)
  /-- A change needs a file beside the store, which cannot be opened. -/
  | cannotOpenBeside
  /-- What an unfinished change has left beside the store cannot be read. -/
  | cannotRead
  /-- What an unfinished change has left beside the store cannot be removed. -/
  | cannotRemove
  /-- The store lies on a device that keeps nothing. -/
  | cannotFlush
  /-- The store is only to be read. -/
  | readOnly
  /-- The address asks for a mode of some kind that there is not. -/
  | unknownMode (kind mode : String)
  /-- The address asks for more access than it has asked for before. -/
  | modeNotAllowed (mode : String)
  /-- There is no file system of the name that the address asks for. -/
  | unknownFileSystem (name : String)
  /-- The address is one of another machine. -/
  | foreignHost (host : String)
deriving DecidableEq, Repr

namespace StorageFault

/-- What the store says, without its error code. -/
def summary : StorageFault → String
  | notDatabase => "file is not a database"
  | cannotOpen path => "unable to open database file: " ++ path
  | cannotOpenBeside => "unable to open database file"
  | cannotRead | cannotRemove | cannotFlush => "disk I/O error"
  | readOnly => "attempt to write a readonly database"
  | unknownMode kind mode => "no such " ++ kind ++ " mode: " ++ mode
  | modeNotAllowed mode => "access mode not allowed: " ++ mode
  | unknownFileSystem name => "no such vfs: " ++ name
  | foreignHost host => "invalid uri authority: " ++ host

/-- The error code of the store, in words. -/
def detail : StorageFault → String
  | notDatabase => "Error code 26: File opened that is not a database file"
  | cannotOpen _ | cannotOpenBeside => "Error code 14: Unable to open the database file"
  | cannotRead => "Error code 266: Error reading from disk"
  | cannotRemove =>
    "Error code 2570: I/O error within xDelete of a VFS object (trying to delete a file)"
  | cannotFlush => "Error code 1034: Error flushing data to persistent storage (fsync)"
  | readOnly => "Error code 8: Attempt to write a readonly database"
  | unknownMode .. | unknownFileSystem _ | foreignHost _ =>
    "Error code 1: SQL error or missing database"
  | modeNotAllowed _ => "Error code 3: Access permission denied"

end StorageFault

/-- Why there is no tree of a source. -/
inductive MissingTree where
  /-- The parser gave none. -/
  | notParsed (language : Language)
  /-- The walk over the parser's tree has left no node. -/
  | empty
deriving DecidableEq, Repr

/-- The wording of a missing tree. -/
def MissingTree.summary : MissingTree → String
  | notParsed language => "Parser returned no tree for " ++ language.name ++ " source"
  | empty => "empty syntax tree"

/-- Why a request fails. -/
inductive Fault where
  /-- The tag names no language, or names one without a grammar. -/
  | unsupportedLanguage (tag : String)
  /-- The bytes of a node do not lie in the source, or are not text. -/
  | badText (start stop : Nat)
  /-- One of two results to compare was read back from the store, without its parse. -/
  | treesMissing
  /-- The two results to compare are of different languages. -/
  | languagesDiffer (old new : Language)
  /-- There is no tree of the source. -/
  | noTree (cause : MissingTree)
  /-- The source has more bytes than the limit. -/
  | sourceTooLong (size limit : Nat)
  /-- The tree has more levels than the limit. -/
  | treeTooDeep (limit : Nat)
  /-- A stored result was asked for, and there is no store. -/
  | noStore
  /-- No result of the kind is stored for the digest. -/
  | notStored (kind : ResultKind) (digest : String)
  /-- The store failed. -/
  | storage (cause : StorageFault)
  /-- A stored payload is not the JSON of a result. -/
  | badPayload
deriving DecidableEq, Repr

namespace Fault

/-- The wording of a fault. -/
def message : Fault → String
  | unsupportedLanguage tag => "Unsupported language: " ++ tag
  | badText start stop =>
    "Source bytes " ++ start.repr ++ ".." ++ stop.repr ++ " are not valid UTF-8"
  | treesMissing => "Diff unavailable: both inputs must retain their parsed trees"
  | languagesDiffer old new =>
    "Diff unavailable: cannot diff " ++ old.name ++ " against " ++ new.name
  | noTree cause => "Parse error: " ++ cause.summary
  | sourceTooLong size limit =>
    "Limit exceeded: source is " ++ size.repr ++ " bytes, limit is " ++ limit.repr
  | treeTooDeep limit => "Limit exceeded: syntax tree deeper than " ++ limit.repr ++ " levels"
  | noStore => "Not cached: no result cache configured"
  | notStored kind digest => "Not cached: no " ++ kind.name ++ " result for " ++ digest
  | storage cause => "Storage error: " ++ cause.summary
  | badPayload => "Serialization error"

/-- Whether the request is at fault, and not the system. -/
def isClient : Fault → Bool
  | noTree _ | storage _ | badPayload => false
  | _ => true

/-- Whether a stored result was asked for that is not there. -/
def isNotStored : Fault → Bool
  | noStore | notStored _ _ => true
  | _ => false

end Fault

end CodeGraph
