import CodeGraph.Cache.File
import CodeGraph.Settings.Files

/-!
# Hosts

A `Host` is what a command needs of the system it runs on: files by path, the standard input, the
directory it runs in, and the time. Commands are written for any host.
-/

namespace CodeGraph.CommandLine

/-- Why the system refuses an access to a file. -/
inductive FileFault where
  | missing
  /-- There is something else where a directory is to be made. -/
  | alreadyThere
  | notDirectory
  | isDirectory
  | nameTooLong
  /-- There is a zero byte in the path. -/
  | zeroByte
  /-- Any other cause, in the words of the system. -/
  | other (text : String)
deriving DecidableEq, Repr

/-- The wording of a fault. -/
def FileFault.message : FileFault → String
  | missing => "No such file or directory (os error 2)"
  | alreadyThere => "File exists (os error 17)"
  | notDirectory => "Not a directory (os error 20)"
  | isDirectory => "Is a directory (os error 21)"
  | nameTooLong => "File name too long (os error 36)"
  | zeroByte => "file name contained an unexpected NUL byte"
  | other text => text

/-- The system that commands run on. -/
structure Host (m : Type → Type) where
  readFile : String → m (Except FileFault ByteArray)
  writeFile : String → ByteArray → m (Except FileFault Unit)
  removeFile : String → m (Except FileFault Unit)
  /-- Read a file as a store of results. -/
  readStore : String → m (Except FileFault StoreFile)
  /-- Write a store of results to a file. -/
  writeStore : String → ResultStore → m (Except FileFault Unit)
  /-- Whether there is a file or a directory at a path. -/
  isThere : String → m Bool
  /-- Make a directory, and those it lies in. -/
  makeDirectories : String → m (Except FileFault Unit)
  /-- What is left of the standard input. -/
  readInput : m ByteArray
  currentDirectory : m String
  /-- The time in seconds. -/
  now : m Int
  /-- Serve the web interface at a port. -/
  serve : Nat → m (Except FileFault Unit)

/-- Why a command fails. -/
inductive Failure where
  | request (fault : Fault)
  | settings (fault : SettingsFault)
  /-- The settings name no language by their default. -/
  | badDefaultLanguage (tag : String)
  | file (fault : FileFault)
  /-- A file or the standard input is not UTF-8. -/
  | notText
  /-- A source cannot be read. -/
  | source (path : String) (cause : Failure)
  | input (cause : Failure)
deriving Repr

/-- The wording of a failure, with its causes. -/
def Failure.message : Failure → String
  | request (.storage cause) =>
    (Fault.storage cause).message ++ ": " ++ cause.summary ++ ": " ++ cause.detail
  | request fault => fault.message
  | settings fault => fault.message
  | badDefaultLanguage tag =>
    "invalid default_language in config: " ++ (Fault.unsupportedLanguage tag).message
  | file fault => fault.message
  | notText => "stream did not contain valid UTF-8"
  | source path cause => "failed to read " ++ path ++ ": " ++ cause.message
  | input cause => "failed to read stdin: " ++ cause.message

/-- What a command has written so far: the standard output and the error output. -/
structure Output where
  out : String
  err : String
deriving DecidableEq, Repr

/-- A command on a host. -/
abbrev Job (m : Type → Type) := ExceptT Failure (StateT Output m)

namespace Job

variable {m : Type → Type} [Monad m]

/-- Something that the host does. -/
def host {α : Type} (x : m α) : Job m α := ExceptT.lift (StateT.lift x)

/-- Something that the host does, or refuses. -/
def access {α : Type} (x : m (Except FileFault α)) : Job m α := do
  match ← host x with
  | .ok a => return a
  | .error fault => throw (.file fault)

/-- Go on with a value, or fail. -/
def ofExcept {ε α : Type} (cause : ε → Failure) : Except ε α → Job m α
  | .ok a => return a
  | .error e => throw (cause e)

/-- Write a line to the standard output. -/
def printLine (line : String) : Job m Unit :=
  modify fun o => { o with out := o.out ++ line ++ "\n" }

/-- Write a line to the error output. -/
def tellLine (line : String) : Job m Unit :=
  modify fun o => { o with err := o.err ++ line ++ "\n" }

/-- A text in UTF-8. -/
def text (bytes : ByteArray) : Job m String :=
  match String.fromUTF8? bytes with
  | some s => return s
  | none => throw .notText

/-- Give the failure of an action a context. -/
def within {α : Type} (context : Failure → Failure) (x : Job m α) : Job m α :=
  ExceptT.adapt context x

end Job

end CodeGraph.CommandLine
