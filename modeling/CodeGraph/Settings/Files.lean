import CodeGraph.Settings.Toml
import CodeGraph.Text.Blank

/-!
# The files of a project

The settings stand in a file of their own, the stored results in a directory that version control
should ignore. A file is given as its text, or as missing.
-/

namespace CodeGraph

/-- Why the file of the settings cannot be read or written. -/
inductive SettingsFault where
  | alreadyThere (path : String)
  /-- A limit does not fit into a number of the file. -/
  | limitTooLarge
  /-- The text is not TOML, or not TOML of settings. -/
  | malformed
deriving DecidableEq, Repr

/-- The wording of a fault. -/
def SettingsFault.message : SettingsFault → String
  | alreadyThere path => "config already exists at " ++ path ++ " (use --force to overwrite)"
  | limitTooLarge => "out-of-range value for u64 type"
  | malformed => "TOML parse error"

namespace Settings

/-- The file that settings are kept in. -/
def fileName : String := "asgraph.toml"

/-- The settings of a file; none where it is missing. -/
def load : Option String → Except SettingsFault (Option Settings)
  | none => .ok none
  | some text =>
    match ofToml? text with
    | some s => .ok (some s)
    | none => .error .malformed

/-- Write settings to a file, in any monad that tells whether it is there and takes its new bytes. A file
that is there is written over only where `force` is set. -/
def write {m : Type → Type} [Monad m] (isThere : m Bool) (writeFile : ByteArray → m Unit)
    (path : String) (s : Settings) (force : Bool) : m (Except SettingsFault Unit) := do
  if (← isThere) && !force then return .error (.alreadyThere path)
  match s.toToml? with
  | none => return .error .limitTooLarge
  | some text =>
    writeFile text.toUTF8
    return .ok ()

/-- Write settings to a file: what comes of it, and the bytes of the file afterwards. -/
def save (file : Option ByteArray) (path : String) (s : Settings) (force : Bool) :
    Except SettingsFault Unit × Option ByteArray :=
  let written : StateM (Option ByteArray) (Except SettingsFault Unit) :=
    write (return (← get).isSome) (fun bytes => set (some bytes)) path s force
  written.run file

end Settings

/-- A path within a directory. -/
def joinPath (base name : String) : String :=
  if base.isEmpty then name
  else if base.toList.getLast? = some '/' then base ++ name
  else base ++ "/" ++ name

/-- Where the results of a project are stored. -/
def defaultCachePath (base : String) : String :=
  joinPath (joinPath base ".asgraph") "cache.db"

/-- The file of the names that version control ignores. -/
def ignoreFileName : String := ".gitignore"

/-- The line that has the stored results ignored. -/
def ignoredEntry : String := ".asgraph/"

/-- Whether a line of a text is the entry, white space around it apart. -/
def hasIgnoredEntry (text : String) : Bool :=
  (Text.splitOn '\n' text.toList).any fun line => Text.trim (String.ofList line) == ignoredEntry

/-- The text with the entry as a line of its own, added at the end where it is not there yet. -/
def ensureIgnored : Option String → String
  | none => ignoredEntry ++ "\n"
  | some text =>
    if hasIgnoredEntry text then text
    else if text.isEmpty || text.toList.getLast? = some '\n' then text ++ ignoredEntry ++ "\n"
    else text ++ "\n" ++ ignoredEntry ++ "\n"

end CodeGraph
