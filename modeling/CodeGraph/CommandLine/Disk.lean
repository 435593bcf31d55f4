import CodeGraph.CommandLine.Host
import CodeGraph.CommandLine.Path

/-!
# Disks in memory

A `Disk` is a host that touches nothing outside itself: directories and files by the names that lead to
them from the root, and a directory to run in. A store on a disk is not a file of bytes, so no bytes
are mistaken for a store. Nobody listens to the network of a disk.
-/

namespace CodeGraph.CommandLine

/-- A file. -/
inductive DiskFile where
  | bytes (content : ByteArray)
  | store (s : ResultStore)
  /-- A device with nothing in it, where all that is written is lost. -/
  | sink
  /-- The standard input. -/
  | input

/-- What is in a file to someone who looks for a store. -/
def DiskFile.asStore : DiskFile → StoreFile
  | bytes content => if StoreFile.isBlank content then .blank else .other
  | store s => .store s
  | sink | input => .blank

/-- Directories with all that is in them. -/
structure Disk where
  /-- The names of the directory that commands run in. -/
  home : List String
  files : List (List String × DiskFile)
  /-- The directories, those apart that the home lies in. -/
  directories : List (List String)
  /-- What is left of the standard input. -/
  input : ByteArray
  time : Int

namespace Disk

/-- Directories that are on every disk. -/
def usualDirectories : List (List String) :=
  [["bin"], ["boot"], ["dev"], ["dev", "fd"], ["dev", "pts"], ["dev", "shm"], ["etc"], ["home"],
    ["lib"], ["lib64"], ["media"], ["mnt"], ["opt"], ["proc"], ["proc", "self"], ["root"], ["run"],
    ["sbin"], ["srv"], ["sys"], ["tmp"], ["usr"], ["usr", "bin"], ["usr", "include"], ["usr", "lib"],
    ["usr", "local"], ["usr", "local", "bin"], ["usr", "local", "lib"], ["usr", "sbin"],
    ["usr", "share"], ["usr", "src"], ["var"], ["var", "cache"], ["var", "lib"], ["var", "log"],
    ["var", "spool"], ["var", "tmp"]]

/-- Devices that are on every disk. -/
def usualDevices : List (List String × DiskFile) :=
  [(["dev", "null"], .sink), (["dev", "stdin"], .input)]

/-- A disk with an empty home. -/
def withHome (home : List String) (time : Int) : Disk :=
  ⟨home, usualDevices, usualDirectories, ByteArray.empty, time⟩

/-- What is at a path. -/
inductive Entry where
  | directory
  | file (f : DiskFile)
  | nothing

/-- What some names lead to. -/
def look (d : Disk) (p : List String) : Entry :=
  if p.isPrefixOf d.home ∨ p ∈ d.directories then .directory
  else
    match d.files.find? (·.1 == p) with
    | some (_, f) => .file f
    | none => .nothing

/-- The longest name of a file, in bytes. -/
def maxNameBytes : Nat := 255

/-- The longest path, in bytes. -/
def maxPathBytes : Nat := 4095

/-- Follow some names from a directory on. All but the last must lead to directories. -/
def follow (d : Disk) (dir : List String) : List String → Except FileFault (List String)
  | [] => .ok dir
  | name :: rest =>
    if name = "" ∨ name = "." then follow d dir rest
    else if name = ".." then follow d dir.dropLast rest
    else if maxNameBytes < name.utf8ByteSize then .error .nameTooLong
    else if rest.isEmpty then .ok (dir ++ [name])
    else
      match d.look (dir ++ [name]) with
      | .directory => follow d (dir ++ [name]) rest
      | .file _ => .error .notDirectory
      | .nothing => .error .missing

/-- Whether a path can be one at all. -/
def checkPath (path : String) : Except FileFault Unit :=
  if path.toList.contains '\x00' then .error .zeroByte
  else if path.isEmpty then .error .missing
  else if maxPathBytes < path.utf8ByteSize then .error .nameTooLong
  else .ok ()

/-- The directory that a path starts from. -/
def start (d : Disk) (path : String) : List String := if isAbsolute path then [] else d.home

/-- The place of a path. -/
def resolve (d : Disk) (path : String) : Except FileFault (List String) := do
  checkPath path
  d.follow (d.start path) (namesOf path)

/-- What is at a path. -/
def lookAt (d : Disk) (path : String) : Except FileFault Entry := (d.resolve path).map d.look

/-- Whether there is something at a path. -/
def isThere (d : Disk) (path : String) : Bool :=
  match d.lookAt path with
  | .ok .directory | .ok (.file _) => true
  | _ => false

/-- Find a file. -/
def find (d : Disk) (path : String) : Except FileFault DiskFile := do
  match ← d.lookAt path with
  | .directory => throw .isDirectory
  | .file f => return f
  | .nothing => throw .missing

/-- What is in a file. -/
def contentOf (d : Disk) : DiskFile → ByteArray
  | .bytes content => content
  | .store s => s.toFile
  | .sink => ByteArray.empty
  | .input => d.input

/-- Read a file. What is read of the standard input is gone. -/
def read (d : Disk) (path : String) : Except FileFault ByteArray × Disk :=
  match d.find path with
  | .error e => (.error e, d)
  | .ok .input => (.ok d.input, { d with input := ByteArray.empty })
  | .ok f => (.ok (d.contentOf f), d)

/-- The place of a file that is to be written. A path that ends in a slash is one of a directory. -/
def resolveNew (d : Disk) (path : String) : Except FileFault (List String) := do
  let file := path.toList.reverse.dropWhile (· == '/')
  if file.length = path.length then d.resolve path
  else
    if !file.isEmpty then discard (d.resolve (String.ofList file.reverse))
    throw .isDirectory

/-- Write a file. -/
def write (d : Disk) (path : String) (f : DiskFile) : Except FileFault Disk := do
  let p ← d.resolveNew path
  match d.look p with
  | .directory => throw .isDirectory
  | .file .sink | .file .input => return d
  | _ => return { d with files := (p, f) :: d.files.filter (·.1 != p) }

/-- Write a store to a file. Devices keep no store. -/
def writeStore (d : Disk) (path : String) (s : ResultStore) : Except FileFault Disk := do
  match ← d.lookAt path with
  | .file .sink | .file .input => throw (.other "Invalid argument (os error 22)")
  | _ => d.write path (.store s)

/-- Remove a file. -/
def remove (d : Disk) (path : String) : Except FileFault Disk := do
  let p ← d.resolve path
  match d.look p with
  | .directory => throw .isDirectory
  | .file _ => return { d with files := d.files.filter (·.1 != p) }
  | .nothing => throw .missing

/-- Make the directories on the way of some names; `made` tells whether some were made before. What
was made stays, also where it does not go on. -/
def makeAlong (d : Disk) (made : Bool) (dir : List String) : List String → Disk × Except FileFault Unit
  | [] => (d, .ok ())
  | name :: rest =>
    if name = "" ∨ name = "." then makeAlong d made dir rest
    else if name = ".." then makeAlong d made dir.dropLast rest
    else if maxNameBytes < name.utf8ByteSize then (d, .error .nameTooLong)
    else
      match d.look (dir ++ [name]) with
      | .directory => makeAlong d made (dir ++ [name]) rest
      | .file _ => (d, .error (if made ∨ rest.isEmpty then .alreadyThere else .notDirectory))
      | .nothing =>
        makeAlong { d with directories := (dir ++ [name]) :: d.directories } true (dir ++ [name]) rest

/-- Make a directory, and those it lies in. -/
def make (d : Disk) (path : String) : Disk × Except FileFault Unit :=
  match checkPath path with
  | .error e => (d, .error e)
  | .ok () => d.makeAlong false (d.start path) (namesOf path)

/-- Go on with a changed disk. -/
def change (r : Except FileFault Disk) : StateM Disk (Except FileFault Unit) :=
  match r with
  | .error e => return .error e
  | .ok d => do
    set d
    return .ok ()

/-- A disk as a host. -/
def host : Host (StateM Disk) where
  readFile path := modifyGet fun d => d.read path
  writeFile path content := do change ((← get).write path (.bytes content))
  removeFile path := do change ((← get).remove path)
  readStore path := return ((← get).find path).map DiskFile.asStore
  writeStore path s := do change ((← get).writeStore path s)
  isThere path := return (← get).isThere path
  makeDirectories path := modifyGet fun d => (d.make path).swap
  readInput := modifyGet fun d => (d.input, { d with input := ByteArray.empty })
  currentDirectory := return pathOfNames (← get).home
  now := return (← get).time
  serve _ := return .error (.other "Network is unreachable (os error 101)")

end Disk

end CodeGraph.CommandLine
