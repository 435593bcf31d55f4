import CodeGraph.CommandLine.Commands
import Std.Time.DateTime.Timestamp

/-!
# The program

`main` runs the command line on the real system. No grammars are built in, so no source can be parsed
until a parser is given to `CommandLine.execute`; everything else works.
-/

namespace CodeGraph.CommandLine

/-- The cause of an error of the system. -/
def causeOf (e : IO.Error) : FileFault :=
  match e with
  | .noFileOrDirectory .. | .noSuchThing .. => .missing
  | .inappropriateType _ code _ => if code = 20 then .notDirectory else .isDirectory
  | e => .other (toString e)

/-- Something that the system does, or refuses. -/
def attempt {α : Type} (x : IO α) : IO (Except FileFault α) := do
  try return .ok (← x)
  catch e => return .error (causeOf e)

/-- Read a stream to its end. -/
partial def readAll (input : IO.FS.Stream) (before : ByteArray) : IO ByteArray := do
  let bytes ← input.read 65536
  if bytes.isEmpty then return before else readAll input (before ++ bytes)

/-- The real system. -/
def system : Host IO where
  readFile path := attempt (IO.FS.readBinFile path)
  writeFile path content := attempt (IO.FS.writeBinFile path content)
  removeFile path := attempt (IO.FS.removeFile path)
  readStore path := attempt do return StoreFile.ofBytes (← IO.FS.readBinFile path)
  writeStore path store := attempt (IO.FS.writeBinFile path store.toFile)
  isThere path := do return (← attempt (IO.FS.withFile path .read fun _ => return ())).toOption.isSome
  makeDirectories path := attempt (IO.FS.createDirAll path)
  readInput := do readAll (← IO.getStdin) ByteArray.empty
  currentDirectory := do return toString (← IO.currentDir)
  now := do return (← Std.Time.Timestamp.now).toSecondsSinceUnixEpoch.val
  serve _ := return .error (.other "Function not implemented (os error 38)")

/-- The parser without grammars. -/
def noGrammars : Parser := ⟨fun _ _ _ => none, fun _ _ => []⟩

end CodeGraph.CommandLine

/-- Run the program. -/
def main (args : List String) : IO UInt32 := do
  let ending ← CodeGraph.CommandLine.execute CodeGraph.CommandLine.system
    CodeGraph.CommandLine.noGrammars args
  (← IO.getStdout).putStr ending.output.out
  (← IO.getStderr).putStr ending.output.err
  return ending.code.toUInt32
