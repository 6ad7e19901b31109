import ClassAudit.Command.Run
import Std.Time.DateTime.Timestamp

/-! # The program

    Standard input lists the paths that a command may look at, one to a line, up to an empty line or
    the end. The lines behind the empty one are answers to questions, in order. What a command
    prints goes to standard output, its log to standard error.
-/

namespace ClassAudit.Program

def chomp (line : String) : String :=
  String.ofList (line.toList.filter (· != '\n'))

partial def readLines (input : IO.FS.Stream) (lines : List String) : IO (List String) := do
  let line ← input.getLine
  if line.isEmpty then return lines.reverse else readLines input (chomp line :: lines)

/-- The tree with a file or a directory as it is on disk. A path that cannot be read as a file is
    taken for a directory. -/
def addPath (t : FileTree) (path : String) : IO FileTree := do
  try
    let bytes ← IO.FS.readBinFile path
    let (t, _) := t.makeDirectories (Path.directory path)
    return (t.write path bytes.toList).toOption.getD t
  catch _ => return (t.makeDirectories path).1

def readEnvironment : IO Environment.Variables := do
  let names := [Config.classesVariable, Config.testClassesVariable, Config.policyVariable]
  names.mapM fun name => return ((name : ByteString), ByteString.ofString ((← IO.getEnv name).getD ""))

def now : IO Timestamp := do
  let nanoseconds := (← Std.Time.Timestamp.now).toNanosecondsSinceUnixEpoch.val.toNat
  return .ofSeconds (nanoseconds / 1000000000) (nanoseconds % 1000000000)

/-- Answers to questions, one to a line. There have to be enough of them. -/
def answer (lines : List String) (questions : List Question) :
    Except String (List (String × String)) :=
  if lines.length < questions.length then .error "prompt cancelled"
  else .ok ((questions.map Question.key).zip lines)

/-- Runs a command on the listed files, and writes what it has changed. Help needs no files. -/
def run (args : List String) : IO UInt32 := do
  let isCommand := (args.head?.bind Command.ofName?).isSome
  let lines ← if isCommand then readLines (← IO.getStdin) [] else pure []
  let (paths, rest) := lines.span (· != "")
  let tree ← paths.foldlM addPath (FileTree.empty ["project"])
  let o := Command.runArguments ⟨← readEnvironment, ← now, answer (rest.drop 1)⟩ tree args
  for (path, bytes) in o.tree.writtenSince tree do
    IO.FS.writeBinFile path.shown bytes
  IO.print o.outputText
  IO.eprint o.logText
  match o.failure with
  | none => return 0
  | some e =>
    IO.eprint (Outcome.logEntry e.message)
    return 1

end ClassAudit.Program

def main (args : List String) : IO UInt32 :=
  ClassAudit.Program.run args
