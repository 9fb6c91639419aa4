import MonkeyLang.CommandLine

/-!
# The program

Reads the command line, the files and the input, and writes what a command answers.  The prompt
answers each line before it reads the next one.
-/

namespace MonkeyLang.Main

/-- why the system did not let a file be read -/
def readFailure : IO.Error → ReadFailure
  | .noFileOrDirectory .. => .missing
  | .permissionDenied .. => .system 13 "Permission denied"
  | .inappropriateType _ 21 _ => .directory
  | .inappropriateType .. => .system 20 "Not a directory"
  | e => .system 5 (toString e)

def readFile (path : String) : IO (Except ReadFailure ByteArray) := do
  try
    return .ok (← IO.FS.readBinFile path)
  catch e =>
    return .error (readFailure e)

/-- the bytes of a line without its end, nothing at the end of the input -/
partial def readLine (input : IO.FS.Stream) : IO (Option (List UInt8)) :=
  go #[]
where
  go (line : Array UInt8) : IO (Option (List UInt8)) := do
    match (← input.read 1).toList with
    | [] => return if line.isEmpty then none else some line.toList
    | b :: _ => if b = 10 then return some line.toList else go (line.push b)

def write (written : Transcript) : IO Unit := do
  (← IO.getStdout).putStr written.out
  (← IO.getStdout).flush
  (← IO.getStderr).putStr written.err

/-- the end of a run whose calls nest too deep -/
def giveUp : IO UInt32 := do
  (← IO.getStderr).putStrLn "calls nest too deep"
  return 134

partial def prompt (s : Session) : IO UInt32 := do
  write ⟨Prompt.cue, ""⟩
  match ← readLine (← IO.getStdin) with
  | none =>
    write ⟨Prompt.farewell, ""⟩
    return 0
  | some line =>
    match Prompt.answer unlimitedDepth line s with
    | none => giveUp
    | some (written, s) =>
      write written
      prompt s

def usage : String := "usage: eval SOURCE | file PATH | repl"

/-- what a command reads before it starts -/
def contents : Command → IO (Except ReadFailure ByteArray)
  | .file path => readFile path
  | _ => return .error .missing

def runCommand (command : Command) : IO UInt32 := do
  let file ← contents command
  match command.run unlimitedDepth (fun _ => file) [] with
  | none => giveUp
  | some report =>
    write report.written
    return report.code

def run (args : List String) : IO UInt32 := do
  match Command.ofArgs? args with
  | none =>
    (← IO.getStderr).putStrLn usage
    return 2
  | some .repl => prompt Session.start
  | some command => runCommand command

end MonkeyLang.Main

def main (args : List String) : IO UInt32 := MonkeyLang.Main.run args
