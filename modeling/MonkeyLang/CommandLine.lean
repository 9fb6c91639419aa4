import MonkeyLang.Prompt

/-!
# The command line

`eval SOURCE` runs a text, `file PATH` a file, and `repl` a prompt.  A text or file that is
refused ends with exit code 1.
-/

namespace MonkeyLang

inductive Command where
  | eval (source : String)
  | file (path : String)
  | repl
  deriving DecidableEq

/-- how a command ended and what it wrote -/
structure Report where
  code : UInt32
  written : Transcript
  deriving DecidableEq

namespace Command

/-- the command that arguments spell; `--` says that the next one is no option -/
def ofArgs? : List String → Option Command
  | ["eval", "--", source] => some (eval source)
  | ["file", "--", path] => some (file path)
  | [_, "--"] => none
  | ["eval", source] => some (eval source)
  | ["file", path] => some (file path)
  | ["repl"] => some repl
  | _ => none

/-- the report on the result of one run -/
def report (result : Except RunError (Option Value)) : Report :=
  match result with
  | .ok _ => ⟨0, Prompt.report result⟩
  | .error _ => ⟨1, Prompt.report result⟩

/-- carries a command out, given how files are read and what the input holds; nothing if calls
nest deeper than `depth` -/
def run (depth : Nat) (read : String → Except ReadFailure ByteArray) (input : List UInt8) :
    Command → Option Report
  | eval source => do
    let (result, _) ← Session.start.run depth source
    return report result
  | file path => do
    let (result, _) ← Session.start.runFile depth path (read path)
    return report result
  | repl => do
    let written ← Prompt.run depth input
    return ⟨0, written⟩

end Command

end MonkeyLang
