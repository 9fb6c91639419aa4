import MonkeyLang.Session
import MonkeyLang.Text.Blank

/-!
# The prompt

A prompt runs its input line by line in one session.  Values go to the output, refusals to the
error output.  A line that is not UTF-8 is refused too, and the next one is read.
-/

namespace MonkeyLang

/-- what has been written to the output and to the error output -/
structure Transcript where
  out : String
  err : String
  deriving DecidableEq

instance : Append Transcript := ⟨fun a b => ⟨a.out ++ b.out, a.err ++ b.err⟩⟩

namespace Prompt

def cue : String := ">> "

def farewell : String := "\nExited zmonkey repl\n"

/-- the lines of an input without their line ends; there is no empty line at the very end -/
def lines : List UInt8 → List (List UInt8)
  | [] => []
  | b :: bs =>
    if b = 10 then [] :: lines bs
    else
      match lines bs with
      | [] => [[b]]
      | l :: ls => (b :: l) :: ls

/-- what is written for the result of a run -/
def report : Except RunError (Option Value) → Transcript
  | .ok none => ⟨"", ""⟩
  | .ok (some v) => ⟨v.text ++ "\n", ""⟩
  | .error e => ⟨"", e.message ++ "\n"⟩

/-- runs one line -/
def answer (depth : Nat) (line : List UInt8) (s : Session) : Option (Transcript × Session) :=
  match String.fromUTF8? ⟨line.toArray⟩ with
  | none => some (⟨"", s!"Failed read line: {ReadFailure.notUtf8.message}\n"⟩, s)
  | some text => do
    let (result, s) ← s.run depth (String.ofList (trimBlank text.toList))
    return (report result, s)

/-- runs lines one after the other, each after its cue, and says farewell -/
def runLines (depth : Nat) : List (List UInt8) → Session → Option Transcript
  | [], _ => some ⟨cue ++ farewell, ""⟩
  | line :: rest, s => do
    let (written, s) ← answer depth line s
    let others ← runLines depth rest s
    return ⟨cue, ""⟩ ++ written ++ others

def run (depth : Nat) (input : List UInt8) : Option Transcript :=
  runLines depth (lines input) Session.start

end Prompt

end MonkeyLang
