import MonkeyLang.Evaluation
import MonkeyLang.Program.Recovery

/-!
# Sessions

A session runs one text after the other in the same global scope.  A text with a character
outside ASCII or with broken statements is refused whole and changes nothing.  What goes wrong
while a text runs is handed out as a value, and the bindings made before it stay.
-/

namespace MonkeyLang

/-! ## refusals -/

/-- why a file could not be read -/
inductive ReadFailure where
  | system (code : Nat) (reason : String)
  | notUtf8
  deriving DecidableEq

namespace ReadFailure

def missing : ReadFailure := .system 2 "No such file or directory"

def directory : ReadFailure := .system 21 "Is a directory"

def message : ReadFailure → String
  | system code reason => s!"{reason} (os error {code})"
  | notUtf8 => "stream did not contain valid UTF-8"

end ReadFailure

inductive RunError where
  | unreadable (path : String) (failure : ReadFailure)
  | lex (e : LexError)
  | parse (errors : List SyntaxError)
  | runtime (e : RuntimeError)
  deriving DecidableEq

def RunError.message : RunError → String
  | unreadable path failure =>
    s!"InternalError: Failed open source file {path}: {failure.message}"
  | lex e => s!"Lex error: {e.message}"
  | parse errors => "Parser errors:\n" ++ "\n".intercalate (errors.map fun e => "\t" ++ e.message)
  | runtime e => s!"Runtime error: {e.message}"

/-! ## sessions -/

structure Session where
  store : Store
  scope : ScopeId
  deriving DecidableEq

namespace Session

/-- a session in which nothing is bound -/
def start : Session :=
  let (scope, store) := Store.empty.newScope none
  ⟨store, scope⟩

def get? (s : Session) (x : String) : Option Value := s.store.get? s.scope x

/-- runs a text; nothing if calls nest deeper than `depth` -/
def run (depth : Nat) (source : String) (s : Session) :
    Option (Except RunError (Option Value) × Session) :=
  match Program.ofSource source with
  | .error e => some (.error (.lex e), s)
  | .ok ⟨program, []⟩ => do
    let (result, store) ← (program.eval depth s.scope s.store).settle
    return (.ok result, { s with store })
  | .ok ⟨_, errors⟩ => some (.error (.parse errors), s)

/-- the text of a file -/
def decode (contents : Except ReadFailure ByteArray) : Except ReadFailure String := do
  match String.fromUTF8? (← contents) with
  | some text => .ok text
  | none => .error .notUtf8

/-- runs the contents of a file; here an error that the text ends with is no value -/
def runFile (depth : Nat) (path : String) (contents : Except ReadFailure ByteArray)
    (s : Session) : Option (Except RunError (Option Value) × Session) :=
  match decode contents with
  | .error failure => some (.error (.unreadable path failure), s)
  | .ok source =>
    match s.run depth source with
    | some (.ok (some (.error e)), s) => some (.error (.runtime e), s)
    | other => other

end Session

end MonkeyLang
