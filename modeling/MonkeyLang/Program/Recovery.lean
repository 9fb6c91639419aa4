import MonkeyLang.Program.Parser
import MonkeyLang.Token.Lexer

/-!
# Programs with broken statements

`Program.parse` reads one statement after the other.  A broken one is reported and dropped, and
the reading goes on where `resume` says: after the first `;` outside any block, or after the `}`
that closes the last block of the statement, with a `;` that follows it.  A `}` does not end the
statement when an `else`, a binary operator or an opening bracket comes next.
-/

namespace MonkeyLang

/-- how many blocks are open after a token, when `depth` are open before it -/
def Token.depthAfter (depth : Nat) : Token → Nat
  | .symbol .lbrace => depth + 1
  | .symbol .rbrace => depth - 1
  | _ => depth

/-- what follows the `}` of a block belongs to the same statement -/
def continues : List Token → Bool
  | .keyword .elseKw :: _ => true
  | .symbol .lparen :: _ => true
  | .symbol s :: _ => (BinaryOp.ofSymbol? s).isSome
  | _ => false

/-- whether a dropped statement ends with the token `t`, which leaves `depth` blocks open -/
def endsDropped (depth : Nat) (t : Token) (rest : List Token) : Bool :=
  depth == 0 && (t == .symbol .semicolon || (t == .symbol .rbrace && !continues rest))

/-- where the next statement starts, after the last token `t` of a dropped one -/
def afterDropped (t : Token) (rest : List Token) : List Token :=
  match t, rest with
  | .symbol .rbrace, .symbol .semicolon :: rest => rest
  | _, rest => rest

/-- the tokens after a broken statement, of which `read` tokens have been looked at; its end is
looked for from the last of these on -/
def resume (read depth : Nat) : List Token → List Token
  | [] => []
  | t :: rest =>
    let depth := t.depthAfter depth
    if read ≤ 1 ∧ endsDropped depth t rest then afterDropped t rest
    else resume (read - 1) depth rest

theorem length_afterDropped_le (t : Token) (rest : List Token) :
    (afterDropped t rest).length ≤ rest.length := by
  unfold afterDropped
  split <;> simp

theorem length_resume_le (read depth : Nat) (t : Token) (ts : List Token) :
    (resume read depth (t :: ts)).length ≤ ts.length := by
  induction ts generalizing read depth t with
  | nil =>
    have h := length_afterDropped_le t []
    simp only [resume]
    split
    · exact h
    · simp
  | cons u us ih =>
    rw [resume]
    split
    · exact length_afterDropped_le t (u :: us)
    · exact Nat.le_succ_of_le (ih _ _ u)

/-! ## programs -/

/-- the statements that could be read, and what was wrong with the others -/
structure ParsedProgram where
  program : Program
  errors : List SyntaxError
  deriving DecidableEq

namespace Program

def parse (ts : List Token) : ParsedProgram :=
  match ts with
  | [] => ⟨[], []⟩
  | t :: rest =>
    match Parser.statement (t :: rest) with
    | .ok s =>
      let others := parse s.rest
      ⟨s.value :: others.program, others.errors⟩
    | .error failure =>
      let read := (t :: rest).length - failure.unread.length
      let others := parse (resume read 0 (t :: rest))
      ⟨others.program, failure.error :: others.errors⟩
termination_by ts.length
decreasing_by
  · exact s.shorter
  · exact Nat.lt_succ_of_le (length_resume_le _ _ t rest)

/-- the program of a text -/
def ofSource (source : String) : Except LexError ParsedProgram :=
  (tokenize source).map parse

end Program

end MonkeyLang
