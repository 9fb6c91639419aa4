import MonkeyLang.Program
import MonkeyLang.Program.SyntaxError

/-!
# Reading statements and expressions off a list of tokens

* `Parsed α bound`   something that was read, with the tokens after it, fewer than `bound`;
* `Failure`          what was wrong, with the tokens that have not been looked at: an unexpected
                     token is still unread, a token that starts no expression counts as read;
* `Parser.expr`      an expression whose operators bind tighter than a given level: an operand
                     (`Parser.operand`) and all that may follow it (`Parser.operators`);
* `Parser.statement`, `Parser.block`  statements, alone and up to the brace that closes a block.

Every function gives back fewer tokens than it was given (`Parser.operators` not more), which is
why the reading ends.
-/

namespace MonkeyLang

/-! ## results -/

structure Parsed (α : Type) (bound : Nat) where
  value : α
  rest : List Token
  shorter : rest.length < bound

theorem Parsed.length_rest_lt {α : Type} {bound : Nat} (p : Parsed α bound) :
    p.rest.length < bound := p.shorter

grind_pattern Parsed.length_rest_lt => p.rest

/-- the same with a larger bound -/
def Parsed.within {α : Type} {m n : Nat} (p : Parsed α m) (h : m ≤ n) : Parsed α n :=
  ⟨p.value, p.rest, Nat.lt_of_lt_of_le p.shorter h⟩

structure Failure where
  error : SyntaxError
  unread : List Token
  deriving DecidableEq

namespace Parser

abbrev Result (α : Type) (ts : List Token) := Except Failure (Parsed α ts.length)

/-! ## single tokens -/

/-- one given symbol -/
def symbol (s : Symbol) (ts : List Token) : Result Unit ts :=
  match ts with
  | .symbol s' :: rest =>
    if s' = s then .ok ⟨(), rest, Nat.lt_succ_self _⟩
    else .error ⟨.unexpected (.symbol s) (.symbol s'), .symbol s' :: rest⟩
  | ts => .error ⟨.unexpected (.symbol s) (.ofFirst ts), ts⟩

/-- any name -/
def name (ts : List Token) : Result String ts :=
  match ts with
  | .name x :: rest => .ok ⟨x, rest, Nat.lt_succ_self _⟩
  | ts => .error ⟨.unexpected .name (.ofFirst ts), ts⟩

/-- the end of a `let` or `return`: a semicolon, or the end of the block or of the input -/
def terminator (ts : List Token) : Except Failure (Parsed Unit (ts.length + 1)) :=
  match ts with
  | [] => .ok ⟨(), [], Nat.lt_succ_self _⟩
  | .symbol .semicolon :: rest => .ok ⟨(), rest, Nat.lt_succ_of_lt (Nat.lt_succ_self _)⟩
  | .symbol .rbrace :: rest => .ok ⟨(), .symbol .rbrace :: rest, Nat.lt_succ_self _⟩
  | t :: rest => .error ⟨.unexpected (.symbol .semicolon) t.kind, t :: rest⟩

/-- a semicolon that may be missing -/
def optionalSemicolon (ts : List Token) : Parsed Unit (ts.length + 1) :=
  match ts with
  | .symbol .semicolon :: rest => ⟨(), rest, Nat.lt_succ_of_lt (Nat.lt_succ_self _)⟩
  | ts => ⟨(), ts, Nat.lt_succ_self _⟩

/-! ## parameters -/

/-- the parameters after the first one, up to the closing bracket -/
def moreParams (ts : List Token) : Result (List String) ts :=
  match ts with
  | .symbol .comma :: rest => do
    let x ← name rest
    let xs ← moreParams x.rest
    return ⟨x.value :: xs.value, xs.rest, by grind⟩
  | ts => do
    let close ← symbol .rparen ts
    return ⟨[], close.rest, close.shorter⟩
termination_by ts.length
decreasing_by grind

/-- the parameters of a function after its opening bracket, up to the closing one -/
def params (ts : List Token) : Result (List String) ts :=
  match ts with
  | .symbol .rparen :: rest => .ok ⟨[], rest, Nat.lt_succ_self _⟩
  | ts => do
    let x ← name ts
    let xs ← moreParams x.rest
    return ⟨x.value :: xs.value, xs.rest, by grind⟩

/-! ## expressions and statements -/

mutual

/-- an expression whose operators all bind tighter than `level` -/
def expr (level : Nat) (ts : List Token) : Result Expr ts := do
  let first ← operand ts
  let whole ← operators level first.value first.rest
  return whole.within first.shorter
termination_by 4 * ts.length + 1
decreasing_by all_goals grind

/-- what stands before, between and after operators -/
def operand (ts : List Token) : Result Expr ts :=
  match ts with
  | .name x :: rest => .ok ⟨.name x, rest, Nat.lt_succ_self _⟩
  | .number digits :: rest =>
    match Integer.ofDigits? digits with
    | some n => .ok ⟨.int n, rest, Nat.lt_succ_self _⟩
    | none => .error ⟨.tooLarge digits, rest⟩
  | .keyword .trueKw :: rest => .ok ⟨.bool true, rest, Nat.lt_succ_self _⟩
  | .keyword .falseKw :: rest => .ok ⟨.bool false, rest, Nat.lt_succ_self _⟩
  | .symbol .bang :: rest => do
    let e ← expr unaryLevel rest
    return ⟨.unary .not e.value, e.rest, by grind⟩
  | .symbol .minus :: rest => do
    let e ← expr unaryLevel rest
    return ⟨.unary .neg e.value, e.rest, by grind⟩
  | .symbol .lparen :: rest => do
    let e ← expr 0 rest
    let close ← symbol .rparen e.rest
    return ⟨e.value, close.rest, by grind⟩
  | .keyword .ifKw :: rest => do
    let opening ← symbol .lparen rest
    let test ← expr 0 opening.rest
    let close ← symbol .rparen test.rest
    let brace ← symbol .lbrace close.rest
    let body ← block brace.rest
    let whole ← alternative test.value body.value body.rest
    return ⟨whole.value, whole.rest, by grind⟩
  | .keyword .fnKw :: rest => do
    let opening ← symbol .lparen rest
    let xs ← params opening.rest
    let brace ← symbol .lbrace xs.rest
    let body ← block brace.rest
    return ⟨.func xs.value body.value, body.rest, by grind⟩
  | [] => .error ⟨.noExpression .eof, []⟩
  | t :: rest => .error ⟨.noExpression t.kind, rest⟩
termination_by 4 * ts.length
decreasing_by all_goals grind

/-- the `else` of a conditional, which may be missing -/
def alternative (test : Expr) (body : Block) (ts : List Token) :
    Except Failure (Parsed Expr (ts.length + 1)) :=
  match ts with
  | .keyword .elseKw :: rest => do
    let brace ← symbol .lbrace rest
    let other ← block brace.rest
    return ⟨.cond test body (some other.value), other.rest, by grind⟩
  | ts => .ok ⟨.cond test body none, ts, Nat.lt_succ_self _⟩
termination_by 4 * ts.length
decreasing_by all_goals grind

/-- the operators and calls that follow `left`, as far as they bind tighter than `level` -/
def operators (level : Nat) (left : Expr) (ts : List Token) :
    Except Failure (Parsed Expr (ts.length + 1)) :=
  match ts with
  | .symbol .lparen :: rest => do
    let args ← arguments rest
    let whole ← operators level (.call left args.value) args.rest
    return whole.within (by grind)
  | .symbol s :: rest =>
    match BinaryOp.ofSymbol? s with
    | some op =>
      if level < op.level then do
        let right ← expr op.level rest
        let whole ← operators level (.binary left op right.value) right.rest
        return whole.within (by grind)
      else .ok ⟨left, .symbol s :: rest, Nat.lt_succ_self _⟩
    | none => .ok ⟨left, .symbol s :: rest, Nat.lt_succ_self _⟩
  | ts => .ok ⟨left, ts, Nat.lt_succ_self _⟩
termination_by 4 * ts.length
decreasing_by all_goals grind

/-- the arguments of a call after its opening bracket, up to the closing one -/
def arguments (ts : List Token) : Result (List Expr) ts :=
  match ts with
  | .symbol .rparen :: rest => .ok ⟨[], rest, Nat.lt_succ_self _⟩
  | ts => do
    let e ← expr 0 ts
    let es ← moreArguments e.rest
    return ⟨e.value :: es.value, es.rest, by grind⟩
termination_by 4 * ts.length + 2
decreasing_by all_goals grind

/-- the arguments after the first one, up to the closing bracket -/
def moreArguments (ts : List Token) : Result (List Expr) ts :=
  match ts with
  | .symbol .comma :: rest => do
    let e ← expr 0 rest
    let es ← moreArguments e.rest
    return ⟨e.value :: es.value, es.rest, by grind⟩
  | ts => do
    let close ← symbol .rparen ts
    return ⟨[], close.rest, close.shorter⟩
termination_by 4 * ts.length
decreasing_by all_goals grind

/-- the statements of a block after its opening brace, up to the closing one -/
def block (ts : List Token) : Result Block ts :=
  match ts with
  | [] => .error ⟨.unexpected (.symbol .rbrace) .eof, []⟩
  | .symbol .rbrace :: rest => .ok ⟨[], rest, Nat.lt_succ_self _⟩
  | ts => do
    let s ← statement ts
    let ss ← block s.rest
    return ⟨s.value :: ss.value, ss.rest, by grind⟩
termination_by 4 * ts.length + 3
decreasing_by all_goals grind

def statement (ts : List Token) : Result Stmt ts :=
  match ts with
  | .keyword .letKw :: rest => do
    let x ← name rest
    let sign ← symbol .assign x.rest
    let e ← expr 0 sign.rest
    let stop ← terminator e.rest
    return ⟨.bind x.value e.value, stop.rest, by grind⟩
  | .keyword .returnKw :: rest => do
    let e ← expr 0 rest
    let stop ← terminator e.rest
    return ⟨.ret e.value, stop.rest, by grind⟩
  | ts => do
    let e ← expr 0 ts
    let stop := optionalSemicolon e.rest
    return ⟨.expr e.value, stop.rest, by grind⟩
termination_by 4 * ts.length + 2
decreasing_by all_goals grind

end

end Parser

end MonkeyLang
