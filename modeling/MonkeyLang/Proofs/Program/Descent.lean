import MonkeyLang.Program.Parser

/-!
# Reading expressions layer by layer

A second way to read expressions, which knows no levels: every layer of operators is a loop of its
own over operands of the next layer.

* `equality`    comparisons with `==` and `!=` between them;
* `comparison`  sums with `<` and `>` between them;
* `sum`         products with `+` and `-` between them;
* `product`     unary expressions with `*` and `/` between them;
* `unary`       any number of `!` and `-` before a call;
* `call`        a primary with any number of argument lists behind it;
* `primary`     a name, a number, a truth value, an expression in brackets, a conditional or a
                function.

The first four are one definition, `layer`, with the operators of each in `Layer.operator?`.  What
stands in brackets, in arguments and in blocks is read in the same way.
-/

namespace MonkeyLang.Descent

open MonkeyLang.Parser (Result symbol name params terminator optionalSemicolon)

/-- the layers of binary operators, the loosest first -/
inductive Layer where
  | equality | comparison | sum | product
  deriving DecidableEq

namespace Layer

/-- the operators of a layer -/
def operator? : Layer → Symbol → Option BinaryOp
  | equality, .equal => some .equal
  | equality, .notEqual => some .notEqual
  | comparison, .less => some .less
  | comparison, .greater => some .greater
  | sum, .plus => some .add
  | sum, .minus => some .sub
  | product, .star => some .mul
  | product, .slash => some .div
  | _, _ => none

/-- how far up a layer stands, for the descent to end -/
def height : Layer → Nat
  | equality => 10
  | comparison => 8
  | sum => 6
  | product => 4

end Layer

mutual

/-- operands of the next layer with the operators of this one between them, taken to the left -/
def layer (l : Layer) (ts : List Token) : Result Expr ts := do
  let first ← inner l ts
  let whole ← loop l first.value first.rest
  return whole.within first.shorter
termination_by 16 * ts.length + l.height
decreasing_by
  all_goals cases l <;> grind [Layer.height]

/-- the next layer -/
def inner (l : Layer) (ts : List Token) : Result Expr ts :=
  match l with
  | .equality => layer .comparison ts
  | .comparison => layer .sum ts
  | .sum => layer .product ts
  | .product => unary ts
termination_by 16 * ts.length + l.height - 1
decreasing_by all_goals grind [Layer.height]

/-- the operators of a layer that follow `left`, each with its right operand -/
def loop (l : Layer) (left : Expr) (ts : List Token) :
    Except Failure (Parsed Expr (ts.length + 1)) :=
  match ts with
  | .symbol s :: rest =>
    match l.operator? s with
    | some op => do
      let right ← inner l rest
      let whole ← loop l (.binary left op right.value) right.rest
      return whole.within (Nat.le_succ_of_le (Nat.le_succ_of_le right.shorter))
    | none => .ok ⟨left, .symbol s :: rest, Nat.lt_succ_self _⟩
  | ts => .ok ⟨left, ts, Nat.lt_succ_self _⟩
termination_by 16 * ts.length
decreasing_by all_goals cases l <;> grind [Layer.height]

def unary (ts : List Token) : Result Expr ts :=
  match ts with
  | .symbol .bang :: rest => do
    let e ← unary rest
    return ⟨.unary .not e.value, e.rest, Nat.lt_succ_of_lt e.shorter⟩
  | .symbol .minus :: rest => do
    let e ← unary rest
    return ⟨.unary .neg e.value, e.rest, Nat.lt_succ_of_lt e.shorter⟩
  | ts => call ts
termination_by 16 * ts.length + 2
decreasing_by all_goals grind

def call (ts : List Token) : Result Expr ts := do
  let first ← primary ts
  let whole ← calls first.value first.rest
  return whole.within first.shorter
termination_by 16 * ts.length + 1
decreasing_by all_goals grind

/-- the argument lists that follow `callee` -/
def calls (callee : Expr) (ts : List Token) : Except Failure (Parsed Expr (ts.length + 1)) :=
  match ts with
  | .symbol .lparen :: rest => do
    let args ← arguments rest
    let whole ← calls (.call callee args.value) args.rest
    return whole.within (Nat.le_succ_of_le (Nat.le_succ_of_le args.shorter))
  | ts => .ok ⟨callee, ts, Nat.lt_succ_self _⟩
termination_by 16 * ts.length
decreasing_by all_goals grind

def primary (ts : List Token) : Result Expr ts :=
  match ts with
  | .name x :: rest => .ok ⟨.name x, rest, Nat.lt_succ_self _⟩
  | .number digits :: rest =>
    match Integer.ofDigits? digits with
    | some n => .ok ⟨.int n, rest, Nat.lt_succ_self _⟩
    | none => .error ⟨.tooLarge digits, rest⟩
  | .keyword .trueKw :: rest => .ok ⟨.bool true, rest, Nat.lt_succ_self _⟩
  | .keyword .falseKw :: rest => .ok ⟨.bool false, rest, Nat.lt_succ_self _⟩
  | .symbol .lparen :: rest => do
    let e ← layer .equality rest
    let close ← symbol .rparen e.rest
    return ⟨e.value, close.rest, Nat.lt_succ_of_lt (Nat.lt_trans close.shorter e.shorter)⟩
  | .keyword .ifKw :: rest => do
    let opening ← symbol .lparen rest
    let test ← layer .equality opening.rest
    let close ← symbol .rparen test.rest
    let brace ← symbol .lbrace close.rest
    let body ← block brace.rest
    let whole ← alternative test.value body.value body.rest
    return ⟨whole.value, whole.rest, Nat.lt_of_lt_of_le whole.shorter (Nat.succ_le_succ
      (Nat.le_of_lt (Nat.lt_trans body.shorter (Nat.lt_trans brace.shorter
        (Nat.lt_trans close.shorter (Nat.lt_trans test.shorter opening.shorter))))))⟩
  | .keyword .fnKw :: rest => do
    let opening ← symbol .lparen rest
    let xs ← params opening.rest
    let brace ← symbol .lbrace xs.rest
    let body ← block brace.rest
    return ⟨.func xs.value body.value, body.rest, Nat.lt_succ_of_lt (Nat.lt_trans body.shorter
      (Nat.lt_trans brace.shorter (Nat.lt_trans xs.shorter opening.shorter)))⟩
  | [] => .error ⟨.noExpression .eof, []⟩
  | t :: rest => .error ⟨.noExpression t.kind, rest⟩
termination_by 16 * ts.length
decreasing_by all_goals grind [Layer.height]

def alternative (test : Expr) (body : Block) (ts : List Token) :
    Except Failure (Parsed Expr (ts.length + 1)) :=
  match ts with
  | .keyword .elseKw :: rest => do
    let brace ← symbol .lbrace rest
    let other ← block brace.rest
    return ⟨.cond test body (some other.value), other.rest,
      Nat.lt_succ_of_lt (Nat.lt_succ_of_lt (Nat.lt_trans other.shorter brace.shorter))⟩
  | ts => .ok ⟨.cond test body none, ts, Nat.lt_succ_self _⟩
termination_by 16 * ts.length
decreasing_by all_goals grind

def arguments (ts : List Token) : Result (List Expr) ts :=
  match ts with
  | .symbol .rparen :: rest => .ok ⟨[], rest, Nat.lt_succ_self _⟩
  | ts => do
    let e ← layer .equality ts
    let es ← moreArguments e.rest
    return ⟨e.value :: es.value, es.rest, Nat.lt_trans es.shorter e.shorter⟩
termination_by 16 * ts.length + 11
decreasing_by all_goals grind [Layer.height]

def moreArguments (ts : List Token) : Result (List Expr) ts :=
  match ts with
  | .symbol .comma :: rest => do
    let e ← layer .equality rest
    let es ← moreArguments e.rest
    return ⟨e.value :: es.value, es.rest, Nat.lt_succ_of_lt (Nat.lt_trans es.shorter e.shorter)⟩
  | ts => do
    let close ← symbol .rparen ts
    return ⟨[], close.rest, close.shorter⟩
termination_by 16 * ts.length
decreasing_by all_goals grind [Layer.height]

def block (ts : List Token) : Result Block ts :=
  match ts with
  | [] => .error ⟨.unexpected (.symbol .rbrace) .eof, []⟩
  | .symbol .rbrace :: rest => .ok ⟨[], rest, Nat.lt_succ_self _⟩
  | ts => do
    let s ← statement ts
    let ss ← block s.rest
    return ⟨s.value :: ss.value, ss.rest, Nat.lt_trans ss.shorter s.shorter⟩
termination_by 16 * ts.length + 12
decreasing_by all_goals grind

def statement (ts : List Token) : Result Stmt ts :=
  match ts with
  | .keyword .letKw :: rest => do
    let x ← name rest
    let sign ← symbol .assign x.rest
    let e ← layer .equality sign.rest
    let stop ← terminator e.rest
    return ⟨.bind x.value e.value, stop.rest, Nat.lt_of_lt_of_le stop.shorter (Nat.succ_le_succ
      (Nat.le_of_lt (Nat.lt_trans e.shorter (Nat.lt_trans sign.shorter x.shorter))))⟩
  | .keyword .returnKw :: rest => do
    let e ← layer .equality rest
    let stop ← terminator e.rest
    return ⟨.ret e.value, stop.rest,
      Nat.lt_of_lt_of_le stop.shorter (Nat.succ_le_succ (Nat.le_of_lt e.shorter))⟩
  | ts => do
    let e ← layer .equality ts
    let stop := optionalSemicolon e.rest
    return ⟨.expr e.value, stop.rest, Nat.lt_of_lt_of_le stop.shorter e.shorter⟩
termination_by 16 * ts.length + 11
decreasing_by all_goals grind [Layer.height]

end

end MonkeyLang.Descent
