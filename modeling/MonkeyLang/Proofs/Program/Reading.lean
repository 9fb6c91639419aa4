import MonkeyLang.Program.Recovery

/-!
# The parser without the bounds in its results

`Parser.readExpr`, `Parser.readBlock` and the others are the functions of the parser with a pair
for a result, what was read and the tokens after it, in place of a `Parsed` that knows the length
of its input.  There is one equation for each way a function can go, and later proofs rewrite with
these and never unfold the parser.

* `Parser.afterSymbol`, `Parser.afterTerminator`   single tokens, where only the rest matters;
* `Parser.startsExpr t`       an expression may start with the token `t`;
* `Parser.tighter level ts`   the first of `ts` continues an expression at `level`;
* `Parser.Stops ts`, `Parser.AtEnd ts`   where an expression ends, and where the last statement of
                              a block or of the input ends;
* `Program.parse_of_ok`, `Program.parse_of_error`   one statement of a program.
-/

namespace MonkeyLang

/-- the symbol of a unary operator -/
def UnaryOp.symbol : UnaryOp → Symbol
  | not => .bang
  | neg => .minus

def Keyword.ofBool : Bool → Keyword
  | true => .trueKw
  | false => .falseKw

namespace Parser

/-! ## results as pairs -/

section Views
variable {α β : Type} {m n : Nat}

/-- what was read and the tokens after it -/
def view (r : Except Failure (Parsed α m)) : Except Failure (α × List Token) :=
  r.map fun p => (p.value, p.rest)

/-- the tokens after what was read -/
def restOf (r : Except Failure (Parsed α m)) : Except Failure (List Token) :=
  r.map Parsed.rest

theorem view_bind {x : Except Failure (Parsed α m)} {f : Parsed α m → Except Failure (Parsed β n)}
    {g : α × List Token → Except Failure (β × List Token)}
    (h : ∀ p, view (f p) = g (p.value, p.rest)) : view (x >>= f) = view x >>= g := by
  cases x with
  | error failure => rfl
  | ok p => exact h p

theorem view_bind_restOf {x : Except Failure (Parsed α m)}
    {f : Parsed α m → Except Failure (Parsed β n)}
    {g : List Token → Except Failure (β × List Token)}
    (h : ∀ p, view (f p) = g p.rest) : view (x >>= f) = restOf x >>= g := by
  cases x with
  | error failure => rfl
  | ok p => exact h p

/-- a last step that only widens the bound -/
theorem view_bind_pure {x : Except Failure (Parsed α m)} {f : Parsed α m → Parsed α n}
    (h : ∀ p, ((f p).value, (f p).rest) = (p.value, p.rest)) :
    view (x >>= fun p => pure (f p)) = view x := by
  cases x with
  | error failure => rfl
  | ok p => exact congrArg Except.ok (h p)

theorem ok_bind {γ δ : Type} (a : γ) (f : γ → Except Failure δ) :
    (Except.ok a >>= f) = f a := rfl

/-- a computation that ends well ends well at each of its steps -/
theorem bind_eq_ok {γ δ : Type} {x : Except Failure γ} {f : γ → Except Failure δ} {b : δ}
    (h : x >>= f = .ok b) : ∃ a, x = .ok a ∧ f a = .ok b := by
  cases x with
  | error failure => cases h
  | ok a => exact ⟨a, rfl, h⟩

/-- a computation that fails fails at one of its steps -/
theorem bind_eq_error {γ δ : Type} {x : Except Failure γ} {f : γ → Except Failure δ}
    {failure : Failure} (h : x >>= f = .error failure) :
    x = .error failure ∨ ∃ a, x = .ok a ∧ f a = .error failure := by
  cases x with
  | error _ =>
    cases h
    exact .inl rfl
  | ok a => exact .inr ⟨a, rfl, h⟩

theorem length_of_view {x : Except Failure (Parsed α m)} {a : α} {rest : List Token}
    (h : view x = .ok (a, rest)) : rest.length < m := by
  cases x with
  | error failure => cases h
  | ok p =>
    cases h
    exact p.shorter

end Views

def afterSymbol (s : Symbol) (ts : List Token) : Except Failure (List Token) :=
  restOf (symbol s ts)

def afterTerminator (ts : List Token) : Except Failure (List Token) := restOf (terminator ts)

def readName (ts : List Token) : Except Failure (String × List Token) := view (name ts)

def readMoreParams (ts : List Token) : Except Failure (List String × List Token) :=
  view (moreParams ts)

def readParams (ts : List Token) : Except Failure (List String × List Token) := view (params ts)

def readExpr (level : Nat) (ts : List Token) : Except Failure (Expr × List Token) :=
  view (expr level ts)

def readOperand (ts : List Token) : Except Failure (Expr × List Token) := view (operand ts)

def readAlternative (test : Expr) (body : Block) (ts : List Token) :
    Except Failure (Expr × List Token) := view (alternative test body ts)

def readOperators (level : Nat) (left : Expr) (ts : List Token) :
    Except Failure (Expr × List Token) := view (operators level left ts)

def readArguments (ts : List Token) : Except Failure (List Expr × List Token) :=
  view (arguments ts)

def readMoreArguments (ts : List Token) : Except Failure (List Expr × List Token) :=
  view (moreArguments ts)

def readBlock (ts : List Token) : Except Failure (Block × List Token) := view (block ts)

def readStatement (ts : List Token) : Except Failure (Stmt × List Token) := view (statement ts)

variable {level : Nat} {left : Expr} {ts rest : List Token}

-- inside this namespace `simp` runs the parser on the tokens it is given
attribute [local simp] view Except.map params moreParams expr operand alternative operators
  arguments moreArguments block statement

/-! ## lengths -/

theorem length_readName {x : String} (h : readName ts = .ok (x, rest)) :
    rest.length < ts.length := length_of_view h

theorem length_readParams {xs : List String} (h : readParams ts = .ok (xs, rest)) :
    rest.length < ts.length := length_of_view h

theorem length_readExpr {e : Expr} (h : readExpr level ts = .ok (e, rest)) :
    rest.length < ts.length := length_of_view h

theorem length_readOperand {e : Expr} (h : readOperand ts = .ok (e, rest)) :
    rest.length < ts.length := length_of_view h

theorem length_readArguments {es : List Expr} (h : readArguments ts = .ok (es, rest)) :
    rest.length < ts.length := length_of_view h

theorem length_readBlock {b : Block} (h : readBlock ts = .ok (b, rest)) :
    rest.length < ts.length := length_of_view h

theorem length_readStatement {s : Stmt} (h : readStatement ts = .ok (s, rest)) :
    rest.length < ts.length := length_of_view h

/-! ## single tokens and parameters -/

theorem afterSymbol_self (s : Symbol) (ts : List Token) :
    afterSymbol s (.symbol s :: ts) = .ok ts := by
  simp [afterSymbol, symbol, restOf, Except.map]

theorem eq_of_afterSymbol {s : Symbol} (h : afterSymbol s ts = .ok rest) :
    ts = .symbol s :: rest := by
  unfold afterSymbol symbol restOf at h
  split at h
  case h_1 s' rest' =>
    split at h
    case isTrue hs =>
      cases h
      rw [hs]
    case isFalse => cases h
  case h_2 => cases h

theorem length_afterSymbol {s : Symbol} (h : afterSymbol s ts = .ok rest) :
    rest.length < ts.length := by
  rw [eq_of_afterSymbol h]
  exact Nat.lt_succ_self _

theorem readName_name (x : String) (ts : List Token) : readName (.name x :: ts) = .ok (x, ts) := rfl

theorem eq_of_readName {x : String} (h : readName ts = .ok (x, rest)) : ts = .name x :: rest := by
  unfold readName name view at h
  split at h
  case h_1 => cases h; rfl
  case h_2 => cases h

theorem readMoreParams_comma (ts : List Token) :
    readMoreParams (.symbol .comma :: ts) = (do
      let (x, rest) ← readName ts
      let (xs, rest) ← readMoreParams rest
      return (x :: xs, rest)) := by
  rw [readMoreParams, moreParams]
  exact view_bind fun x => view_bind fun xs => rfl

theorem readMoreParams_of_ne (h : ∀ rest, ts ≠ .symbol .comma :: rest) :
    readMoreParams ts = (do
      let rest ← afterSymbol .rparen ts
      return ([], rest)) := by
  rw [readMoreParams, moreParams]
  · exact view_bind_restOf fun close => rfl
  · exact h

theorem readParams_rparen (ts : List Token) :
    readParams (.symbol .rparen :: ts) = .ok ([], ts) := by
  simp [readParams]

theorem readParams_of_ne (h : ∀ rest, ts ≠ .symbol .rparen :: rest) :
    readParams ts = (do
      let (x, rest) ← readName ts
      let (xs, rest) ← readMoreParams rest
      return (x :: xs, rest)) := by
  rw [readParams, params]
  · exact view_bind fun x => view_bind fun xs => rfl
  · exact h

/-! ## operands -/

/-- an expression may start with the token -/
def startsExpr : Token → Bool
  | .name _ | .number _ => true
  | .symbol .bang | .symbol .minus | .symbol .lparen => true
  | .keyword .trueKw | .keyword .falseKw | .keyword .ifKw | .keyword .fnKw => true
  | _ => false

theorem startsExpr_cases {t : Token} (h : startsExpr t = true) :
    (∃ x, t = .name x) ∨ (∃ digits, t = .number digits) ∨ (∃ b, t = .keyword (.ofBool b)) ∨
      (∃ op, t = .symbol (UnaryOp.symbol op)) ∨ t = .symbol .lparen ∨ t = .keyword .ifKw ∨
        t = .keyword .fnKw := by
  unfold startsExpr at h
  split at h
  case h_1 x => exact .inl ⟨x, rfl⟩
  case h_2 digits => exact .inr (.inl ⟨digits, rfl⟩)
  case h_3 => exact .inr (.inr (.inr (.inl ⟨.not, rfl⟩)))
  case h_4 => exact .inr (.inr (.inr (.inl ⟨.neg, rfl⟩)))
  case h_5 => simp
  case h_6 => exact .inr (.inr (.inl ⟨true, rfl⟩))
  case h_7 => exact .inr (.inr (.inl ⟨false, rfl⟩))
  case h_8 => simp
  case h_9 => simp
  case h_10 => cases h

theorem readExpr_eq (level : Nat) (ts : List Token) :
    readExpr level ts = (do
      let (first, rest) ← readOperand ts
      readOperators level first rest) := by
  rw [readExpr, expr]
  exact view_bind fun first => view_bind_pure fun whole => rfl

theorem readOperand_name (x : String) (ts : List Token) :
    readOperand (.name x :: ts) = .ok (.name x, ts) := by
  simp [readOperand]

theorem readOperand_number {digits : String} {n : Integer} (h : Integer.ofDigits? digits = some n)
    (ts : List Token) : readOperand (.number digits :: ts) = .ok (.int n, ts) := by
  simp [readOperand, h]

theorem readOperand_tooLarge {digits : String} (h : Integer.ofDigits? digits = none)
    (ts : List Token) :
    readOperand (.number digits :: ts) = .error ⟨.tooLarge digits, ts⟩ := by
  simp [readOperand, h]

theorem readOperand_bool (b : Bool) (ts : List Token) :
    readOperand (.keyword (.ofBool b) :: ts) = .ok (.bool b, ts) := by
  cases b <;> simp [readOperand, Keyword.ofBool]

theorem readOperand_unary (op : UnaryOp) (ts : List Token) :
    readOperand (.symbol op.symbol :: ts) = (do
      let (e, rest) ← readExpr unaryLevel ts
      return (.unary op e, rest)) := by
  cases op <;> rw [readOperand, UnaryOp.symbol, operand] <;> exact view_bind fun e => rfl

theorem readOperand_lparen (ts : List Token) :
    readOperand (.symbol .lparen :: ts) = (do
      let (e, rest) ← readExpr 0 ts
      let rest ← afterSymbol .rparen rest
      return (e, rest)) := by
  rw [readOperand, operand]
  exact view_bind fun e => view_bind_restOf fun close => rfl

theorem readOperand_if (ts : List Token) :
    readOperand (.keyword .ifKw :: ts) = (do
      let rest ← afterSymbol .lparen ts
      let (test, rest) ← readExpr 0 rest
      let rest ← afterSymbol .rparen rest
      let rest ← afterSymbol .lbrace rest
      let (body, rest) ← readBlock rest
      readAlternative test body rest) := by
  rw [readOperand, operand]
  exact view_bind_restOf fun opening => view_bind fun test => view_bind_restOf fun close =>
    view_bind_restOf fun brace => view_bind fun body => view_bind_pure fun whole => rfl

theorem readOperand_fn (ts : List Token) :
    readOperand (.keyword .fnKw :: ts) = (do
      let rest ← afterSymbol .lparen ts
      let (xs, rest) ← readParams rest
      let rest ← afterSymbol .lbrace rest
      let (body, rest) ← readBlock rest
      return (.func xs body, rest)) := by
  rw [readOperand, operand]
  exact view_bind_restOf fun opening => view_bind fun xs => view_bind_restOf fun brace =>
    view_bind fun body => rfl

theorem readOperand_nil : readOperand [] = .error ⟨.noExpression .eof, []⟩ := by
  simp [readOperand]

theorem readOperand_of_not_startsExpr {t : Token} (h : startsExpr t = false) (ts : List Token) :
    readOperand (t :: ts) = .error ⟨.noExpression t.kind, ts⟩ := by
  rw [readOperand, operand]
  · rfl
  all_goals
    intros
    subst t
    cases h

theorem startsExpr_of_readOperand {e : Expr} (h : readOperand ts = .ok (e, rest)) :
    ∃ t us, ts = t :: us ∧ startsExpr t = true := by
  cases ts with
  | nil => exact absurd (length_readOperand h) (Nat.not_lt_zero _)
  | cons t us =>
    cases ht : startsExpr t with
    | true => exact ⟨t, us, rfl, ht⟩
    | false =>
      rw [readOperand_of_not_startsExpr ht] at h
      cases h

/-- what is read as an expression starts as one, whatever comes after it -/
theorem append_ne_of_readExpr {w : List Token} {e : Expr} (h : readExpr level w = .ok (e, rest))
    {t : Token} (ht : startsExpr t = false) (ts : List Token) : ∀ us, w ++ ts ≠ t :: us := by
  rw [readExpr_eq] at h
  obtain ⟨⟨first, r⟩, hfirst, -⟩ := bind_eq_ok h
  obtain ⟨t', v, rfl, ht'⟩ := startsExpr_of_readOperand hfirst
  intro us heq
  rw [List.cons_append, List.cons.injEq] at heq
  rw [heq.1, ht] at ht'
  cases ht'

theorem readAlternative_else (test : Expr) (body : Block) (ts : List Token) :
    readAlternative test body (.keyword .elseKw :: ts) = (do
      let rest ← afterSymbol .lbrace ts
      let (other, rest) ← readBlock rest
      return (.cond test body (some other), rest)) := by
  rw [readAlternative, alternative]
  exact view_bind_restOf fun brace => view_bind fun other => rfl

theorem readAlternative_of_ne (test : Expr) (body : Block)
    (h : ∀ rest, ts ≠ .keyword .elseKw :: rest) :
    readAlternative test body ts = .ok (.cond test body none, ts) := by
  rw [readAlternative, alternative]
  · rfl
  · exact h

/-! ## operators and arguments -/

/-- the first token continues an expression whose operators bind tighter than `level` -/
def tighter (level : Nat) : List Token → Bool
  | .symbol .lparen :: _ => true
  | .symbol s :: _ => (BinaryOp.ofSymbol? s).any fun op => level < op.level
  | _ => false

theorem tighter_binary (level : Nat) (op : BinaryOp) (ts : List Token) :
    tighter level (.symbol op.symbol :: ts) = decide (level < op.level) := by
  cases op <;> rfl

theorem tighter_cases (h : tighter level ts = true) :
    (∃ rest, ts = .symbol .lparen :: rest) ∨
      ∃ op rest, ts = .symbol (BinaryOp.symbol op) :: rest ∧ level < op.level := by
  unfold tighter at h
  split at h
  case h_1 rest => exact .inl ⟨rest, rfl⟩
  case h_2 s rest _ =>
    obtain ⟨op, hop, hlt⟩ := (Option.any_eq_true _ _).mp h
    exact .inr ⟨op, rest, by rw [BinaryOp.symbol_of_ofSymbol? hop], of_decide_eq_true hlt⟩
  case h_3 => cases h

theorem tighter_mono {m n : Nat} (h : m ≤ n) (ht : tighter m ts = false) :
    tighter n ts = false := by
  cases hn : tighter n ts with
  | false => rfl
  | true =>
    obtain ⟨rest, rfl⟩ | ⟨op, rest, rfl, hlt⟩ := tighter_cases hn
    · cases ht
    · rw [tighter_binary, decide_eq_false_iff_not] at ht
      exact absurd (Nat.lt_of_le_of_lt h hlt) ht

theorem readOperators_lparen (level : Nat) (left : Expr) (ts : List Token) :
    readOperators level left (.symbol .lparen :: ts) = (do
      let (args, rest) ← readArguments ts
      readOperators level (.call left args) rest) := by
  rw [readOperators, operators]
  exact view_bind fun args => view_bind_pure fun whole => rfl

theorem readOperators_binary {op : BinaryOp} (h : level < op.level) (left : Expr)
    (ts : List Token) :
    readOperators level left (.symbol op.symbol :: ts) = (do
      let (right, rest) ← readExpr op.level ts
      readOperators level (.binary left op right) rest) := by
  rw [readOperators, operators, BinaryOp.ofSymbol?_symbol]
  · simp only [if_pos h]
    exact view_bind fun right => view_bind_pure fun whole => rfl
  · cases op <;> rintro ⟨⟩

theorem readOperators_of_not_tighter (left : Expr) (h : tighter level ts = false) :
    readOperators level left ts = .ok (left, ts) := by
  unfold tighter at h
  split at h
  case h_1 => cases h
  case h_2 s rest hs =>
    rw [readOperators, operators]
    · cases hop : BinaryOp.ofSymbol? s with
      | none => rfl
      | some op =>
        have hle : ¬ level < op.level := by simpa [hop] using h
        simp only [if_neg hle]
        rfl
    · exact hs
  case h_3 hlparen hsymbol =>
    rw [readOperators, operators]
    · rfl
    · exact hlparen
    · exact hsymbol

/-- reading at a higher level first and then at a lower one changes nothing -/
theorem readOperators_absorb {l m : Nat} (h : l ≤ m) (left : Expr) (ts : List Token) :
    (do
      let (e, rest) ← readOperators m left ts
      readOperators l e rest) = readOperators l left ts := by
  induction hn : ts.length using Nat.strongRecOn generalizing ts left with
  | _ n ih =>
    subst hn
    cases hc : tighter m ts with
    | false =>
      rw [readOperators_of_not_tighter _ hc]
      rfl
    | true =>
      -- the operator is read at both levels; what follows its operand is shorter
      obtain ⟨rest, rfl⟩ | ⟨op, rest, rfl, hlt⟩ := tighter_cases hc
      · rw [readOperators_lparen, readOperators_lparen]
        cases ha : readArguments rest with
        | error failure => rfl
        | ok p => exact ih _ (Nat.lt_succ_of_lt (length_readArguments ha)) _ _ rfl
      · rw [readOperators_binary hlt, readOperators_binary (Nat.lt_of_le_of_lt h hlt)]
        cases ha : readExpr op.level rest with
        | error failure => rfl
        | ok p => exact ih _ (Nat.lt_succ_of_lt (length_readExpr ha)) _ _ rfl

theorem readExpr_absorb {l m : Nat} (h : l ≤ m) (ts : List Token) :
    (do
      let (e, rest) ← readExpr m ts
      readOperators l e rest) = readExpr l ts := by
  rw [readExpr_eq, readExpr_eq]
  cases readOperand ts with
  | error failure => rfl
  | ok p => exact readOperators_absorb h p.1 p.2

theorem readArguments_rparen (ts : List Token) :
    readArguments (.symbol .rparen :: ts) = .ok ([], ts) := by
  simp [readArguments]

theorem readArguments_of_ne (h : ∀ rest, ts ≠ .symbol .rparen :: rest) :
    readArguments ts = (do
      let (e, rest) ← readExpr 0 ts
      let (es, rest) ← readMoreArguments rest
      return (e :: es, rest)) := by
  rw [readArguments, arguments]
  · exact view_bind fun e => view_bind fun es => rfl
  · exact h

theorem readMoreArguments_comma (ts : List Token) :
    readMoreArguments (.symbol .comma :: ts) = (do
      let (e, rest) ← readExpr 0 ts
      let (es, rest) ← readMoreArguments rest
      return (e :: es, rest)) := by
  rw [readMoreArguments, moreArguments]
  exact view_bind fun e => view_bind fun es => rfl

theorem readMoreArguments_of_ne (h : ∀ rest, ts ≠ .symbol .comma :: rest) :
    readMoreArguments ts = (do
      let rest ← afterSymbol .rparen ts
      return ([], rest)) := by
  rw [readMoreArguments, moreArguments]
  · exact view_bind_restOf fun close => rfl
  · exact h

/-! ## where expressions and statements end -/

/-- the end of the input, or of the block -/
def AtEnd (ts : List Token) : Prop := ts = [] ∨ ∃ rest, ts = .symbol .rbrace :: rest

/-- no `else` comes next, so that a conditional before it is complete -/
def NoElse (ts : List Token) : Prop := ∀ rest, ts ≠ .keyword .elseKw :: rest

theorem noElse_nil : NoElse [] := by simp [NoElse]

theorem noElse_symbol (s : Symbol) (ts : List Token) : NoElse (.symbol s :: ts) := by
  simp [NoElse]

/-- an expression goes on neither with an operator nor with an `else` -/
structure Stops (ts : List Token) : Prop where
  not_tighter : tighter 0 ts = false
  noElse : NoElse ts

theorem stops_of_atEnd (h : AtEnd ts) : Stops ts := by
  obtain rfl | ⟨rest, rfl⟩ := h
  · exact ⟨rfl, noElse_nil⟩
  · exact ⟨rfl, noElse_symbol _ _⟩

theorem afterTerminator_semicolon (ts : List Token) :
    afterTerminator (.symbol .semicolon :: ts) = .ok ts := rfl

theorem afterTerminator_of_atEnd (h : AtEnd ts) : afterTerminator ts = .ok ts := by
  obtain rfl | ⟨rest, rfl⟩ := h <;> rfl

theorem afterTerminator_cases (h : afterTerminator ts = .ok rest) :
    ts = .symbol .semicolon :: rest ∨ ts = rest ∧ AtEnd rest := by
  unfold afterTerminator terminator restOf at h
  split at h
  case h_1 => cases h; exact .inr ⟨rfl, .inl rfl⟩
  case h_2 => cases h; exact .inl rfl
  case h_3 rest => cases h; exact .inr ⟨rfl, .inr ⟨rest, rfl⟩⟩
  case h_4 => cases h

/-! ## statements and programs -/

/-- what is left of a semicolon that may be missing -/
def skipSemicolon (ts : List Token) : List Token := (optionalSemicolon ts).rest

theorem skipSemicolon_semicolon (ts : List Token) :
    skipSemicolon (.symbol .semicolon :: ts) = ts := rfl

theorem skipSemicolon_of_ne (h : ∀ rest, ts ≠ .symbol .semicolon :: rest) :
    skipSemicolon ts = ts := by
  unfold skipSemicolon optionalSemicolon
  split
  case h_1 rest => exact absurd rfl (h rest)
  case h_2 => rfl

theorem readStatement_let (ts : List Token) :
    readStatement (.keyword .letKw :: ts) = (do
      let (x, rest) ← readName ts
      let rest ← afterSymbol .assign rest
      let (e, rest) ← readExpr 0 rest
      let rest ← afterTerminator rest
      return (.bind x e, rest)) := by
  rw [readStatement, statement]
  exact view_bind fun x => view_bind_restOf fun sign => view_bind fun e =>
    view_bind_restOf fun stop => rfl

theorem readStatement_return (ts : List Token) :
    readStatement (.keyword .returnKw :: ts) = (do
      let (e, rest) ← readExpr 0 ts
      let rest ← afterTerminator rest
      return (.ret e, rest)) := by
  rw [readStatement, statement]
  exact view_bind fun e => view_bind_restOf fun stop => rfl

theorem readStatement_of_ne (hl : ∀ rest, ts ≠ .keyword .letKw :: rest)
    (hr : ∀ rest, ts ≠ .keyword .returnKw :: rest) :
    readStatement ts = (do
      let (e, rest) ← readExpr 0 ts
      return (.expr e, skipSemicolon rest)) := by
  rw [readStatement, statement]
  · exact view_bind fun e => rfl
  · exact hl
  · exact hr

theorem not_atEnd_of_readStatement {s : Stmt} (h : readStatement ts = .ok (s, rest)) :
    ¬ AtEnd ts := by
  rintro (rfl | ⟨us, rfl⟩)
  · exact Nat.not_lt_zero _ (length_readStatement h)
  · rw [readStatement_of_ne (by simp) (by simp), readExpr_eq,
      readOperand_of_not_startsExpr rfl] at h
    cases h

theorem readBlock_nil :
    readBlock [] = .error ⟨.unexpected (.symbol .rbrace) .eof, []⟩ := by
  simp [readBlock]

theorem readBlock_rbrace (ts : List Token) :
    readBlock (.symbol .rbrace :: ts) = .ok ([], ts) := by
  simp [readBlock]

theorem readBlock_of_ne (hn : ts ≠ []) (h : ∀ rest, ts ≠ .symbol .rbrace :: rest) :
    readBlock ts = (do
      let (s, rest) ← readStatement ts
      let (ss, rest) ← readBlock rest
      return (s :: ss, rest)) := by
  rw [readBlock, block]
  · exact view_bind fun s => view_bind fun ss => rfl
  · exact hn
  · exact h

end Parser

namespace Program
variable {ts rest : List Token}

theorem parse_nil : parse [] = ⟨[], []⟩ := by rw [parse]

theorem parse_of_ok {s : Stmt} (h : Parser.readStatement ts = .ok (s, rest)) :
    parse ts = ⟨s :: (parse rest).program, (parse rest).errors⟩ := by
  cases ts with
  | nil => cases Nat.not_lt_zero _ (Parser.length_readStatement h)
  | cons t ts =>
    rw [parse]
    unfold Parser.readStatement at h
    cases hs : Parser.statement (t :: ts) with
    | error failure =>
      rw [hs] at h
      cases h
    | ok p =>
      rw [hs] at h
      cases h
      rfl

/-- an expression that ends the input needs no semicolon -/
theorem parse_of_readExpr {e : Expr} (h : Parser.readExpr 0 ts = .ok (e, [])) :
    parse ts = ⟨[.expr e], []⟩ := by
  have hne : ∀ t, Parser.startsExpr t = false → ∀ rest, ts ≠ t :: rest := by
    intro t ht
    have happend := Parser.append_ne_of_readExpr h ht []
    rwa [List.append_nil] at happend
  have hstatement : Parser.readStatement ts = .ok (.expr e, []) := by
    rw [Parser.readStatement_of_ne (hne _ rfl) (hne _ rfl), h]
    rfl
  rw [parse_of_ok hstatement, parse_nil]

theorem parse_of_error {t : Token} {failure : Failure}
    (h : Parser.readStatement (t :: ts) = .error failure) :
    parse (t :: ts) =
      let others := parse (resume ((t :: ts).length - failure.unread.length) 0 (t :: ts))
      ⟨others.program, failure.error :: others.errors⟩ := by
  rw [parse]
  unfold Parser.readStatement at h
  cases hs : Parser.statement (t :: ts) with
  | error failure' =>
    rw [hs] at h
    cases h
    rfl
  | ok p =>
    rw [hs] at h
    cases h

end Program

end MonkeyLang
