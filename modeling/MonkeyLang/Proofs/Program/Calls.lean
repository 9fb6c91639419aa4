import MonkeyLang.Proofs.Program.Reading

/-!
# What the readers of the parser ask of each other

The parser is made of readers that call each other.  Here a call is taken apart into what it does
by itself and the calls that it makes.

* `Reader`          the readers, one for each kind of phrase, and `Call` a reader with what it is
                    given;
* `Call.answer`     what the parser gives for a call, with the tokens that are left then;
* `Plan`            what a call does.  It leaves with an answer, or it makes another call and goes on
                    with the answer to it, or it is a loop and goes on with another turn, whose
                    answer it takes over.  Of the parser a plan knows nothing but these answers;
* `Call.plan`       the plans of all calls;
* `Call.follow_plan`  with the answers of the parser, the plan of a call comes to the answer of the
                    parser: each plan is one unfolding of its reader;
* `Call.weight`     the tokens that are left count most, then which reader it is;
* `Call.below_plan` a call makes calls of less weight, and another turn is one of the same reader.
-/

namespace MonkeyLang.Parser

/-! ## calls -/

inductive Reader where
  | program | resume | block | statement | expr | operand | alternative | operators | arguments
  | moreArguments | params | moreParams
  deriving DecidableEq

/-- how far up a reader stands among those that start with the same tokens -/
def Reader.height : Reader → Nat
  | program | block => 3
  | statement | arguments => 2
  | expr => 1
  | _ => 0

theorem Reader.height_le (r : Reader) : r.height ≤ 3 := by
  cases r <;> decide

inductive Call where
  | program (ts : List Token)
  | resume (read depth : Nat) (ts : List Token)
  | block (ts : List Token)
  | statement (ts : List Token)
  | expr (level : Nat) (ts : List Token)
  | operand (ts : List Token)
  | alternative (test : Expr) (body : Block) (ts : List Token)
  | operators (level : Nat) (left : Expr) (ts : List Token)
  | arguments (ts : List Token)
  | moreArguments (ts : List Token)
  | params (ts : List Token)
  | moreParams (ts : List Token)

namespace Call

def reader : Call → Reader
  | program _ => .program
  | resume _ _ _ => .resume
  | block _ => .block
  | statement _ => .statement
  | expr _ _ => .expr
  | operand _ => .operand
  | alternative _ _ _ => .alternative
  | operators _ _ _ => .operators
  | arguments _ => .arguments
  | moreArguments _ => .moreArguments
  | params _ => .params
  | moreParams _ => .moreParams

/-- the tokens that are left when the call starts -/
def tokens : Call → List Token
  | program ts | resume _ _ ts | block ts | statement ts | expr _ ts | operand ts
  | alternative _ _ ts | operators _ _ ts | arguments ts | moreArguments ts | params ts
  | moreParams ts => ts

def weight (c : Call) : Nat := 4 * c.tokens.length + c.reader.height

/-- a call with fewer tokens left has less weight, whichever reader it is of -/
theorem weight_lt {c d : Call} (h : d.tokens.length < c.tokens.length) : d.weight < c.weight := by
  have hd := d.reader.height_le
  unfold weight
  omega

theorem weight_lt_of_height {c d : Call} (htokens : d.tokens = c.tokens)
    (h : d.reader.height < c.reader.height) : d.weight < c.weight := by
  unfold weight
  rw [htokens]
  exact Nat.add_lt_add_left h _

/-- what is read -/
def Value : Call → Type
  | program _ => ParsedProgram
  | resume _ _ _ => Unit
  | block _ => Block
  | statement _ => Stmt
  | expr _ _ | operand _ | alternative _ _ _ | operators _ _ _ => Expr
  | arguments _ | moreArguments _ => List Expr
  | params _ | moreParams _ => List String

/-- what was read, with the tokens that are left, or what was wrong -/
abbrev Answer (c : Call) : Type := Except Failure (c.Value × List Token)

def answer : (c : Call) → c.Answer
  | program ts => .ok (Program.parse ts, [])
  | resume read depth ts => .ok ((), MonkeyLang.resume read depth ts)
  | block ts => readBlock ts
  | statement ts => readStatement ts
  | expr level ts => readExpr level ts
  | operand ts => readOperand ts
  | alternative test body ts => readAlternative test body ts
  | operators level left ts => readOperators level left ts
  | arguments ts => readArguments ts
  | moreArguments ts => readMoreArguments ts
  | params ts => readParams ts
  | moreParams ts => readMoreParams ts

end Call

/-! ## plans -/

inductive Plan (α : Type) where
  /-- leaves with an answer -/
  | done (a : Except Failure α)
  /-- makes a call and goes on with the answer to it -/
  | call (c : Call) (k : c.Answer → Plan α)
  /-- goes on with another turn -/
  | turn (c : Call) (k : c.Answer → Except Failure α)

namespace Plan
variable {α β : Type}

/-- goes on with what single tokens give, or leaves -/
def after (x : Except Failure β) (k : β → Plan α) : Plan α :=
  match x with
  | .ok b => k b
  | .error failure => done (.error failure)

/-- makes a call, and leaves if it fails -/
def ask (c : Call) (k : c.Value × List Token → Plan α) : Plan α := call c fun a => after a k

/-- another turn, to whose result something is added -/
def again (c : Call) (k : c.Value × List Token → α) : Plan α := turn c (Except.map k)

/-- what a plan comes to with the answers of the parser -/
def follow : Plan α → Except Failure α
  | done a => a
  | call c k => (k c.answer).follow
  | turn c k => k c.answer

theorem follow_after {x : Except Failure β} {k : β → Plan α} {g : β → Except Failure α}
    (h : ∀ b, (k b).follow = g b) : (after x k).follow = x >>= g := by
  cases x with
  | error failure => rfl
  | ok b => exact h b

theorem follow_ask {c : Call} {k : c.Value × List Token → Plan α}
    {g : c.Value × List Token → Except Failure α} (h : ∀ p, (k p).follow = g p) :
    (ask c k).follow = c.answer >>= g := follow_after h

/-- what a last call gives is given unchanged -/
theorem follow_ask_last (c : Call) : (ask c fun p => done (.ok p)).follow = c.answer :=
  (follow_ask fun _ => rfl).trans (bind_pure c.answer)

theorem follow_again (c : Call) (k : c.Value × List Token → α) :
    (again c k).follow = c.answer >>= fun p => pure (k p) := by
  show Except.map k c.answer = _
  cases c.answer <;> rfl

/-- what the last turn gives is given unchanged -/
theorem follow_again_id (c : Call) : (again c id).follow = c.answer :=
  (follow_again c id).trans (bind_pure c.answer)

/-- with the answers of the parser, the calls that a plan makes for `c` have less weight than `c`,
and another turn is one of the same reader -/
def Below (c : Call) : Plan α → Prop
  | done _ => True
  | call d k => d.weight < c.weight ∧ (k d.answer).Below c
  | turn d _ => d.reader = c.reader ∧ d.weight < c.weight

variable {c : Call}

theorem below_after {x : Except Failure β} {k : β → Plan α}
    (h : ∀ b, x = .ok b → (k b).Below c) : (after x k).Below c := by
  cases x with
  | error failure => trivial
  | ok b => exact h b rfl

theorem below_ask {d : Call} {k : d.Value × List Token → Plan α} (hd : d.weight < c.weight)
    (h : ∀ a rest, d.answer = .ok (a, rest) → (k (a, rest)).Below c) : (ask d k).Below c :=
  ⟨hd, below_after fun p hp => h p.1 p.2 hp⟩

/-! ## the plans of the readers -/

def program : List Token → Plan (ParsedProgram × List Token)
  | [] => done (.ok (⟨[], []⟩, []))
  | t :: ts =>
    call (.statement (t :: ts)) fun
      | .ok (s, rest) =>
        again (.program rest) fun (others, left) =>
          (⟨s :: ParsedProgram.program others, ParsedProgram.errors others⟩, left)
      | .error failure =>
        ask (.resume ((t :: ts).length - failure.unread.length) 0 (t :: ts)) fun (_, rest) =>
        again (.program rest) fun (others, left) =>
          (⟨ParsedProgram.program others, failure.error :: ParsedProgram.errors others⟩, left)

def resume (read depth : Nat) : List Token → Plan (Unit × List Token)
  | [] => done (.ok ((), []))
  | t :: rest =>
    if read ≤ 1 ∧ endsDropped (t.depthAfter depth) t rest then
      done (.ok ((), afterDropped t rest))
    else again (.resume (read - 1) (t.depthAfter depth) rest) id

def block : List Token → Plan (Block × List Token)
  | [] => done (.error ⟨.unexpected (.symbol .rbrace) .eof, []⟩)
  | .symbol .rbrace :: rest => done (.ok ([], rest))
  | ts =>
    ask (.statement ts) fun (s, rest) =>
    again (.block rest) fun (ss, rest) => (s :: ss, rest)

def statement : List Token → Plan (Stmt × List Token)
  | .keyword .letKw :: ts =>
    after (readName ts) fun (x, rest) =>
    after (afterSymbol .assign rest) fun rest =>
    ask (.expr 0 rest) fun (e, rest) =>
    after (afterTerminator rest) fun rest =>
    done (.ok (.bind x e, rest))
  | .keyword .returnKw :: ts =>
    ask (.expr 0 ts) fun (e, rest) =>
    after (afterTerminator rest) fun rest =>
    done (.ok (.ret e, rest))
  | ts =>
    ask (.expr 0 ts) fun (e, rest) =>
    done (.ok (.expr e, skipSemicolon rest))

def expr (level : Nat) (ts : List Token) : Plan (Expr × List Token) :=
  ask (.operand ts) fun (first, rest) =>
  ask (.operators level first rest) fun whole =>
  done (.ok whole)

def operand : List Token → Plan (Expr × List Token)
  | .name x :: rest => done (.ok (.name x, rest))
  | .number digits :: rest =>
    match Integer.ofDigits? digits with
    | some n => done (.ok (.int n, rest))
    | none => done (.error ⟨.tooLarge digits, rest⟩)
  | .keyword .trueKw :: rest => done (.ok (.bool true, rest))
  | .keyword .falseKw :: rest => done (.ok (.bool false, rest))
  | .symbol .bang :: ts =>
    ask (.expr unaryLevel ts) fun (e, rest) =>
    done (.ok (.unary .not e, rest))
  | .symbol .minus :: ts =>
    ask (.expr unaryLevel ts) fun (e, rest) =>
    done (.ok (.unary .neg e, rest))
  | .symbol .lparen :: ts =>
    ask (.expr 0 ts) fun (e, rest) =>
    after (afterSymbol .rparen rest) fun rest =>
    done (.ok (e, rest))
  | .keyword .ifKw :: ts =>
    after (afterSymbol .lparen ts) fun rest =>
    ask (.expr 0 rest) fun (test, rest) =>
    after (afterSymbol .rparen rest) fun rest =>
    after (afterSymbol .lbrace rest) fun rest =>
    ask (.block rest) fun (body, rest) =>
    ask (.alternative test body rest) fun whole =>
    done (.ok whole)
  | .keyword .fnKw :: ts =>
    after (afterSymbol .lparen ts) fun rest =>
    ask (.params rest) fun (xs, rest) =>
    after (afterSymbol .lbrace rest) fun rest =>
    ask (.block rest) fun (body, rest) =>
    done (.ok (.func xs body, rest))
  | [] => done (.error ⟨.noExpression .eof, []⟩)
  | t :: rest => done (.error ⟨.noExpression t.kind, rest⟩)

def alternative (test : Expr) (body : Block) : List Token → Plan (Expr × List Token)
  | .keyword .elseKw :: ts =>
    after (afterSymbol .lbrace ts) fun rest =>
    ask (.block rest) fun (other, rest) =>
    done (.ok (.cond test body (some other), rest))
  | ts => done (.ok (.cond test body none, ts))

def operators (level : Nat) (left : Expr) : List Token → Plan (Expr × List Token)
  | .symbol .lparen :: ts =>
    ask (.arguments ts) fun (args, rest) =>
    again (.operators level (.call left args) rest) id
  | .symbol s :: ts =>
    match BinaryOp.ofSymbol? s with
    | some op =>
      if level < op.level then
        ask (.expr op.level ts) fun (right, rest) =>
        again (.operators level (.binary left op right) rest) id
      else done (.ok (left, .symbol s :: ts))
    | none => done (.ok (left, .symbol s :: ts))
  | ts => done (.ok (left, ts))

def arguments : List Token → Plan (List Expr × List Token)
  | .symbol .rparen :: rest => done (.ok ([], rest))
  | ts =>
    ask (.expr 0 ts) fun (e, rest) =>
    ask (.moreArguments rest) fun (es, rest) =>
    done (.ok (e :: es, rest))

def moreArguments : List Token → Plan (List Expr × List Token)
  | .symbol .comma :: ts =>
    ask (.expr 0 ts) fun (e, rest) =>
    again (.moreArguments rest) fun (es, rest) => (e :: es, rest)
  | ts => after (afterSymbol .rparen ts) fun rest => done (.ok ([], rest))

def params : List Token → Plan (List String × List Token)
  | .symbol .rparen :: rest => done (.ok ([], rest))
  | ts =>
    after (readName ts) fun (x, rest) =>
    ask (.moreParams rest) fun (xs, rest) =>
    done (.ok (x :: xs, rest))

def moreParams : List Token → Plan (List String × List Token)
  | .symbol .comma :: ts =>
    after (readName ts) fun (x, rest) =>
    again (.moreParams rest) fun (xs, rest) => (x :: xs, rest)
  | ts => after (afterSymbol .rparen ts) fun rest => done (.ok ([], rest))

/-! ## a plan is one unfolding of its reader -/

theorem follow_program (ts : List Token) : (program ts).follow = .ok (Program.parse ts, []) := by
  cases ts with
  | nil => rw [Program.parse_nil]; rfl
  | cons t ts =>
    cases h : readStatement (t :: ts) with
    | ok p =>
      rw [Program.parse_of_ok h]
      simp only [program, follow, Call.answer, h]
      rfl
    | error failure =>
      rw [Program.parse_of_error h]
      simp only [program, follow, Call.answer, h]
      rfl

theorem follow_resume (read depth : Nat) (ts : List Token) :
    (resume read depth ts).follow = .ok ((), MonkeyLang.resume read depth ts) := by
  cases ts with
  | nil => rfl
  | cons t rest =>
    rw [resume, MonkeyLang.resume]
    split
    · rfl
    · rfl

theorem follow_block (ts : List Token) : (block ts).follow = readBlock ts := by
  unfold block
  split
  case h_1 => exact readBlock_nil.symm
  case h_2 rest => exact (readBlock_rbrace rest).symm
  case h_3 hnil hbrace =>
    rw [readBlock_of_ne hnil hbrace]
    exact follow_ask fun s => follow_again _ _

theorem follow_statement (ts : List Token) : (statement ts).follow = readStatement ts := by
  unfold statement
  split
  case h_1 ts =>
    rw [readStatement_let]
    exact follow_after fun x => follow_after fun sign => follow_ask fun e =>
      follow_after fun stop => rfl
  case h_2 ts =>
    rw [readStatement_return]
    exact follow_ask fun e => follow_after fun stop => rfl
  case h_3 hlet hreturn =>
    rw [readStatement_of_ne hlet hreturn]
    exact follow_ask fun e => rfl

theorem follow_expr (level : Nat) (ts : List Token) :
    (expr level ts).follow = readExpr level ts := by
  rw [readExpr_eq]
  exact follow_ask fun first => follow_ask_last _

theorem follow_operand (ts : List Token) : (operand ts).follow = readOperand ts := by
  unfold operand
  split
  case h_1 x rest => exact (readOperand_name x rest).symm
  case h_2 digits rest =>
    split
    case h_1 n hn => exact (readOperand_number hn rest).symm
    case h_2 hn => exact (readOperand_tooLarge hn rest).symm
  case h_3 rest => exact (readOperand_bool true rest).symm
  case h_4 rest => exact (readOperand_bool false rest).symm
  case h_5 ts =>
    rw [show Token.symbol .bang = .symbol (UnaryOp.symbol .not) from rfl, readOperand_unary]
    exact follow_ask fun e => rfl
  case h_6 ts =>
    rw [show Token.symbol .minus = .symbol (UnaryOp.symbol .neg) from rfl, readOperand_unary]
    exact follow_ask fun e => rfl
  case h_7 ts =>
    rw [readOperand_lparen]
    exact follow_ask fun e => follow_after fun close => rfl
  case h_8 ts =>
    rw [readOperand_if]
    exact follow_after fun opening => follow_ask fun test => follow_after fun close =>
      follow_after fun brace => follow_ask fun body => follow_ask_last _
  case h_9 ts =>
    rw [readOperand_fn]
    exact follow_after fun opening => follow_ask fun xs => follow_after fun brace =>
      follow_ask fun body => rfl
  case h_10 => exact readOperand_nil.symm
  case h_11 t rest hname hnumber htrue hfalse hbang hminus hparen hif hfn =>
    refine (readOperand_of_not_startsExpr ?_ rest).symm
    cases ht : startsExpr t with
    | false => rfl
    | true =>
      obtain ⟨x, rfl⟩ | ⟨digits, rfl⟩ | ⟨b, rfl⟩ | ⟨op, rfl⟩ | rfl | rfl | rfl :=
        startsExpr_cases ht
      · exact (hname x rfl).elim
      · exact (hnumber digits rfl).elim
      · cases b
        · exact (hfalse rfl).elim
        · exact (htrue rfl).elim
      · cases op
        · exact (hbang rfl).elim
        · exact (hminus rfl).elim
      · exact (hparen rfl).elim
      · exact (hif rfl).elim
      · exact (hfn rfl).elim

theorem follow_alternative (test : Expr) (body : Block) (ts : List Token) :
    (alternative test body ts).follow = readAlternative test body ts := by
  unfold alternative
  split
  case h_1 ts =>
    rw [readAlternative_else]
    exact follow_after fun brace => follow_ask fun other => rfl
  case h_2 helse => exact (readAlternative_of_ne test body helse).symm

theorem follow_operators (level : Nat) (left : Expr) (ts : List Token) :
    (operators level left ts).follow = readOperators level left ts := by
  unfold operators
  split
  case h_1 ts =>
    rw [readOperators_lparen]
    exact follow_ask fun args => follow_again_id _
  case h_2 s ts hs =>
    split
    case h_1 op hop =>
      split
      case isTrue hlevel =>
        rw [← BinaryOp.symbol_of_ofSymbol? hop, readOperators_binary hlevel]
        exact follow_ask fun right => follow_again_id _
      case isFalse hlevel =>
        refine (readOperators_of_not_tighter left ?_).symm
        rw [← BinaryOp.symbol_of_ofSymbol? hop, tighter_binary]
        exact decide_eq_false hlevel
    case h_2 hop =>
      refine (readOperators_of_not_tighter left ?_).symm
      unfold tighter
      simp [hop]
  case h_3 hparen hsymbol =>
    refine (readOperators_of_not_tighter left ?_).symm
    unfold tighter
    split
    case h_1 rest => exact (hparen rest rfl).elim
    case h_2 s rest _ => exact (hsymbol s rest rfl).elim
    case h_3 => rfl

theorem follow_arguments (ts : List Token) : (arguments ts).follow = readArguments ts := by
  unfold arguments
  split
  case h_1 rest => exact (readArguments_rparen rest).symm
  case h_2 hparen =>
    rw [readArguments_of_ne hparen]
    exact follow_ask fun e => follow_ask fun es => rfl

theorem follow_moreArguments (ts : List Token) :
    (moreArguments ts).follow = readMoreArguments ts := by
  unfold moreArguments
  split
  case h_1 ts =>
    rw [readMoreArguments_comma]
    exact follow_ask fun e => follow_again _ _
  case h_2 hcomma =>
    rw [readMoreArguments_of_ne hcomma]
    exact follow_after fun close => rfl

theorem follow_params (ts : List Token) : (params ts).follow = readParams ts := by
  unfold params
  split
  case h_1 rest => exact (readParams_rparen rest).symm
  case h_2 hparen =>
    rw [readParams_of_ne hparen]
    exact follow_after fun x => follow_ask fun xs => rfl

theorem follow_moreParams (ts : List Token) : (moreParams ts).follow = readMoreParams ts := by
  unfold moreParams
  split
  case h_1 ts =>
    rw [readMoreParams_comma]
    exact follow_after fun x => follow_again _ _
  case h_2 hcomma =>
    rw [readMoreParams_of_ne hcomma]
    exact follow_after fun close => rfl

/-! ## the calls of a plan have less weight -/

theorem below_program (ts : List Token) : (program ts).Below (.program ts) := by
  cases ts with
  | nil => trivial
  | cons t ts =>
    refine ⟨Call.weight_lt_of_height rfl (show 2 < 3 by decide), ?_⟩
    cases h : readStatement (t :: ts) with
    | ok p =>
      simp only [Call.answer, h]
      exact ⟨rfl, Call.weight_lt (length_readStatement h)⟩
    | error failure =>
      simp only [Call.answer, h]
      refine below_ask (Call.weight_lt_of_height rfl (show 0 < 3 by decide)) ?_
      rintro _ rest ⟨⟩
      exact ⟨rfl, Call.weight_lt (Nat.lt_succ_of_le (length_resume_le _ _ t ts))⟩

theorem below_resume (read depth : Nat) (ts : List Token) :
    (resume read depth ts).Below (.resume read depth ts) := by
  cases ts with
  | nil => trivial
  | cons t rest =>
    rw [resume]
    split
    · trivial
    · exact ⟨rfl, Call.weight_lt (Nat.lt_succ_self rest.length)⟩

theorem below_block (ts : List Token) : (block ts).Below (.block ts) := by
  unfold block
  split
  case h_1 => trivial
  case h_2 => trivial
  case h_3 =>
    refine below_ask (Call.weight_lt_of_height rfl (show 2 < 3 by decide)) fun s rest hs => ?_
    exact ⟨rfl, Call.weight_lt (length_readStatement hs)⟩

theorem below_statement (ts : List Token) : (statement ts).Below (.statement ts) := by
  unfold statement
  split
  case h_1 ts =>
    refine below_after fun x hx => below_after fun rest hsign => ?_
    have hlt : rest.length < ts.length + 1 :=
      Nat.lt_succ_of_lt (Nat.lt_trans (length_afterSymbol hsign) (length_readName hx))
    exact below_ask (Call.weight_lt hlt) fun e rest he => below_after fun rest hstop => trivial
  case h_2 ts =>
    refine below_ask (Call.weight_lt (Nat.lt_succ_self ts.length)) fun e rest he => ?_
    exact below_after fun rest hstop => trivial
  case h_3 =>
    exact below_ask (Call.weight_lt_of_height rfl (show 1 < 2 by decide)) fun e rest he => trivial

theorem below_expr (level : Nat) (ts : List Token) :
    (expr level ts).Below (.expr level ts) := by
  refine below_ask (Call.weight_lt_of_height rfl (show 0 < 1 by decide)) fun first rest hfirst => ?_
  exact below_ask (Call.weight_lt (length_readOperand hfirst)) fun whole rest hwhole => trivial

/-- an operand makes its calls after its first token -/
theorem below_operand (ts : List Token) : (operand ts).Below (.operand ts) := by
  unfold operand
  split
  case h_1 => trivial
  case h_2 => split <;> trivial
  case h_3 => trivial
  case h_4 => trivial
  case h_5 ts =>
    exact below_ask (Call.weight_lt (Nat.lt_succ_self ts.length)) fun e rest he => trivial
  case h_6 ts =>
    exact below_ask (Call.weight_lt (Nat.lt_succ_self ts.length)) fun e rest he => trivial
  case h_7 ts =>
    refine below_ask (Call.weight_lt (Nat.lt_succ_self ts.length)) fun e rest he => ?_
    exact below_after fun rest hclose => trivial
  case h_8 ts =>
    refine below_after fun rest₁ hopening => ?_
    have h₁ := length_afterSymbol hopening
    refine below_ask (Call.weight_lt (Nat.lt_succ_of_lt h₁)) fun test rest₂ htest => ?_
    have h₂ := length_readExpr htest
    refine below_after fun rest₃ hclose => below_after fun rest₄ hbrace => ?_
    have h₃ := length_afterSymbol hclose
    have h₄ := length_afterSymbol hbrace
    have hblock : rest₄.length < ts.length + 1 := by omega
    refine below_ask (Call.weight_lt hblock) fun body rest₅ hbody => ?_
    have h₅ := Nat.lt_trans (length_readBlock hbody) hblock
    exact below_ask (Call.weight_lt h₅) fun whole rest hwhole => trivial
  case h_9 ts =>
    refine below_after fun rest₁ hopening => ?_
    have h₁ := length_afterSymbol hopening
    refine below_ask (Call.weight_lt (Nat.lt_succ_of_lt h₁)) fun xs rest₂ hxs => ?_
    have h₂ := length_readParams hxs
    refine below_after fun rest₃ hbrace => ?_
    have h₃ := length_afterSymbol hbrace
    have hblock : rest₃.length < ts.length + 1 := by omega
    exact below_ask (Call.weight_lt hblock) fun body rest hbody => trivial
  case h_10 => trivial
  case h_11 => trivial

theorem below_alternative (test : Expr) (body : Block) (ts : List Token) :
    (alternative test body ts).Below (.alternative test body ts) := by
  unfold alternative
  split
  case h_1 ts =>
    refine below_after fun rest hbrace => ?_
    have hlt := Nat.lt_succ_of_lt (length_afterSymbol hbrace)
    exact below_ask (Call.weight_lt hlt) fun other rest hother => trivial
  case h_2 => trivial

theorem below_operators (level : Nat) (left : Expr) (ts : List Token) :
    (operators level left ts).Below (.operators level left ts) := by
  unfold operators
  split
  case h_1 ts =>
    refine below_ask (Call.weight_lt (Nat.lt_succ_self ts.length)) fun args rest hargs => ?_
    exact ⟨rfl, Call.weight_lt (Nat.lt_succ_of_lt (length_readArguments hargs))⟩
  case h_2 s ts hs =>
    split
    case h_1 op hop =>
      split
      case isTrue =>
        refine below_ask (Call.weight_lt (Nat.lt_succ_self ts.length)) fun right rest hright => ?_
        exact ⟨rfl, Call.weight_lt (Nat.lt_succ_of_lt (length_readExpr hright))⟩
      case isFalse => trivial
    case h_2 => trivial
  case h_3 => trivial

theorem below_arguments (ts : List Token) : (arguments ts).Below (.arguments ts) := by
  unfold arguments
  split
  case h_1 => trivial
  case h_2 =>
    refine below_ask (Call.weight_lt_of_height rfl (show 1 < 2 by decide)) fun e rest he => ?_
    exact below_ask (Call.weight_lt (length_readExpr he)) fun es rest hes => trivial

theorem below_moreArguments (ts : List Token) :
    (moreArguments ts).Below (.moreArguments ts) := by
  unfold moreArguments
  split
  case h_1 ts =>
    refine below_ask (Call.weight_lt (Nat.lt_succ_self ts.length)) fun e rest he => ?_
    exact ⟨rfl, Call.weight_lt (Nat.lt_succ_of_lt (length_readExpr he))⟩
  case h_2 => exact below_after fun rest hclose => trivial

theorem below_params (ts : List Token) : (params ts).Below (.params ts) := by
  unfold params
  split
  case h_1 => trivial
  case h_2 =>
    refine below_after fun x hx => ?_
    exact below_ask (Call.weight_lt (length_readName hx)) fun xs rest hxs => trivial

theorem below_moreParams (ts : List Token) : (moreParams ts).Below (.moreParams ts) := by
  unfold moreParams
  split
  case h_1 ts =>
    refine below_after fun x hx => ?_
    exact ⟨rfl, Call.weight_lt (Nat.lt_succ_of_lt (length_readName hx))⟩
  case h_2 => exact below_after fun rest hclose => trivial

end Plan

def Call.plan : (c : Call) → Plan (c.Value × List Token)
  | program ts => Plan.program ts
  | resume read depth ts => Plan.resume read depth ts
  | block ts => Plan.block ts
  | statement ts => Plan.statement ts
  | expr level ts => Plan.expr level ts
  | operand ts => Plan.operand ts
  | alternative test body ts => Plan.alternative test body ts
  | operators level left ts => Plan.operators level left ts
  | arguments ts => Plan.arguments ts
  | moreArguments ts => Plan.moreArguments ts
  | params ts => Plan.params ts
  | moreParams ts => Plan.moreParams ts

theorem Call.follow_plan (c : Call) : c.plan.follow = c.answer := by
  cases c with
  | program ts => exact Plan.follow_program ts
  | resume read depth ts => exact Plan.follow_resume read depth ts
  | block ts => exact Plan.follow_block ts
  | statement ts => exact Plan.follow_statement ts
  | expr level ts => exact Plan.follow_expr level ts
  | operand ts => exact Plan.follow_operand ts
  | alternative test body ts => exact Plan.follow_alternative test body ts
  | operators level left ts => exact Plan.follow_operators level left ts
  | arguments ts => exact Plan.follow_arguments ts
  | moreArguments ts => exact Plan.follow_moreArguments ts
  | params ts => exact Plan.follow_params ts
  | moreParams ts => exact Plan.follow_moreParams ts

/-- every call makes calls of less weight, and every further turn of a loop has less weight -/
theorem Call.below_plan (c : Call) : c.plan.Below c := by
  cases c with
  | program ts => exact Plan.below_program ts
  | resume read depth ts => exact Plan.below_resume read depth ts
  | block ts => exact Plan.below_block ts
  | statement ts => exact Plan.below_statement ts
  | expr level ts => exact Plan.below_expr level ts
  | operand ts => exact Plan.below_operand ts
  | alternative test body ts => exact Plan.below_alternative test body ts
  | operators level left ts => exact Plan.below_operators level left ts
  | arguments ts => exact Plan.below_arguments ts
  | moreArguments ts => exact Plan.below_moreArguments ts
  | params ts => exact Plan.below_params ts
  | moreParams ts => exact Plan.below_moreParams ts

end MonkeyLang.Parser
