import MonkeyLang.Proofs.Program.Reading
import MonkeyLang.Proofs.Token.Spelling

/-!
# Writing programs with the parentheses they need

* `Written piece ts`   the tokens `ts` write a piece of a program.  An operand that binds too
                       loosely for its place stands in parentheses, any other may as well, and any
                       number of times.  Every statement ends with a semicolon;
* `Expr.write`, `Stmt.write`, `Block.write`   the tokens with no parentheses but the needed ones;
* `Block.Spellable`    names are well spelled and integers not negative, so that there is a way to
                       write them (`Block.written_write`).

How tightly something must bind to stand alone is a number, `need`: at least the level of the
operator to the left of it, more than that to the right of it, `unaryLevel` after a unary operator
and `callLevel` before arguments.
-/

namespace MonkeyLang

/-- how tightly a call binds -/
def callLevel : Nat := unaryLevel + 1

/-- names, each with a comma before it -/
def moreParamTokens (xs : List String) : List Token :=
  xs.flatMap fun x => [.symbol .comma, .name x]

/-- names with commas between them -/
def paramTokens : List String → List Token
  | [] => []
  | x :: xs => .name x :: moreParamTokens xs

/-! ## written pieces -/

/-- what can be written -/
inductive Piece where
  /-- an expression, where only what binds at least as tightly as `need` may stand alone -/
  | expr (need : Nat) (e : Expr)
  | arguments (es : List Expr)
  /-- arguments after the first one, each with a comma before it -/
  | moreArguments (es : List Expr)
  | statement (s : Stmt)
  | statements (ss : List Stmt)

open Piece in
set_option autoImplicit true in
inductive Written : Piece → List Token → Prop where
  | name : IsName x → Written (expr need (.name x)) [.name x]
  | int : 0 ≤ n.toInt → Written (expr need (.int n)) [.number (Integer.text n)]
  | bool : Written (expr need (.bool b)) [.keyword (.ofBool b)]
  | group : Written (expr 0 e) ts →
      Written (expr need e) (.symbol .lparen :: (ts ++ [.symbol .rparen]))
  | unary : need ≤ unaryLevel → Written (expr unaryLevel e) ts →
      Written (expr need (.unary op e)) (.symbol op.symbol :: ts)
  | binary : need ≤ op.level → Written (expr op.level a) ts →
      Written (expr (op.level + 1) b) us →
      Written (expr need (.binary a op b)) (ts ++ .symbol op.symbol :: us)
  | call : need ≤ callLevel → Written (expr callLevel f) ts → Written (arguments es) us →
      Written (expr need (.call f es)) (ts ++ .symbol .lparen :: (us ++ [.symbol .rparen]))
  | cond : Written (expr 0 test) ts → Written (statements body) us →
      Written (expr need (.cond test body none))
        (.keyword .ifKw :: .symbol .lparen ::
          (ts ++ .symbol .rparen :: .symbol .lbrace :: (us ++ [.symbol .rbrace])))
  | condElse : Written (expr 0 test) ts → Written (statements body) us →
      Written (statements other) vs →
      Written (expr need (.cond test body (some other)))
        (.keyword .ifKw :: .symbol .lparen ::
          (ts ++ .symbol .rparen :: .symbol .lbrace ::
            (us ++ .symbol .rbrace :: .keyword .elseKw :: .symbol .lbrace ::
              (vs ++ [.symbol .rbrace]))))
  | func : (∀ x ∈ xs, IsName x) → Written (statements body) us →
      Written (expr need (.func xs body))
        (.keyword .fnKw :: .symbol .lparen ::
          (paramTokens xs ++ .symbol .rparen :: .symbol .lbrace :: (us ++ [.symbol .rbrace])))
  | noArguments : Written (arguments []) []
  | someArguments : Written (expr 0 e) ts → Written (moreArguments es) us →
      Written (arguments (e :: es)) (ts ++ us)
  | lastArgument : Written (moreArguments []) []
  | nextArgument : Written (expr 0 e) ts → Written (moreArguments es) us →
      Written (moreArguments (e :: es)) (.symbol .comma :: (ts ++ us))
  | bind : IsName x → Written (expr 0 e) ts →
      Written (statement (.bind x e))
        (.keyword .letKw :: .name x :: .symbol .assign :: (ts ++ [.symbol .semicolon]))
  | ret : Written (expr 0 e) ts →
      Written (statement (.ret e)) (.keyword .returnKw :: (ts ++ [.symbol .semicolon]))
  | expr : Written (expr 0 e) ts → Written (statement (.expr e)) (ts ++ [.symbol .semicolon])
  | noStatement : Written (statements []) []
  | moreStatements : Written (statement s) ts → Written (statements ss) us →
      Written (statements (s :: ss)) (ts ++ us)

theorem wellSpelled_paramTokens {xs : List String} (h : ∀ x ∈ xs, IsName x) :
    WellSpelled (paramTokens xs) := by
  have hmore : ∀ ys : List String, (∀ y ∈ ys, IsName y) → WellSpelled (moreParamTokens ys) := by
    intro ys hys
    induction ys with
    | nil => simp [moreParamTokens]
    | cons y ys ih =>
      obtain ⟨hy, hys⟩ := List.forall_mem_cons.mp hys
      simpa [moreParamTokens, hy] using ih hys
  cases xs with
  | nil => simp [paramTokens]
  | cons x xs =>
    obtain ⟨hx, hxs⟩ := List.forall_mem_cons.mp h
    simp [paramTokens, hx, hmore xs hxs]

theorem Written.wellSpelled {p : Piece} {ts : List Token} (h : Written p ts) : WellSpelled ts := by
  induction h with
  | name hx => simp [hx]
  | int hn => simp [Integer.isNumber_text hn]
  | bool => simp
  | group _ ih => simp [ih]
  | unary _ _ ih => simp [ih]
  | binary _ _ _ iha ihb => simp [iha, ihb]
  | call _ _ _ ihf ihes => simp [ihf, ihes]
  | cond _ _ iht ihb => simp [iht, ihb]
  | condElse _ _ _ iht ihb iho => simp [iht, ihb, iho]
  | func hxs _ ih => simp [wellSpelled_paramTokens hxs, ih]
  | noArguments => simp
  | someArguments _ _ ihe ihes => simp [ihe, ihes]
  | lastArgument => simp
  | nextArgument _ _ ihe ihes => simp [ihe, ihes]
  | bind hx _ ih => simp [hx, ih]
  | ret _ ih => simp [ih]
  | expr _ ih => simp [ih]
  | noStatement => simp
  | moreStatements _ _ ihs ihss => simp [ihs, ihss]

/-! ## as few parentheses as possible -/

def inParens (p : Prop) [Decidable p] (ts : List Token) : List Token :=
  if p then .symbol .lparen :: (ts ++ [.symbol .rparen]) else ts

mutual

def Expr.write (need : Nat) : Expr → List Token
  | .name x => [.name x]
  | .int n => [.number n.text]
  | .bool b => [.keyword (.ofBool b)]
  | .unary op e => inParens (unaryLevel < need) (.symbol op.symbol :: e.write unaryLevel)
  | .binary a op b => inParens (op.level < need)
      (a.write op.level ++ .symbol op.symbol :: b.write (op.level + 1))
  | .cond test body none => .keyword .ifKw :: .symbol .lparen ::
      (test.write 0 ++ .symbol .rparen :: .symbol .lbrace ::
        (Block.write body ++ [.symbol .rbrace]))
  | .cond test body (some other) => .keyword .ifKw :: .symbol .lparen ::
      (test.write 0 ++ .symbol .rparen :: .symbol .lbrace ::
        (Block.write body ++ .symbol .rbrace :: .keyword .elseKw :: .symbol .lbrace ::
          (Block.write other ++ [.symbol .rbrace])))
  | .func xs body => .keyword .fnKw :: .symbol .lparen ::
      (paramTokens xs ++ .symbol .rparen :: .symbol .lbrace ::
        (Block.write body ++ [.symbol .rbrace]))
  | .call f es => inParens (callLevel < need)
      (f.write callLevel ++ .symbol .lparen :: (Expr.writeArguments es ++ [.symbol .rparen]))

def Expr.writeArguments : List Expr → List Token
  | [] => []
  | e :: es => e.write 0 ++ Expr.writeMoreArguments es

def Expr.writeMoreArguments : List Expr → List Token
  | [] => []
  | e :: es => .symbol .comma :: (e.write 0 ++ Expr.writeMoreArguments es)

def Stmt.write : Stmt → List Token
  | .bind x e =>
      .keyword .letKw :: .name x :: .symbol .assign :: (e.write 0 ++ [.symbol .semicolon])
  | .ret e => .keyword .returnKw :: (e.write 0 ++ [.symbol .semicolon])
  | .expr e => e.write 0 ++ [.symbol .semicolon]

def Block.write : List Stmt → List Token
  | [] => []
  | s :: ss => s.write ++ Block.write ss

end

mutual

/-- all names are well spelled and no integer is negative -/
def Expr.Spellable : Expr → Prop
  | .name x => IsName x
  | .int n => 0 ≤ n.toInt
  | .bool _ => True
  | .unary _ e => e.Spellable
  | .binary a _ b => a.Spellable ∧ b.Spellable
  | .cond test body none => test.Spellable ∧ Block.Spellable body
  | .cond test body (some other) =>
      test.Spellable ∧ Block.Spellable body ∧ Block.Spellable other
  | .func xs body => (∀ x ∈ xs, IsName x) ∧ Block.Spellable body
  | .call f es => f.Spellable ∧ Expr.AllSpellable es

def Expr.AllSpellable : List Expr → Prop
  | [] => True
  | e :: es => e.Spellable ∧ Expr.AllSpellable es

def Stmt.Spellable : Stmt → Prop
  | .bind x e => IsName x ∧ e.Spellable
  | .ret e => e.Spellable
  | .expr e => e.Spellable

def Block.Spellable : List Stmt → Prop
  | [] => True
  | s :: ss => s.Spellable ∧ Block.Spellable ss

end

theorem written_inParens {need level : Nat} {e : Expr} {ts : List Token}
    (h : ∀ k, k ≤ level → Written (.expr k e) ts) :
    Written (.expr need e) (inParens (level < need) ts) := by
  unfold inParens
  split
  case isTrue => exact .group (h 0 (Nat.zero_le _))
  case isFalse hn => exact h need (Nat.le_of_not_lt hn)

mutual

theorem Expr.written_write :
    ∀ (e : Expr) (need : Nat), e.Spellable → Written (.expr need e) (e.write need)
  | .name _, _, h => .name h
  | .int _, _, h => .int h
  | .bool _, _, _ => .bool
  | .unary _ e, _, h =>
    written_inParens fun _ hk => .unary hk (Expr.written_write e unaryLevel h)
  | .binary a op b, _, h =>
    written_inParens fun _ hk =>
      .binary hk (Expr.written_write a op.level h.1) (Expr.written_write b (op.level + 1) h.2)
  | .cond test body none, _, h =>
    .cond (Expr.written_write test 0 h.1) (Block.written_write body h.2)
  | .cond test body (some other), _, h =>
    .condElse (Expr.written_write test 0 h.1) (Block.written_write body h.2.1)
      (Block.written_write other h.2.2)
  | .func _ body, _, h => .func h.1 (Block.written_write body h.2)
  | .call f es, _, h =>
    written_inParens fun _ hk =>
      .call hk (Expr.written_write f callLevel h.1) (Expr.written_writeArguments es h.2)

theorem Expr.written_writeArguments :
    ∀ es : List Expr, Expr.AllSpellable es → Written (.arguments es) (Expr.writeArguments es)
  | [], _ => .noArguments
  | e :: es, h =>
    .someArguments (Expr.written_write e 0 h.1) (Expr.written_writeMoreArguments es h.2)

theorem Expr.written_writeMoreArguments :
    ∀ es : List Expr, Expr.AllSpellable es →
      Written (.moreArguments es) (Expr.writeMoreArguments es)
  | [], _ => .lastArgument
  | e :: es, h =>
    .nextArgument (Expr.written_write e 0 h.1) (Expr.written_writeMoreArguments es h.2)

theorem Stmt.written_write : ∀ s : Stmt, s.Spellable → Written (.statement s) s.write
  | .bind _ e, h => .bind h.1 (Expr.written_write e 0 h.2)
  | .ret e, h => .ret (Expr.written_write e 0 h)
  | .expr e, h => .expr (Expr.written_write e 0 h)

theorem Block.written_write :
    ∀ ss : List Stmt, Block.Spellable ss → Written (.statements ss) (Block.write ss)
  | [], _ => .noStatement
  | s :: ss, h => .moreStatements (Stmt.written_write s h.1) (Block.written_write ss h.2)

end

end MonkeyLang
