import MonkeyLang.Proofs.Program.Reading
import Mathlib.Logic.Relation

/-!
# How far a reading goes

`Parser.afterExpr`, `Parser.afterBlock` and the others forget what was read and keep the tokens
after it.  For the operators after an operand these do not depend on the operand, so the levels
drop out of the outermost reading:

* `Parser.afterExpr_absorb`        reading at a high level and then operators at a low one is reading
                                   at the low one;
* `Parser.afterExpr_unary`, `Parser.afterOperators_operator`   what follows an operator, unary or
                                   binary, ends where an expression of its own would end;
* `Parser.Statements ts rest`      statements can be read from `ts` until `rest` is left.  This is
                                   how blocks (`afterBlock_of_statements`) and whole programs
                                   (`errors_of_statements`, `statements_of_errors`) are read.
-/

namespace MonkeyLang

namespace Parser

/-! ## forgetting what was read -/

section After
variable {α β : Type}

/-- the tokens after what was read -/
def after (r : Except Failure (α × List Token)) : Except Failure (List Token) := r.map Prod.snd

theorem after_bind {x : Except Failure (α × List Token)}
    {f : α × List Token → Except Failure (β × List Token)}
    {g : List Token → Except Failure (List Token)} (h : ∀ a rest, after (f (a, rest)) = g rest) :
    after (x >>= f) = after x >>= g := by
  cases x with
  | error failure => rfl
  | ok p => exact h p.1 p.2

theorem after_bind_rest {x : Except Failure (List Token)}
    {f : List Token → Except Failure (β × List Token)}
    {g : List Token → Except Failure (List Token)} (h : ∀ rest, after (f rest) = g rest) :
    after (x >>= f) = x >>= g := by
  cases x with
  | error failure => rfl
  | ok rest => exact h rest

theorem after_bind_pure {x : Except Failure (α × List Token)}
    {f : α × List Token → Except Failure (β × List Token)}
    (h : ∀ a rest, after (f (a, rest)) = .ok rest) : after (x >>= f) = after x := by
  cases x with
  | error failure => rfl
  | ok p => exact h p.1 p.2

theorem after_bind_rest_pure {x : Except Failure (List Token)}
    {f : List Token → Except Failure (β × List Token)} (h : ∀ rest, after (f rest) = .ok rest) :
    after (x >>= f) = x := by
  cases x with
  | error failure => rfl
  | ok rest => exact h rest

theorem after_eq_ok {x : Except Failure (α × List Token)} {rest : List Token} :
    after x = .ok rest ↔ ∃ a, x = .ok (a, rest) := by
  cases x with
  | error failure =>
    constructor
    · intro h
      cases h
    · rintro ⟨a, h⟩
      cases h
  | ok p =>
    constructor
    · intro h
      cases h
      exact ⟨p.1, rfl⟩
    · rintro ⟨a, h⟩
      cases h
      rfl

end After

def afterParams (ts : List Token) : Except Failure (List Token) := after (readParams ts)

def afterMoreParams (ts : List Token) : Except Failure (List Token) := after (readMoreParams ts)

def afterExpr (level : Nat) (ts : List Token) : Except Failure (List Token) :=
  after (readExpr level ts)

def afterOperand (ts : List Token) : Except Failure (List Token) := after (readOperand ts)

/-- the operand to the left does not matter (`after_readOperators`), so it is a constant -/
def afterOperators (level : Nat) (ts : List Token) : Except Failure (List Token) :=
  after (readOperators level (.bool true) ts)

/-- the test and the body do not matter -/
def afterAlternative (ts : List Token) : Except Failure (List Token) :=
  after (readAlternative (.bool true) [] ts)

def afterArguments (ts : List Token) : Except Failure (List Token) := after (readArguments ts)

def afterMoreArguments (ts : List Token) : Except Failure (List Token) :=
  after (readMoreArguments ts)

def afterBlock (ts : List Token) : Except Failure (List Token) := after (readBlock ts)

def afterStatement (ts : List Token) : Except Failure (List Token) := after (readStatement ts)

variable {level l m : Nat} {ts rest : List Token}

theorem length_afterParams (h : afterParams ts = .ok rest) : rest.length < ts.length := by
  obtain ⟨xs, h⟩ := after_eq_ok.mp h
  exact length_readParams h

theorem length_afterExpr (h : afterExpr level ts = .ok rest) : rest.length < ts.length := by
  obtain ⟨e, h⟩ := after_eq_ok.mp h
  exact length_readExpr h

theorem length_afterOperand (h : afterOperand ts = .ok rest) : rest.length < ts.length := by
  obtain ⟨e, h⟩ := after_eq_ok.mp h
  exact length_readOperand h

theorem length_afterArguments (h : afterArguments ts = .ok rest) : rest.length < ts.length := by
  obtain ⟨es, h⟩ := after_eq_ok.mp h
  exact length_readArguments h

theorem length_afterBlock (h : afterBlock ts = .ok rest) : rest.length < ts.length := by
  obtain ⟨b, h⟩ := after_eq_ok.mp h
  exact length_readBlock h

theorem length_afterStatement (h : afterStatement ts = .ok rest) : rest.length < ts.length := by
  obtain ⟨s, h⟩ := after_eq_ok.mp h
  exact length_readStatement h

/-! ## parameters -/

theorem afterMoreParams_comma (x : String) (ts : List Token) :
    afterMoreParams (.symbol .comma :: .name x :: ts) = afterMoreParams ts := by
  rw [afterMoreParams, readMoreParams_comma, readName_name, ok_bind]
  exact after_bind_pure fun xs rest => rfl

theorem afterMoreParams_rparen (ts : List Token) :
    afterMoreParams (.symbol .rparen :: ts) = .ok ts := by
  rw [afterMoreParams, readMoreParams_of_ne (by simp), afterSymbol_self]
  rfl

theorem afterParams_name (x : String) (ts : List Token) :
    afterParams (.name x :: ts) = afterMoreParams ts := by
  rw [afterParams, readParams_of_ne (by simp), readName_name, ok_bind]
  exact after_bind_pure fun xs rest => rfl

theorem afterParams_rparen (ts : List Token) :
    afterParams (.symbol .rparen :: ts) = .ok ts := rfl

theorem name_of_afterMoreParams (h : afterMoreParams (.symbol .comma :: ts) = .ok rest) :
    ∃ x us, ts = .name x :: us := by
  obtain ⟨xs, h⟩ := after_eq_ok.mp h
  rw [readMoreParams_comma] at h
  obtain ⟨⟨x, us⟩, hx, -⟩ := bind_eq_ok h
  exact ⟨x, us, eq_of_readName hx⟩

theorem rparen_of_afterMoreParams (h : afterMoreParams ts = .ok rest)
    (hne : ∀ us, ts ≠ .symbol .comma :: us) : ts = .symbol .rparen :: rest := by
  rw [afterMoreParams, readMoreParams_of_ne hne, after_bind_rest_pure fun _ => rfl] at h
  exact eq_of_afterSymbol h

theorem name_of_afterParams (h : afterParams ts = .ok rest)
    (hne : ∀ us, ts ≠ .symbol .rparen :: us) : ∃ x us, ts = .name x :: us := by
  obtain ⟨xs, h⟩ := after_eq_ok.mp h
  rw [readParams_of_ne hne] at h
  obtain ⟨⟨x, us⟩, hx, -⟩ := bind_eq_ok h
  exact ⟨x, us, eq_of_readName hx⟩

/-! ## operands -/

theorem afterOperand_name (x : String) (ts : List Token) :
    afterOperand (.name x :: ts) = .ok ts := by
  rw [afterOperand, readOperand_name]
  rfl

theorem afterOperand_number {digits : String} {n : Integer} (h : Integer.ofDigits? digits = some n)
    (ts : List Token) : afterOperand (.number digits :: ts) = .ok ts := by
  rw [afterOperand, readOperand_number h]
  rfl

theorem afterOperand_bool (b : Bool) (ts : List Token) :
    afterOperand (.keyword (.ofBool b) :: ts) = .ok ts := by
  rw [afterOperand, readOperand_bool]
  rfl

theorem afterOperand_unary (op : UnaryOp) (ts : List Token) :
    afterOperand (.symbol op.symbol :: ts) = afterExpr unaryLevel ts := by
  rw [afterOperand, readOperand_unary]
  exact after_bind_pure fun e rest => rfl

theorem afterOperand_lparen (ts : List Token) :
    afterOperand (.symbol .lparen :: ts) = afterExpr 0 ts >>= afterSymbol .rparen := by
  rw [afterOperand, readOperand_lparen]
  exact after_bind fun e rest => after_bind_rest_pure fun rest => rfl

theorem startsExpr_of_afterOperand (h : afterOperand ts = .ok rest) :
    ∃ t us, ts = t :: us ∧ startsExpr t = true := by
  obtain ⟨e, h⟩ := after_eq_ok.mp h
  exact startsExpr_of_readOperand h

theorem after_readAlternative (test : Expr) (body : Block) (ts : List Token) :
    after (readAlternative test body ts) = afterAlternative ts := by
  unfold afterAlternative
  by_cases h : ∃ rest, ts = .keyword .elseKw :: rest
  · obtain ⟨rest, rfl⟩ := h
    rw [readAlternative_else, readAlternative_else]
    cases afterSymbol .lbrace rest with
    | error failure => rfl
    | ok rest => rw [ok_bind, ok_bind, after_bind_pure fun _ _ => rfl, after_bind_pure fun _ _ => rfl]
  · have hne : ∀ rest, ts ≠ .keyword .elseKw :: rest := fun rest hr => h ⟨rest, hr⟩
    rw [readAlternative_of_ne _ _ hne, readAlternative_of_ne _ _ hne]
    rfl

theorem afterAlternative_else (ts : List Token) :
    afterAlternative (.keyword .elseKw :: ts) = afterSymbol .lbrace ts >>= afterBlock := by
  rw [afterAlternative, readAlternative_else]
  exact after_bind_rest fun rest => after_bind_pure fun other rest => rfl

theorem afterAlternative_of_ne (h : ∀ rest, ts ≠ .keyword .elseKw :: rest) :
    afterAlternative ts = .ok ts := by
  rw [afterAlternative, readAlternative_of_ne _ _ h]
  rfl

theorem afterOperand_if (ts : List Token) :
    afterOperand (.keyword .ifKw :: ts) = (do
      let rest ← afterSymbol .lparen ts
      let rest ← afterExpr 0 rest
      let rest ← afterSymbol .rparen rest
      let rest ← afterSymbol .lbrace rest
      let rest ← afterBlock rest
      afterAlternative rest) := by
  rw [afterOperand, readOperand_if]
  exact after_bind_rest fun rest => after_bind fun test rest => after_bind_rest fun rest =>
    after_bind_rest fun rest => after_bind fun body rest => after_readAlternative test body rest

theorem afterOperand_fn (ts : List Token) :
    afterOperand (.keyword .fnKw :: ts) = (do
      let rest ← afterSymbol .lparen ts
      let rest ← afterParams rest
      let rest ← afterSymbol .lbrace rest
      afterBlock rest) := by
  rw [afterOperand, readOperand_fn]
  exact after_bind_rest fun rest => after_bind fun xs rest => after_bind_rest fun rest =>
    after_bind_pure fun body rest => rfl

theorem of_afterOperand_if (h : afterOperand (.keyword .ifKw :: ts) = .ok rest) :
    ∃ us vs r, ts = .symbol .lparen :: us ∧
      afterExpr 0 us = .ok (.symbol .rparen :: .symbol .lbrace :: vs) ∧
        afterBlock vs = .ok r ∧ afterAlternative r = .ok rest := by
  rw [afterOperand_if] at h
  obtain ⟨us, hopen, h⟩ := bind_eq_ok h
  obtain ⟨close, htest, h⟩ := bind_eq_ok h
  obtain ⟨brace, hclose, h⟩ := bind_eq_ok h
  obtain ⟨vs, hbrace, h⟩ := bind_eq_ok h
  obtain ⟨r, hbody, h⟩ := bind_eq_ok h
  rw [eq_of_afterSymbol hclose, eq_of_afterSymbol hbrace] at htest
  exact ⟨us, vs, r, eq_of_afterSymbol hopen, htest, hbody, h⟩

theorem of_afterOperand_fn (h : afterOperand (.keyword .fnKw :: ts) = .ok rest) :
    ∃ us vs, ts = .symbol .lparen :: us ∧ afterParams us = .ok (.symbol .lbrace :: vs) ∧
      afterBlock vs = .ok rest := by
  rw [afterOperand_fn] at h
  obtain ⟨us, hopen, h⟩ := bind_eq_ok h
  obtain ⟨brace, hparams, h⟩ := bind_eq_ok h
  obtain ⟨vs, hbrace, h⟩ := bind_eq_ok h
  rw [eq_of_afterSymbol hbrace] at hparams
  exact ⟨us, vs, eq_of_afterSymbol hopen, hparams, h⟩

/-! ## arguments -/

theorem afterArguments_rparen (ts : List Token) :
    afterArguments (.symbol .rparen :: ts) = .ok ts := by
  rw [afterArguments, readArguments_rparen]
  rfl

theorem afterArguments_of_ne (h : ∀ rest, ts ≠ .symbol .rparen :: rest) :
    afterArguments ts = afterExpr 0 ts >>= afterMoreArguments := by
  rw [afterArguments, readArguments_of_ne h]
  exact after_bind fun e rest => after_bind_pure fun es rest => rfl

theorem afterMoreArguments_comma (ts : List Token) :
    afterMoreArguments (.symbol .comma :: ts) = afterExpr 0 ts >>= afterMoreArguments := by
  rw [afterMoreArguments, readMoreArguments_comma]
  exact after_bind fun e rest => after_bind_pure fun es rest => rfl

theorem afterMoreArguments_of_ne (h : ∀ rest, ts ≠ .symbol .comma :: rest) :
    afterMoreArguments ts = afterSymbol .rparen ts := by
  rw [afterMoreArguments, readMoreArguments_of_ne h]
  exact after_bind_rest_pure fun rest => rfl

/-! ## operators -/

/-- where the operators end does not depend on the operand before them -/
theorem after_readOperators (level : Nat) (left : Expr) (ts : List Token) :
    after (readOperators level left ts) = afterOperators level ts := by
  unfold afterOperators
  generalize Expr.bool true = left'
  induction hn : ts.length using Nat.strongRecOn generalizing ts left left' with
  | _ n ih =>
    subst hn
    cases hc : tighter level ts with
    | false =>
      rw [readOperators_of_not_tighter _ hc, readOperators_of_not_tighter _ hc]
      rfl
    | true =>
      obtain ⟨rest, rfl⟩ | ⟨op, rest, rfl, hlt⟩ := tighter_cases hc
      · rw [readOperators_lparen, readOperators_lparen]
        cases ha : readArguments rest with
        | error failure => rfl
        | ok p => exact ih _ (Nat.lt_succ_of_lt (length_readArguments ha)) _ _ _ rfl
      · rw [readOperators_binary hlt, readOperators_binary hlt]
        cases ha : readExpr op.level rest with
        | error failure => rfl
        | ok p => exact ih _ (Nat.lt_succ_of_lt (length_readExpr ha)) _ _ _ rfl

theorem afterExpr_eq (level : Nat) (ts : List Token) :
    afterExpr level ts = afterOperand ts >>= afterOperators level := by
  rw [afterExpr, readExpr_eq]
  exact after_bind fun first rest => after_readOperators level first rest

theorem afterOperators_of_not_tighter (h : tighter level ts = false) :
    afterOperators level ts = .ok ts := by
  rw [afterOperators, readOperators_of_not_tighter _ h]
  rfl

theorem afterOperators_lparen (level : Nat) (ts : List Token) :
    afterOperators level (.symbol .lparen :: ts) = afterArguments ts >>= afterOperators level := by
  rw [afterOperators, readOperators_lparen]
  exact after_bind fun args rest => after_readOperators level _ rest

theorem afterOperators_binary {op : BinaryOp} (h : level < op.level) (ts : List Token) :
    afterOperators level (.symbol op.symbol :: ts) =
      afterExpr op.level ts >>= afterOperators level := by
  rw [afterOperators, readOperators_binary h]
  exact after_bind fun right rest => after_readOperators level _ rest

/-- reading at a higher level first and then at a lower one changes nothing -/
theorem afterExpr_absorb (h : l ≤ m) (ts : List Token) :
    afterExpr m ts >>= afterOperators l = afterExpr l ts := by
  unfold afterExpr
  rw [← readExpr_absorb h]
  exact (after_bind fun e rest => after_readOperators l e rest).symm

theorem afterExpr_unary (op : UnaryOp) (ts : List Token) :
    afterExpr 0 (.symbol op.symbol :: ts) = afterExpr 0 ts := by
  rw [afterExpr_eq, afterOperand_unary]
  exact afterExpr_absorb (Nat.zero_le _) ts

theorem afterOperators_operator (op : BinaryOp) (ts : List Token) :
    afterOperators 0 (.symbol op.symbol :: ts) = afterExpr 0 ts := by
  rw [afterOperators_binary op.level_pos]
  exact afterExpr_absorb (Nat.zero_le _) ts

/-! ## statements -/

theorem afterStatement_let (x : String) (ts : List Token) :
    afterStatement (.keyword .letKw :: .name x :: .symbol .assign :: ts) =
      afterExpr 0 ts >>= afterTerminator := by
  rw [afterStatement, readStatement_let, readName_name]
  simp only [ok_bind, afterSymbol_self]
  exact after_bind fun e rest => after_bind_rest_pure fun rest => rfl

theorem name_of_afterStatement_let (h : afterStatement (.keyword .letKw :: ts) = .ok rest) :
    ∃ x us, ts = .name x :: .symbol .assign :: us := by
  obtain ⟨s, h⟩ := after_eq_ok.mp h
  rw [readStatement_let] at h
  obtain ⟨⟨x, us⟩, hx, h⟩ := bind_eq_ok h
  obtain ⟨us', hu, -⟩ := bind_eq_ok h
  obtain rfl := eq_of_afterSymbol hu
  exact ⟨x, us', eq_of_readName hx⟩

theorem afterStatement_return (ts : List Token) :
    afterStatement (.keyword .returnKw :: ts) = afterExpr 0 ts >>= afterTerminator := by
  rw [afterStatement, readStatement_return]
  exact after_bind fun e rest => after_bind_rest_pure fun rest => rfl

theorem afterStatement_of_ne (hl : ∀ rest, ts ≠ .keyword .letKw :: rest)
    (hr : ∀ rest, ts ≠ .keyword .returnKw :: rest) :
    afterStatement ts = (afterExpr 0 ts).map skipSemicolon := by
  rw [afterStatement, readStatement_of_ne hl hr, afterExpr]
  cases readExpr 0 ts <;> rfl

theorem not_atEnd_of_afterStatement (h : afterStatement ts = .ok rest) : ¬ AtEnd ts := by
  obtain ⟨s, h⟩ := after_eq_ok.mp h
  exact not_atEnd_of_readStatement h

/-- statements can be read one after the other from `ts` until `rest` is left -/
def Statements : List Token → List Token → Prop :=
  Relation.ReflTransGen fun ts rest => afterStatement ts = .ok rest

theorem Statements.eq_of_atEnd (h : Statements ts rest) (he : AtEnd ts) : rest = ts := by
  obtain rfl | ⟨r, hr, -⟩ := Relation.ReflTransGen.cases_head h
  · rfl
  · exact absurd he (not_atEnd_of_afterStatement hr)

theorem afterBlock_of_ne (hn : ts ≠ []) (h : ∀ rest, ts ≠ .symbol .rbrace :: rest) :
    afterBlock ts = afterStatement ts >>= afterBlock := by
  rw [afterBlock, readBlock_of_ne hn h]
  exact after_bind fun s rest => after_bind_pure fun ss rest => rfl

theorem afterBlock_rbrace (ts : List Token) : afterBlock (.symbol .rbrace :: ts) = .ok ts := by
  rw [afterBlock, readBlock_rbrace]
  rfl

theorem afterBlock_of_statements (h : Statements ts (.symbol .rbrace :: rest)) :
    afterBlock ts = .ok rest := by
  induction h using Relation.ReflTransGen.head_induction_on with
  | refl => exact afterBlock_rbrace rest
  | head hs _ ih =>
    have hend := not_atEnd_of_afterStatement hs
    rw [afterBlock_of_ne (fun h => hend (.inl h)) (fun r h => hend (.inr ⟨r, h⟩)), hs]
    exact ih

theorem errors_of_statements (h : Statements ts []) : (Program.parse ts).errors = [] := by
  induction h using Relation.ReflTransGen.head_induction_on with
  | refl => rw [Program.parse_nil]
  | head hs _ ih =>
    obtain ⟨s, hs⟩ := after_eq_ok.mp hs
    rw [Program.parse_of_ok hs]
    exact ih

theorem statements_of_errors (h : (Program.parse ts).errors = []) : Statements ts [] := by
  induction hn : ts.length using Nat.strongRecOn generalizing ts with
  | _ n ih =>
    subst hn
    cases ts with
    | nil => exact .refl
    | cons t ts =>
      cases hs : readStatement (t :: ts) with
      | error failure =>
        rw [Program.parse_of_error hs] at h
        cases h
      | ok p =>
        rw [Program.parse_of_ok hs] at h
        exact .head (after_eq_ok.mpr ⟨p.1, hs⟩) (ih _ (length_readStatement hs) h rfl)

end Parser

end MonkeyLang
