import MonkeyLang.Proofs.Program.Descent
import MonkeyLang.Proofs.Program.Reading

/-!
# Levels and layers read the same expressions

The parser has one loop over operators, which asks for a level and calls itself with higher ones
(`Parser.operators`).  The descent of `Descent` has one loop for each layer.

* `Layer.floor l`      the level that the operators of the layer `l` just exceed;
* `Agree n`            both ways read the same expression, or fail in the same way, from fewer
                       than `n` tokens;
* `statement_eq`, `block_eq`, `primary_eq` …  so they agree on what is made of such expressions;
* `readLoop_eq`, `readLayer_eq`   where a loop of one layer starts, all tighter operators have been
                       read, so it is the parser's loop;
* `Parser.expr_eq_layers`   both ways agree on all tokens.
-/

namespace MonkeyLang.Descent

open MonkeyLang.Parser (readExpr readOperators readOperand view)

/-! ## layers and levels -/

/-- the level that the operators of a layer just exceed -/
def Layer.floor : Layer → Nat
  | equality => 0
  | comparison => 1
  | sum => 2
  | product => 3

theorem Layer.operator?_eq (l : Layer) (s : Symbol) :
    l.operator? s = (BinaryOp.ofSymbol? s).filter fun op => op.level == l.floor + 1 := by
  cases l <;> cases s <;> rfl

theorem view_injective {α : Type} {n : Nat} {x y : Except Failure (Parsed α n)}
    (h : view x = view y) : x = y := by
  cases x with
  | error failure =>
    cases y with
    | error failure' => cases h; rfl
    | ok q => cases h
  | ok p =>
    cases y with
    | error failure' => cases h
    | ok q =>
      obtain ⟨v, r, hp⟩ := p
      obtain ⟨w, r', hq⟩ := q
      cases h
      rfl

/-! ## what is made of expressions -/

/-- both ways read the same from fewer than `n` tokens -/
def Agree (n : Nat) : Prop :=
  ∀ ts : List Token, ts.length < n → layer .equality ts = Parser.expr 0 ts

section
variable {n : Nat} (h : Agree n)
include h

theorem moreArguments_eq (ts : List Token) (hts : ts.length ≤ n) :
    moreArguments ts = Parser.moreArguments ts := by
  induction hn : ts.length using Nat.strongRecOn generalizing ts with
  | _ k ih =>
    subst hn
    by_cases hc : ∃ rest, ts = .symbol .comma :: rest
    · obtain ⟨rest, rfl⟩ := hc
      rw [List.length_cons] at hts
      rw [moreArguments, Parser.moreArguments, h rest (by omega)]
      refine bind_congr fun e => ?_
      have hlt := e.shorter
      rw [ih e.rest.length (by rw [List.length_cons]; omega) e.rest (by omega) rfl]
    · have hne : ∀ rest, ts ≠ .symbol .comma :: rest := fun rest hr => hc ⟨rest, hr⟩
      rw [moreArguments, Parser.moreArguments]
      · exact hne
      · exact hne

theorem arguments_eq (ts : List Token) (hts : ts.length < n) :
    arguments ts = Parser.arguments ts := by
  by_cases hc : ∃ rest, ts = .symbol .rparen :: rest
  · obtain ⟨rest, rfl⟩ := hc
    rw [arguments, Parser.arguments]
  · have hne : ∀ rest, ts ≠ .symbol .rparen :: rest := fun rest hr => hc ⟨rest, hr⟩
    rw [arguments, Parser.arguments, h ts hts]
    · refine bind_congr fun e => ?_
      have hlt := e.shorter
      rw [moreArguments_eq h e.rest (by omega)]
    · exact hne
    · exact hne

theorem statement_eq (ts : List Token) (hts : ts.length < n) :
    statement ts = Parser.statement ts := by
  by_cases hl : ∃ rest, ts = .keyword .letKw :: rest
  · obtain ⟨rest, rfl⟩ := hl
    rw [List.length_cons] at hts
    rw [statement, Parser.statement]
    refine bind_congr fun x => bind_congr fun sign => ?_
    have hx := x.shorter
    have hsign := sign.shorter
    rw [h sign.rest (by omega)]
  by_cases hr : ∃ rest, ts = .keyword .returnKw :: rest
  · obtain ⟨rest, rfl⟩ := hr
    rw [List.length_cons] at hts
    rw [statement, Parser.statement, h rest (by omega)]
  · have hnl : ∀ rest, ts ≠ .keyword .letKw :: rest := fun rest hts => hl ⟨rest, hts⟩
    have hnr : ∀ rest, ts ≠ .keyword .returnKw :: rest := fun rest hts => hr ⟨rest, hts⟩
    rw [statement, Parser.statement, h ts hts]
    · exact hnl
    · exact hnr
    · exact hnl
    · exact hnr

theorem block_eq (ts : List Token) (hts : ts.length < n) : block ts = Parser.block ts := by
  induction hn : ts.length using Nat.strongRecOn generalizing ts with
  | _ k ih =>
    subst hn
    by_cases hnil : ts = []
    · subst hnil
      rw [block, Parser.block]
    by_cases hc : ∃ rest, ts = .symbol .rbrace :: rest
    · obtain ⟨rest, rfl⟩ := hc
      rw [block, Parser.block]
    · have hne : ∀ rest, ts ≠ .symbol .rbrace :: rest := fun rest hr => hc ⟨rest, hr⟩
      rw [block, Parser.block, statement_eq h ts hts]
      · refine bind_congr fun s => ?_
        have hlt := s.shorter
        rw [ih s.rest.length hlt s.rest (by omega) rfl]
      · exact hnil
      · exact hne
      · exact hnil
      · exact hne

theorem alternative_eq (test : Expr) (body : Block) (ts : List Token) (hts : ts.length ≤ n) :
    alternative test body ts = Parser.alternative test body ts := by
  by_cases hc : ∃ rest, ts = .keyword .elseKw :: rest
  · obtain ⟨rest, rfl⟩ := hc
    rw [List.length_cons] at hts
    rw [alternative, Parser.alternative]
    refine bind_congr fun brace => ?_
    have hlt := brace.shorter
    rw [block_eq h brace.rest (by omega)]
  · have hne : ∀ rest, ts ≠ .keyword .elseKw :: rest := fun rest hr => hc ⟨rest, hr⟩
    rw [alternative, Parser.alternative]
    · exact hne
    · exact hne

/-- what is no unary operation is the same to both -/
theorem primary_eq (ts : List Token) (hts : ts.length ≤ n)
    (hne : ∀ (op : UnaryOp) (rest : List Token), ts ≠ .symbol op.symbol :: rest) :
    primary ts = Parser.operand ts := by
  cases ts with
  | nil => rw [primary, Parser.operand]
  | cons t rest =>
    rw [List.length_cons] at hts
    cases hs : Parser.startsExpr t with
    | false =>
      rw [primary, Parser.operand]
      all_goals
        intros
        subst t
        cases hs
    | true =>
      rcases Parser.startsExpr_cases hs with
        ⟨x, rfl⟩ | ⟨digits, rfl⟩ | ⟨b, rfl⟩ | ⟨op, rfl⟩ | rfl | rfl | rfl
      · rw [primary, Parser.operand]
      · cases hd : Integer.ofDigits? digits with
        | none => simp only [primary, Parser.operand, hd]
        | some n => simp only [primary, Parser.operand, hd]
      · cases b <;> rw [Keyword.ofBool, primary, Parser.operand]
      · exact absurd rfl (hne op rest)
      · rw [primary, Parser.operand, h rest (by omega)]
      · rw [primary, Parser.operand]
        refine bind_congr fun opening => ?_
        have hopening := opening.shorter
        rw [h opening.rest (by omega)]
        refine bind_congr fun test => bind_congr fun close => bind_congr fun brace => ?_
        have htest := test.shorter
        have hclose := close.shorter
        have hbrace := brace.shorter
        rw [block_eq h brace.rest (by omega)]
        refine bind_congr fun body => ?_
        have hbody := body.shorter
        rw [alternative_eq h _ _ body.rest (by omega)]
      · rw [primary, Parser.operand]
        refine bind_congr fun opening => bind_congr fun xs => bind_congr fun brace => ?_
        have hopening := opening.shorter
        have hxs := xs.shorter
        have hbrace := brace.shorter
        rw [block_eq h brace.rest (by omega)]

end

/-! ## where a level ends -/

theorem not_tighter_of_readOperators {level : Nat} {left e : Expr} {ts rest : List Token}
    (h : readOperators level left ts = .ok (e, rest)) : Parser.tighter level rest = false := by
  induction hn : ts.length using Nat.strongRecOn generalizing ts left with
  | _ k ih =>
    subst hn
    cases hc : Parser.tighter level ts with
    | false =>
      rw [Parser.readOperators_of_not_tighter _ hc] at h
      cases h
      exact hc
    | true =>
      rcases Parser.tighter_cases hc with ⟨us, rfl⟩ | ⟨op, us, rfl, hlt⟩
      · rw [Parser.readOperators_lparen] at h
        obtain ⟨⟨args, r⟩, hargs, hmore⟩ := Parser.bind_eq_ok h
        exact ih _ (Nat.lt_succ_of_lt (Parser.length_readArguments hargs)) hmore rfl
      · rw [Parser.readOperators_binary hlt] at h
        obtain ⟨⟨right, r⟩, hright, hmore⟩ := Parser.bind_eq_ok h
        exact ih _ (Nat.lt_succ_of_lt (Parser.length_readExpr hright)) hmore rfl

theorem not_tighter_of_readExpr {level : Nat} {e : Expr} {ts rest : List Token}
    (h : readExpr level ts = .ok (e, rest)) : Parser.tighter level rest = false := by
  rw [Parser.readExpr_eq] at h
  obtain ⟨⟨first, r⟩, -, hmore⟩ := Parser.bind_eq_ok h
  exact not_tighter_of_readOperators hmore

/-- after a reading at a high level, a lower one reads on from what the high one does not take -/
theorem readExpr_bind_congr {l m : Nat} (h : l ≤ m) {ts : List Token}
    {next : Expr × List Token → Except Failure (Expr × List Token)}
    (hnext : ∀ e rest, readExpr m ts = .ok (e, rest) → Parser.tighter m rest = false →
      next (e, rest) = readOperators l e rest) :
    readExpr m ts >>= next = readExpr l ts := by
  rw [← Parser.readExpr_absorb h]
  cases hread : readExpr m ts with
  | error failure => rfl
  | ok p =>
    obtain ⟨e, rest⟩ := p
    exact hnext e rest hread (not_tighter_of_readExpr hread)

theorem not_tighter_unaryLevel {ts : List Token} (h : ∀ rest, ts ≠ .symbol .lparen :: rest) :
    Parser.tighter unaryLevel ts = false := by
  rw [Bool.eq_false_iff]
  intro hc
  rcases Parser.tighter_cases hc with ⟨rest, rfl⟩ | ⟨op, rest, -, hlt⟩
  · exact h rest rfl
  · exact Nat.lt_asymm hlt op.level_lt_unaryLevel

/-! ## calls and unary operators -/

def readCalls (callee : Expr) (ts : List Token) : Except Failure (Expr × List Token) :=
  view (calls callee ts)

def readUnary (ts : List Token) : Except Failure (Expr × List Token) := view (unary ts)

def readLoop (l : Layer) (left : Expr) (ts : List Token) : Except Failure (Expr × List Token) :=
  view (loop l left ts)

def readInner (l : Layer) (ts : List Token) : Except Failure (Expr × List Token) :=
  view (inner l ts)

def readLayer (l : Layer) (ts : List Token) : Except Failure (Expr × List Token) :=
  view (layer l ts)

theorem readCalls_lparen (callee : Expr) (ts : List Token) :
    readCalls callee (.symbol .lparen :: ts) = (do
      let (args, rest) ← view (arguments ts)
      readCalls (.call callee args) rest) := by
  rw [readCalls, calls]
  exact Parser.view_bind fun args => Parser.view_bind_pure fun whole => rfl

theorem readCalls_of_ne (callee : Expr) {ts : List Token}
    (h : ∀ rest, ts ≠ .symbol .lparen :: rest) : readCalls callee ts = .ok (callee, ts) := by
  rw [readCalls, calls]
  · rfl
  · exact h

theorem readUnary_symbol (op : UnaryOp) (ts : List Token) :
    readUnary (.symbol op.symbol :: ts) = (do
      let (e, rest) ← readUnary ts
      return (.unary op e, rest)) := by
  cases op <;> rw [readUnary, UnaryOp.symbol, unary] <;> exact Parser.view_bind fun e => rfl

theorem readUnary_of_ne {ts : List Token}
    (h : ∀ (op : UnaryOp) (rest : List Token), ts ≠ .symbol op.symbol :: rest) :
    readUnary ts = (do
      let (first, rest) ← view (primary ts)
      readCalls first rest) := by
  rw [readUnary, unary, call]
  · exact Parser.view_bind fun first => Parser.view_bind_pure fun whole => rfl
  · exact h .not
  · exact h .neg

section
variable {n : Nat} (h : Agree n)
include h

theorem readCalls_eq (callee : Expr) (ts : List Token) (hts : ts.length ≤ n) :
    readCalls callee ts = readOperators unaryLevel callee ts := by
  induction hn : ts.length using Nat.strongRecOn generalizing ts callee with
  | _ k ih =>
    subst hn
    by_cases hc : ∃ rest, ts = .symbol .lparen :: rest
    · obtain ⟨rest, rfl⟩ := hc
      rw [List.length_cons] at hts
      rw [readCalls_lparen, arguments_eq h rest (by omega), Parser.readOperators_lparen]
      show Parser.readArguments rest >>= _ = _
      cases hread : Parser.readArguments rest with
      | error failure => rfl
      | ok p =>
        obtain ⟨args, r⟩ := p
        have hlt := Parser.length_readArguments hread
        exact ih r.length (by rw [List.length_cons]; omega) _ r (by omega) rfl
    · have hne : ∀ rest, ts ≠ .symbol .lparen :: rest := fun rest hr => hc ⟨rest, hr⟩
      rw [readCalls_of_ne callee hne,
        Parser.readOperators_of_not_tighter _ (not_tighter_unaryLevel hne)]

theorem readUnary_eq (ts : List Token) (hts : ts.length ≤ n) :
    readUnary ts = readExpr unaryLevel ts := by
  induction hn : ts.length using Nat.strongRecOn generalizing ts with
  | _ k ih =>
    subst hn
    by_cases hc : ∃ op rest, ts = .symbol (UnaryOp.symbol op) :: rest
    · obtain ⟨op, rest, rfl⟩ := hc
      rw [List.length_cons] at hts
      have hrest := ih rest.length (Nat.lt_succ_self _) rest (by omega) rfl
      rw [readUnary_symbol, hrest, Parser.readExpr_eq unaryLevel (.symbol op.symbol :: rest),
        Parser.readOperand_unary]
      cases hread : readExpr unaryLevel rest with
      | error failure => rfl
      | ok p =>
        -- all that binds tighter has been read with the operand
        obtain ⟨e, r⟩ := p
        exact (Parser.readOperators_of_not_tighter _ (not_tighter_of_readExpr hread)).symm
    · have hne : ∀ (op : UnaryOp) (rest : List Token), ts ≠ .symbol op.symbol :: rest :=
        fun op rest hr => hc ⟨op, rest, hr⟩
      rw [readUnary_of_ne hne, primary_eq h ts hts hne, Parser.readExpr_eq]
      show readOperand ts >>= _ = _
      cases hread : readOperand ts with
      | error failure => rfl
      | ok p =>
        obtain ⟨first, r⟩ := p
        have hlt := Parser.length_readOperand hread
        exact readCalls_eq h first r (by omega)

end

/-! ## layers -/

/-- no operator is read at the level of unary operators, nor at the one below -/
theorem readExpr_unaryLevel (ts : List Token) :
    readExpr unaryLevel ts = readExpr (Layer.product.floor + 1) ts := by
  have hpure : ∀ e rest, readExpr unaryLevel ts = .ok (e, rest) →
      Parser.tighter unaryLevel rest = false →
      (pure (e, rest) : Except Failure _) = readOperators (Layer.product.floor + 1) e rest := by
    intro e rest _ ht
    refine (Parser.readOperators_of_not_tighter _ ?_).symm
    rw [Bool.eq_false_iff]
    intro hc
    rcases Parser.tighter_cases hc with ⟨us, rfl⟩ | ⟨op, us, rfl, hlt⟩
    · cases ht
    · cases op <;> exact absurd hlt (by decide)
  have hread := readExpr_bind_congr (by decide) hpure
  rw [bind_pure] at hread
  exact hread

theorem readLoop_operator {l : Layer} {op : BinaryOp} (h : op.level = l.floor + 1) (left : Expr)
    (ts : List Token) :
    readLoop l left (.symbol op.symbol :: ts) = (do
      let (right, rest) ← readInner l ts
      readLoop l (.binary left op right) rest) := by
  have hop : l.operator? op.symbol = some op := by
    rw [Layer.operator?_eq, BinaryOp.ofSymbol?_symbol]
    simp [h]
  rw [readLoop, loop, hop]
  exact Parser.view_bind fun right => Parser.view_bind_pure fun whole => rfl

theorem readLoop_of_ne {l : Layer} {ts : List Token} (left : Expr)
    (h : ∀ (op : BinaryOp) (rest : List Token),
      op.level = l.floor + 1 → ts ≠ .symbol op.symbol :: rest) :
    readLoop l left ts = .ok (left, ts) := by
  by_cases hs : ∃ s rest, ts = .symbol s :: rest
  · obtain ⟨s, rest, rfl⟩ := hs
    cases hop : l.operator? s with
    | none =>
      rw [readLoop, loop, hop]
      rfl
    | some op =>
      rw [Layer.operator?_eq, Option.filter_eq_some_iff, beq_iff_eq] at hop
      exact absurd (by rw [BinaryOp.symbol_of_ofSymbol? hop.1]) (h op rest hop.2)
  · rw [readLoop, loop]
    · rfl
    · exact fun s rest hr => hs ⟨s, rest, hr⟩

section
variable {l : Layer} {n : Nat}
  (hinner : ∀ ts : List Token, ts.length ≤ n → readInner l ts = readExpr (l.floor + 1) ts)
include hinner

/-- where all tighter operators have been read, the loop of a layer is the loop at its level -/
theorem readLoop_eq (left : Expr) (ts : List Token) (hts : ts.length ≤ n)
    (ht : Parser.tighter (l.floor + 1) ts = false) :
    readLoop l left ts = readOperators l.floor left ts := by
  induction hn : ts.length using Nat.strongRecOn generalizing ts left with
  | _ k ih =>
    subst hn
    by_cases hc : ∃ op rest, ts = .symbol (BinaryOp.symbol op) :: rest ∧ op.level = l.floor + 1
    · obtain ⟨op, rest, rfl, hlevel⟩ := hc
      rw [List.length_cons] at hts
      rw [readLoop_operator hlevel, Parser.readOperators_binary (by omega), hinner rest (by omega),
        hlevel]
      cases hread : readExpr (l.floor + 1) rest with
      | error failure => rfl
      | ok p =>
        obtain ⟨right, r⟩ := p
        have hlt := Parser.length_readExpr hread
        exact ih r.length (by rw [List.length_cons]; omega) _ r (by omega)
          (not_tighter_of_readExpr hread) rfl
    · have hne : ∀ (op : BinaryOp) (rest : List Token),
          op.level = l.floor + 1 → ts ≠ .symbol op.symbol :: rest :=
        fun op rest hlevel hr => hc ⟨op, rest, hr, hlevel⟩
      rw [readLoop_of_ne left hne, Parser.readOperators_of_not_tighter]
      rw [Bool.eq_false_iff]
      intro hlower
      rcases Parser.tighter_cases hlower with ⟨rest, rfl⟩ | ⟨op, rest, rfl, hlt⟩
      · cases ht
      · rw [Parser.tighter_binary, decide_eq_false_iff_not] at ht
        exact hne op rest (by omega) rfl

theorem readLayer_eq (ts : List Token) (hts : ts.length ≤ n) :
    readLayer l ts = readExpr l.floor ts := by
  have hlayer : readLayer l ts = (do
      let (first, rest) ← readInner l ts
      readLoop l first rest) := by
    rw [readLayer, layer]
    exact Parser.view_bind fun first => Parser.view_bind_pure fun whole => rfl
  rw [hlayer, hinner ts hts]
  refine readExpr_bind_congr (Nat.le_succ _) fun e rest hread ht => ?_
  have hlt := Parser.length_readExpr hread
  exact readLoop_eq hinner e rest (by omega) ht

end

/-- from the innermost layer outwards -/
theorem readInner_eq {n : Nat} (h : Agree n) (l : Layer) (ts : List Token) (hts : ts.length ≤ n) :
    readInner l ts = readExpr (l.floor + 1) ts := by
  have hproduct : ∀ us : List Token, us.length ≤ n →
      readInner .product us = readExpr (Layer.product.floor + 1) us := by
    intro us hus
    rw [← readExpr_unaryLevel, ← readUnary_eq h us hus, readInner, inner]
    rfl
  have hsum : ∀ us : List Token, us.length ≤ n →
      readInner .sum us = readExpr (Layer.sum.floor + 1) us := by
    intro us hus
    rw [readInner, inner]
    exact readLayer_eq hproduct us hus
  have hcomparison : ∀ us : List Token, us.length ≤ n →
      readInner .comparison us = readExpr (Layer.comparison.floor + 1) us := by
    intro us hus
    rw [readInner, inner]
    exact readLayer_eq hsum us hus
  cases l with
  | equality =>
    rw [readInner, inner]
    exact readLayer_eq hcomparison ts hts
  | comparison => exact hcomparison ts hts
  | sum => exact hsum ts hts
  | product => exact hproduct ts hts

theorem agree (n : Nat) : Agree n := by
  induction n with
  | zero =>
    intro ts hts
    exact absurd hts (Nat.not_lt_zero _)
  | succ n ih =>
    intro ts hts
    exact view_injective (readLayer_eq (readInner_eq ih .equality) ts (Nat.le_of_lt_succ hts))

end MonkeyLang.Descent

namespace MonkeyLang.Parser

/-- **Reading by levels is reading by layers.**  From any tokens the parser reads the same
expression as the descent through the layers and leaves the same tokens after it, or it fails with
the same error and has left the same tokens unread. -/
theorem expr_eq_layers (ts : List Token) : expr 0 ts = Descent.layer .equality ts :=
  (Descent.agree (ts.length + 1) ts (Nat.lt_succ_self _)).symm

end MonkeyLang.Parser
