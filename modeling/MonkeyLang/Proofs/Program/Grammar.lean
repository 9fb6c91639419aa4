import MonkeyLang.Proofs.Program.Extent

/-!
# The grammar of programs, and that all of it can be read

* `Phrase`, `Derives`     the grammar: which lists of tokens each phrase derives.  It is ambiguous:
                          `a -b` is one expression or two statements, and so is `f (x)`;
* `InRange ts`            the numbers among `ts` fit into 64 bits;
* `Accepted p w`          how the parser reads the tokens `w` of the phrase `p`;
* `Derives.accepted`      it reads everything that the grammar derives.

The parser goes on as long as it can, so an expression statement may swallow the start of the
statement after it.  Where it then stops, the reading still comes to the same end: `Follows` is
what one statement passes on to the one before it.
-/

namespace MonkeyLang

/-! ## the grammar -/

inductive Phrase where
  /-- any number of statements: a program, or the inside of a block -/
  | statements
  /-- one statement; only the last of several may be one that is not `ended` -/
  | statement (ended : Bool)
  /-- statements in braces -/
  | block
  | expression
  /-- what an expression starts with -/
  | operand
  /-- what may follow an operand, any number of times -/
  | operators
  | operator
  /-- names and expressions with commas between them -/
  | params
  | moreParams
  | arguments
  | moreArguments

/-- a semicolon, or none -/
def semicolonIf : Bool → List Token
  | true => [.symbol .semicolon]
  | false => []

open Phrase in
set_option autoImplicit true in
/-- the lists of tokens that a phrase derives -/
inductive Derives : Phrase → List Token → Prop where
  -- statement*
  | noStatement : Derives statements []
  | lastStatement : Derives (statement ended) w → Derives statements w
  | moreStatements : Derives (statement true) w → Derives statements v →
      Derives statements (w ++ v)
  -- "let" IDENT "=" expression ";"? | "return" expression ";"? | expression ";"?
  | bind : Derives expression e →
      Derives (statement ended)
        (.keyword .letKw :: .name x :: .symbol .assign :: (e ++ semicolonIf ended))
  | ret : Derives expression e →
      Derives (statement ended) (.keyword .returnKw :: (e ++ semicolonIf ended))
  | expr : Derives expression e → Derives (statement true) (e ++ semicolonIf b)
  -- "{" statement* "}"
  | block : Derives statements w →
      Derives block (.symbol .lbrace :: (w ++ [.symbol .rbrace]))
  -- operand operator*
  | expression : Derives operand w → Derives operators v → Derives expression (w ++ v)
  | noOperator : Derives operators []
  | moreOperators : Derives operator w → Derives operators v → Derives operators (w ++ v)
  -- IDENT | INT | "true" | "false" | ("!" | "-") expression | "(" expression ")"
  | name : Derives operand [.name x]
  | number : Derives operand [.number digits]
  | bool : Derives operand [.keyword (.ofBool b)]
  | unary : Derives expression e → Derives operand (.symbol (UnaryOp.symbol op) :: e)
  | group : Derives expression e →
      Derives operand (.symbol .lparen :: (e ++ [.symbol .rparen]))
  -- "if" "(" expression ")" block ("else" block)?
  | cond : Derives expression test → Derives block body →
      Derives operand
        (.keyword .ifKw :: .symbol .lparen :: (test ++ .symbol .rparen :: body))
  | condElse : Derives expression test → Derives block body → Derives block other →
      Derives operand
        (.keyword .ifKw :: .symbol .lparen ::
          (test ++ .symbol .rparen :: (body ++ .keyword .elseKw :: other)))
  -- "fn" "(" (IDENT ("," IDENT)*)? ")" block
  | func : Derives params xs → Derives block body →
      Derives operand (.keyword .fnKw :: .symbol .lparen :: (xs ++ .symbol .rparen :: body))
  -- OPERATOR expression | "(" (expression ("," expression)*)? ")"
  | binary : Derives expression e → Derives operator (.symbol (BinaryOp.symbol op) :: e)
  | call : Derives arguments es →
      Derives operator (.symbol .lparen :: (es ++ [.symbol .rparen]))
  | noParams : Derives params []
  | someParams : Derives moreParams xs → Derives params (.name x :: xs)
  | lastParam : Derives moreParams []
  | nextParam : Derives moreParams xs → Derives moreParams (.symbol .comma :: .name x :: xs)
  | noArguments : Derives arguments []
  | someArguments : Derives expression e → Derives moreArguments es →
      Derives arguments (e ++ es)
  | lastArgument : Derives moreArguments []
  | nextArgument : Derives expression e → Derives moreArguments es →
      Derives moreArguments (.symbol .comma :: (e ++ es))

/-- a number denotes at most the greatest integer, `2^63 - 1` -/
def Token.InRange : Token → Prop
  | .number digits => (Integer.decimalValue digits.toList : Int) ≤ Integer.greatest
  | _ => True

/-- all numbers among the tokens are in range -/
def InRange (ts : List Token) : Prop := ∀ t ∈ ts, t.InRange

@[simp] theorem inRange_nil : InRange [] := by simp [InRange]

@[simp] theorem inRange_cons {t : Token} {ts : List Token} :
    InRange (t :: ts) ↔ t.InRange ∧ InRange ts := List.forall_mem_cons

@[simp] theorem inRange_append {ts us : List Token} :
    InRange (ts ++ us) ↔ InRange ts ∧ InRange us := List.forall_mem_append

@[simp] theorem Token.inRange_name (x : String) : (Token.name x).InRange := trivial
@[simp] theorem Token.inRange_symbol (s : Symbol) : (Token.symbol s).InRange := trivial
@[simp] theorem Token.inRange_keyword (k : Keyword) : (Token.keyword k).InRange := trivial

@[simp] theorem inRange_semicolonIf (b : Bool) : InRange (semicolonIf b) := by
  cases b <;> simp [semicolonIf]

theorem Integer.ofDigits?_of_le {digits : String}
    (h : (Integer.decimalValue digits.toList : Int) ≤ Integer.greatest) :
    Integer.ofDigits? digits = some (Int64.ofInt (Integer.decimalValue digits.toList)) := by
  rw [Integer.ofDigits?, Integer.ofInt?, if_pos]
  refine ⟨?_, h⟩
  unfold Integer.least
  omega

theorem Integer.le_of_ofDigits? {digits : String} {n : Integer}
    (h : Integer.ofDigits? digits = some n) :
    (Integer.decimalValue digits.toList : Int) ≤ Integer.greatest := by
  rw [← Integer.toInt_of_ofInt? h]
  exact Integer.toInt_le_greatest n

/-! ## what the grammar derives is read -/

namespace Parser
variable {stop ts rest w v : List Token}

/-- after an expression, whose operators may go on into `ts`, statements can be read from there
until `stop` is left -/
def Joins (stop ts : List Token) : Prop :=
  ∃ r, afterOperators 0 ts = .ok r ∧ Statements (skipSemicolon r) stop

/-- statements can be read from `ts` until `stop` is left, also when an expression comes first
that takes the start of `ts` for operators of its own -/
structure Follows (stop ts : List Token) : Prop where
  noElse : NoElse ts
  alone : Statements ts stop
  joined : Joins stop ts

theorem joins_of_not_tighter (h : Statements ts stop) (ht : tighter 0 ts = false)
    (hs : ∀ rest, ts ≠ .symbol .semicolon :: rest) : Joins stop ts := by
  refine ⟨ts, afterOperators_of_not_tighter ht, ?_⟩
  rw [skipSemicolon_of_ne hs]
  exact h

theorem joins_semicolon (h : Statements ts stop) : Joins stop (.symbol .semicolon :: ts) :=
  ⟨_, afterOperators_of_not_tighter rfl, h⟩

theorem Follows.of_atEnd (h : AtEnd stop) : Follows stop stop := by
  have hstop := stops_of_atEnd h
  refine ⟨hstop.noElse, .refl, joins_of_not_tighter .refl hstop.not_tighter ?_⟩
  obtain rfl | ⟨rest, rfl⟩ := h <;> simp

/-- the tokens `w` are read as an expression, as far as they go, and no expression before them
ends in their middle -/
structure Whole (w : List Token) : Prop where
  read : ∀ rest, NoElse rest → afterExpr 0 (w ++ rest) = afterOperators 0 rest
  joined : (∀ rest, tighter 0 (w ++ rest) = false) ∨
    ∀ rest, NoElse rest → afterOperators 0 (w ++ rest) = afterOperators 0 rest

theorem whole_of_operand (h : ∀ rest, NoElse rest → afterOperand (w ++ rest) = .ok rest)
    (ht : ∀ rest, tighter 0 (w ++ rest) = false) : Whole w := by
  refine ⟨fun rest hrest => ?_, .inl ht⟩
  rw [afterExpr_eq, h rest hrest, ok_bind]

theorem Whole.ends (h : Whole w) (hrest : Stops rest) : afterExpr 0 (w ++ rest) = .ok rest := by
  rw [h.read rest hrest.noElse, afterOperators_of_not_tighter hrest.not_tighter]

theorem Whole.append_ne (h : Whole w) {t : Token} (ht : startsExpr t = false) (ts : List Token) :
    ∀ rest, w ++ ts ≠ t :: rest := by
  have hread : afterExpr 0 (w ++ []) = .ok [] := h.ends (stops_of_atEnd (.inl rfl))
  rw [List.append_nil] at hread
  obtain ⟨e, hread⟩ := after_eq_ok.mp hread
  exact append_ne_of_readExpr hread ht ts

/-- an expression statement before other statements -/
theorem Whole.follows (h : Whole w) (hn : NoElse ts) (hj : Joins stop ts) :
    Follows stop (w ++ ts) := by
  obtain ⟨r, hr, hs⟩ := hj
  have hstatement : afterStatement (w ++ ts) = .ok (skipSemicolon r) := by
    rw [afterStatement_of_ne (h.append_ne rfl ts) (h.append_ne rfl ts), h.read ts hn, hr]
    rfl
  have halone : Statements (w ++ ts) stop := .head hstatement hs
  refine ⟨h.append_ne rfl ts, halone, ?_⟩
  cases h.joined with
  | inl ht => exact joins_of_not_tighter halone (ht ts) (h.append_ne rfl ts)
  | inr ht => exact ⟨r, (ht ts hn).trans hr, hs⟩

/-- a `let` or `return` before other statements -/
theorem follows_of_keyword {k : Keyword} (hk : k ≠ .elseKw)
    (h : afterStatement (.keyword k :: ts) = .ok rest) (hf : Follows stop rest) :
    Follows stop (.keyword k :: ts) := by
  have halone : Statements (.keyword k :: ts) stop := .head h hf.alone
  refine ⟨?_, halone, joins_of_not_tighter halone rfl (by simp)⟩
  rintro us ⟨⟩
  exact hk rfl

theorem Whole.terminated (h : Whole w) {ended : Bool} (he : ended = false → AtEnd ts) :
    afterExpr 0 (w ++ semicolonIf ended ++ ts) >>= afterTerminator = .ok ts := by
  rw [List.append_assoc]
  cases ended with
  | true =>
    have hstops : Stops (semicolonIf true ++ ts) := ⟨rfl, noElse_symbol _ _⟩
    rw [h.ends hstops]
    rfl
  | false =>
    have hstops : Stops (semicolonIf false ++ ts) := stops_of_atEnd (he rfl)
    rw [h.ends hstops]
    exact afterTerminator_of_atEnd (he rfl)

end Parser

open MonkeyLang.Parser

/-- how the parser reads what a phrase derives -/
def Accepted : Phrase → List Token → Prop
  | .statements, w => ∀ stop, AtEnd stop → Follows stop (w ++ stop)
  | .statement ended, w => ∀ stop ts, Follows stop ts → (ended = false → AtEnd ts) →
      Follows stop (w ++ ts)
  | .block, w => ∃ v, w = .symbol .lbrace :: v ∧ ∀ rest, afterBlock (v ++ rest) = .ok rest
  | .expression, w | .operand, w => Whole w
  | .operators, w | .operator, w => ∀ rest, NoElse rest →
      NoElse (w ++ rest) ∧ afterOperators 0 (w ++ rest) = afterOperators 0 rest
  | .params, w => ∀ rest, afterParams (w ++ .symbol .rparen :: rest) = .ok rest
  | .moreParams, w => ∀ rest, afterMoreParams (w ++ .symbol .rparen :: rest) = .ok rest
  | .arguments, w => ∀ rest, afterArguments (w ++ .symbol .rparen :: rest) = .ok rest
  | .moreArguments, w => ∀ rest, Stops (w ++ .symbol .rparen :: rest) ∧
      afterMoreArguments (w ++ .symbol .rparen :: rest) = .ok rest

/-! One lemma for each rule in which several phrases meet. -/

section Rules
variable {e es test body other xs w v rest : List Token}

theorem Parser.Whole.argument (he : Whole e) (hes : Accepted .moreArguments es) :
    afterExpr 0 (e ++ es ++ .symbol .rparen :: rest) >>= afterMoreArguments = .ok rest := by
  obtain ⟨hstops, hmore⟩ := hes rest
  rw [List.append_assoc, he.ends hstops, ok_bind, hmore]

theorem accepted_lastArgument : Accepted .moreArguments [] := by
  intro rest
  refine ⟨⟨rfl, noElse_symbol _ _⟩, ?_⟩
  rw [List.nil_append, afterMoreArguments_of_ne (by simp), afterSymbol_self]

theorem accepted_someArguments (he : Whole e) (hes : Accepted .moreArguments es) :
    Accepted .arguments (e ++ es) := by
  intro rest
  rw [afterArguments_of_ne]
  · exact he.argument hes
  · rw [List.append_assoc]
    exact he.append_ne rfl _

theorem accepted_call (hes : Accepted .arguments es) :
    Accepted .operator (.symbol .lparen :: (es ++ [.symbol .rparen])) := by
  intro rest _
  refine ⟨noElse_symbol _ _, ?_⟩
  rw [List.cons_append, List.append_assoc, List.singleton_append, afterOperators_lparen, hes rest,
    ok_bind]

theorem accepted_group (he : Whole e) :
    Accepted .operand (.symbol .lparen :: (e ++ [.symbol .rparen])) := by
  refine ⟨fun rest hrest => ?_, .inr fun rest hrest => ?_⟩
  · have hends : afterExpr 0 (e ++ .symbol .rparen :: rest) = .ok (.symbol .rparen :: rest) :=
      he.ends ⟨rfl, noElse_symbol _ _⟩
    rw [List.cons_append, List.append_assoc, List.singleton_append, afterExpr_eq,
      afterOperand_lparen, hends, ok_bind, afterSymbol_self, ok_bind]
  · -- after an expression, the group is read as the only argument of a call
    have hargs := accepted_someArguments he accepted_lastArgument
    rw [List.append_nil] at hargs
    exact (accepted_call hargs rest hrest).2

/-- a conditional up to its first block -/
theorem afterOperand_test (ht : Whole test) (hb : Accepted .block body) :
    afterOperand (.keyword .ifKw :: .symbol .lparen :: (test ++ .symbol .rparen :: (body ++ rest))) =
      afterAlternative rest := by
  obtain ⟨v, rfl, hv⟩ := hb
  have hends : ∀ us, afterExpr 0 (test ++ .symbol .rparen :: us) = .ok (.symbol .rparen :: us) :=
    fun us => ht.ends ⟨rfl, noElse_symbol _ _⟩
  rw [afterOperand_if]
  simp only [afterSymbol_self, ok_bind, hends, List.cons_append, hv]

theorem accepted_cond (ht : Whole test) (hb : Accepted .block body) :
    Accepted .operand (.keyword .ifKw :: .symbol .lparen :: (test ++ .symbol .rparen :: body)) := by
  refine whole_of_operand (fun rest hrest => ?_) fun rest => rfl
  simp only [List.cons_append, List.append_assoc]
  rw [afterOperand_test ht hb, afterAlternative_of_ne hrest]

theorem accepted_condElse (ht : Whole test) (hb : Accepted .block body)
    (ho : Accepted .block other) :
    Accepted .operand (.keyword .ifKw :: .symbol .lparen ::
      (test ++ .symbol .rparen :: (body ++ .keyword .elseKw :: other))) := by
  obtain ⟨v, rfl, hv⟩ := ho
  refine whole_of_operand (fun rest _ => ?_) fun rest => rfl
  simp only [List.cons_append, List.append_assoc]
  rw [afterOperand_test ht hb, afterAlternative_else, afterSymbol_self, ok_bind, hv]

theorem accepted_func (hx : Accepted .params xs) (hb : Accepted .block body) :
    Accepted .operand
      (.keyword .fnKw :: .symbol .lparen :: (xs ++ .symbol .rparen :: body)) := by
  obtain ⟨v, rfl, hv⟩ := hb
  refine whole_of_operand (fun rest _ => ?_) fun rest => rfl
  simp only [List.cons_append, List.append_assoc]
  rw [afterOperand_fn, afterSymbol_self, ok_bind, hx, ok_bind, afterSymbol_self, ok_bind, hv]

end Rules

theorem Derives.accepted {p : Phrase} {w : List Token} (h : Derives p w) (hw : InRange w) :
    Accepted p w := by
  induction h with
  | noStatement => exact fun stop hstop => .of_atEnd hstop
  | lastStatement _ ih =>
    intro stop hstop
    exact ih hw stop stop (.of_atEnd hstop) fun _ => hstop
  | moreStatements _ _ ihw ihv =>
    obtain ⟨hw, hv⟩ := inRange_append.mp hw
    intro stop hstop
    rw [List.append_assoc]
    exact ihw hw stop _ (ihv hv stop hstop) (by rintro ⟨⟩)
  | @bind e ended x _ ih =>
    have he : Whole e := ih (by simpa using hw)
    intro stop ts hf hend
    have hread := (afterStatement_let x _).trans (he.terminated hend)
    exact follows_of_keyword (by rintro ⟨⟩) hread hf
  | @ret e ended _ ih =>
    have he : Whole e := ih (by simpa using hw)
    intro stop ts hf hend
    have hread := (afterStatement_return _).trans (he.terminated hend)
    exact follows_of_keyword (by rintro ⟨⟩) hread hf
  | @expr e b _ ih =>
    have he : Whole e := ih (by simpa using hw)
    intro stop ts hf _
    rw [List.append_assoc]
    cases b with
    | true => exact he.follows (noElse_symbol _ _) (joins_semicolon hf.alone)
    | false => exact he.follows hf.noElse hf.joined
  | @block w _ ih =>
    have hb : Accepted .statements w := ih (by simpa using hw)
    refine ⟨_, rfl, fun rest => ?_⟩
    rw [List.append_assoc]
    exact afterBlock_of_statements (hb _ (.inr ⟨rest, rfl⟩)).alone
  | @expression w v _ _ ihw ihv =>
    obtain ⟨hw, hv⟩ := inRange_append.mp hw
    have hfirst : Whole w := ihw hw
    have hmore : Accepted .operators v := ihv hv
    refine ⟨fun rest hrest => ?_, ?_⟩
    · rw [List.append_assoc, hfirst.read _ (hmore rest hrest).1, (hmore rest hrest).2]
    · refine hfirst.joined.imp (fun ht rest => ?_) fun ht rest hrest => ?_
      · rw [List.append_assoc, ht]
      · rw [List.append_assoc, ht _ (hmore rest hrest).1, (hmore rest hrest).2]
  | noOperator => exact fun rest hrest => ⟨hrest, rfl⟩
  | @moreOperators w v _ _ ihw ihv =>
    obtain ⟨hw, hv⟩ := inRange_append.mp hw
    intro rest hrest
    obtain ⟨hnv, hv⟩ := ihv hv rest hrest
    obtain ⟨hnw, hw⟩ := ihw hw _ hnv
    rw [List.append_assoc]
    exact ⟨hnw, hw.trans hv⟩
  | name => exact whole_of_operand (fun rest _ => afterOperand_name _ rest) fun rest => rfl
  | number =>
    have hd := Integer.ofDigits?_of_le (inRange_cons.mp hw).1
    exact whole_of_operand (fun rest _ => afterOperand_number hd rest) fun rest => rfl
  | bool => exact whole_of_operand (fun rest _ => afterOperand_bool _ rest) fun rest => rfl
  | @unary e op _ ih =>
    have he : Whole e := ih (by simpa using hw)
    refine ⟨fun rest hrest => ?_, ?_⟩
    · rw [List.cons_append, afterExpr_unary, he.read rest hrest]
    · cases op with
      | not => exact .inl fun rest => rfl
      | neg =>
        -- after an expression, the sign is read as the operator of a difference
        refine .inr fun rest hrest => ?_
        exact (afterOperators_operator .sub _).trans (he.read rest hrest)
  | group _ ih => exact accepted_group (ih (by simpa using hw))
  | @cond test body _ _ iht ihb =>
    obtain ⟨ht, hb⟩ : InRange test ∧ InRange body := by simpa using hw
    exact accepted_cond (iht ht) (ihb hb)
  | @condElse test body other _ _ _ iht ihb iho =>
    obtain ⟨ht, hb, ho⟩ : InRange test ∧ InRange body ∧ InRange other := by simpa using hw
    exact accepted_condElse (iht ht) (ihb hb) (iho ho)
  | @func xs body _ _ ihx ihb =>
    obtain ⟨hx, hb⟩ : InRange xs ∧ InRange body := by simpa using hw
    exact accepted_func (ihx hx) (ihb hb)
  | @binary e op _ ih =>
    have he : Whole e := ih (by simpa using hw)
    intro rest hrest
    refine ⟨noElse_symbol _ _, ?_⟩
    rw [List.cons_append, afterOperators_operator, he.read rest hrest]
  | call _ ih => exact accepted_call (ih (by simpa using hw))
  | noParams => exact fun rest => afterParams_rparen rest
  | someParams _ ih =>
    intro rest
    exact (afterParams_name _ _).trans (ih (by simpa using hw) rest)
  | lastParam => exact fun rest => afterMoreParams_rparen rest
  | nextParam _ ih =>
    intro rest
    exact (afterMoreParams_comma _ _).trans (ih (by simpa using hw) rest)
  | noArguments => exact fun rest => afterArguments_rparen rest
  | someArguments _ _ ihe ihes =>
    obtain ⟨he, hes⟩ := inRange_append.mp hw
    exact accepted_someArguments (ihe he) (ihes hes)
  | lastArgument => exact accepted_lastArgument
  | @nextArgument e es _ _ ihe ihes =>
    obtain ⟨he, hes⟩ : InRange e ∧ InRange es := by simpa using hw
    intro rest
    refine ⟨⟨rfl, noElse_symbol _ _⟩, ?_⟩
    exact (afterMoreArguments_comma _).trans ((ihe he : Whole e).argument (ihes hes))

end MonkeyLang
