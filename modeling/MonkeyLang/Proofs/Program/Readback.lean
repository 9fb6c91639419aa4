import MonkeyLang.Proofs.Program.Writing

/-!
# What was written is read back

* `Reads piece ts`     the parser reads the piece from the tokens `ts`, before whatever may follow
                       them;
* `Written.reads`      it reads every piece from the tokens that write it;
* `Program.ofSource_of_written`   so a program is read back from every text that writes it.

An expression is read in the middle of others: `level` is the level of the reading that is under
way, which must be below that of every operator that stands alone in the expression, and what
follows must not bind tighter than the expression has to.
-/

namespace MonkeyLang

/-! ## reading what was written -/

namespace Parser
variable {need level : Nat} {ts rest us : List Token} {e : Expr}

/-- an expression that stands alone where `need` is asked for ends before `rest`.  Only what is
called may have anything after it, even the parenthesis that calls it again -/
structure Ends (need : Nat) (rest : List Token) : Prop where
  not_tighter : need ≤ unaryLevel → tighter need rest = false
  noElse : NoElse rest

theorem Stops.ends (h : Stops rest) (need : Nat) : Ends need rest :=
  ⟨fun _ => tighter_mono (Nat.zero_le _) h.not_tighter, h.noElse⟩

end Parser

open MonkeyLang.Parser

/-- how the parser reads what was written -/
def Reads : Piece → List Token → Prop
  | .expr need e, ts => ∀ level rest, (∀ op : BinaryOp, need ≤ op.level → level < op.level) →
      Ends need rest → readExpr level (ts ++ rest) = readOperators level e rest
  | .arguments es, ts => ∀ rest, readArguments (ts ++ .symbol .rparen :: rest) = .ok (es, rest)
  | .moreArguments es, ts => ∀ rest, Stops (ts ++ .symbol .rparen :: rest) ∧
      readMoreArguments (ts ++ .symbol .rparen :: rest) = .ok (es, rest)
  | .statement s, ts => ∀ rest, readStatement (ts ++ rest) = .ok (s, rest)
  | .statements ss, ts => (∀ rest, readBlock (ts ++ .symbol .rbrace :: rest) = .ok (ss, rest)) ∧
      Program.parse ts = ⟨ss, []⟩

section Rules
variable {need : Nat} {ts us vs rest : List Token} {e test a b f : Expr} {es : List Expr}
  {body other : Block}

theorem Reads.whole (h : Reads (.expr 0 e) ts) (hrest : Stops rest) :
    readExpr 0 (ts ++ rest) = .ok (e, rest) := by
  rw [h 0 rest (fun op _ => op.level_pos) (hrest.ends 0),
    readOperators_of_not_tighter _ hrest.not_tighter]

theorem Reads.append_ne (h : Reads (.expr 0 e) ts) {t : Token} (ht : startsExpr t = false)
    (us : List Token) : ∀ rest, ts ++ us ≠ t :: rest := by
  have hread : readExpr 0 (ts ++ []) = .ok (e, []) := h.whole (stops_of_atEnd (.inl rfl))
  rw [List.append_nil] at hread
  exact append_ne_of_readExpr hread ht us

theorem reads_of_operand (h : ∀ rest, NoElse rest → readOperand (ts ++ rest) = .ok (e, rest)) :
    Reads (.expr need e) ts := by
  intro level rest _ hends
  rw [readExpr_eq, h rest hends.noElse, ok_bind]

theorem reads_group (he : Reads (.expr 0 e) ts) :
    Reads (.expr need e) (.symbol .lparen :: (ts ++ [.symbol .rparen])) := by
  refine reads_of_operand fun rest _ => ?_
  have hread : readExpr 0 (ts ++ .symbol .rparen :: rest) = .ok (e, .symbol .rparen :: rest) :=
    he.whole ⟨rfl, noElse_symbol _ _⟩
  rw [List.cons_append, List.append_assoc, List.singleton_append, readOperand_lparen, hread]
  simp only [ok_bind, afterSymbol_self]
  rfl

theorem reads_unary {op : UnaryOp} (hneed : need ≤ unaryLevel)
    (he : Reads (.expr unaryLevel e) ts) :
    Reads (.expr need (.unary op e)) (.symbol op.symbol :: ts) := by
  intro level rest _ hends
  -- no binary operator is read at this level, and the rest starts with no parenthesis
  have hrest : tighter unaryLevel rest = false := tighter_mono hneed (hends.not_tighter hneed)
  have hread : readExpr unaryLevel (ts ++ rest) = .ok (e, rest) := by
    rw [he unaryLevel rest (fun op hop => absurd op.level_lt_unaryLevel (Nat.not_lt.mpr hop))
      ⟨fun _ => hrest, hends.noElse⟩, readOperators_of_not_tighter _ hrest]
  rw [List.cons_append, readExpr_eq, readOperand_unary, hread]
  rfl

theorem reads_binary {op : BinaryOp} (hneed : need ≤ op.level) (ha : Reads (.expr op.level a) ts)
    (hb : Reads (.expr (op.level + 1) b) us) :
    Reads (.expr need (.binary a op b)) (ts ++ .symbol op.symbol :: us) := by
  intro level rest hlevel hends
  have hle : op.level ≤ unaryLevel := Nat.le_of_lt op.level_lt_unaryLevel
  have hrest : tighter op.level rest = false :=
    tighter_mono hneed (hends.not_tighter (Nat.le_trans hneed hle))
  -- the left operand may hold operators of the same level, the right one only tighter ones
  have hleft : readExpr level (ts ++ .symbol op.symbol :: (us ++ rest)) =
      readOperators level a (.symbol op.symbol :: (us ++ rest)) := by
    refine ha level _ (fun op' hop => ?_) ⟨fun _ => ?_, noElse_symbol _ _⟩
    · exact Nat.lt_of_lt_of_le (hlevel op hneed) hop
    · rw [tighter_binary, decide_eq_false (Nat.lt_irrefl _)]
  have hright : readExpr op.level (us ++ rest) = .ok (b, rest) := by
    rw [hb op.level rest (fun op' hop => hop) ⟨fun _ => tighter_mono (Nat.le_succ _) hrest,
      hends.noElse⟩, readOperators_of_not_tighter _ hrest]
  rw [List.append_assoc, List.cons_append, hleft, readOperators_binary (hlevel op hneed), hright]
  rfl

theorem reads_call (hf : Reads (.expr callLevel f) ts) (hes : Reads (.arguments es) us) :
    Reads (.expr need (.call f es)) (ts ++ .symbol .lparen :: (us ++ [.symbol .rparen])) := by
  intro level rest _ hends
  -- nothing that stands alone before the arguments is a unary or binary operation
  have hcallee : readExpr level (ts ++ .symbol .lparen :: (us ++ .symbol .rparen :: rest)) =
      readOperators level f (.symbol .lparen :: (us ++ .symbol .rparen :: rest)) := by
    refine hf level _ (fun op hop => ?_) ⟨fun h => ?_, noElse_symbol _ _⟩
    · exact absurd op.level_lt_unaryLevel (Nat.not_lt.mpr (Nat.le_of_succ_le hop))
    · exact absurd h (Nat.not_succ_le_self unaryLevel)
  simp only [List.append_assoc, List.cons_append, List.nil_append]
  rw [hcallee, readOperators_lparen, hes rest]
  rfl

/-- a conditional up to its first block -/
theorem readOperand_test (ht : Reads (.expr 0 test) ts) (hb : Reads (.statements body) us) :
    readOperand (.keyword .ifKw :: .symbol .lparen ::
      (ts ++ .symbol .rparen :: .symbol .lbrace :: (us ++ .symbol .rbrace :: rest))) =
      readAlternative test body rest := by
  have htest : ∀ vs, readExpr 0 (ts ++ .symbol .rparen :: vs) = .ok (test, .symbol .rparen :: vs) :=
    fun vs => ht.whole ⟨rfl, noElse_symbol _ _⟩
  rw [readOperand_if]
  simp only [afterSymbol_self, ok_bind, htest, hb.1 rest]

theorem reads_cond (ht : Reads (.expr 0 test) ts) (hb : Reads (.statements body) us) :
    Reads (.expr need (.cond test body none))
      (.keyword .ifKw :: .symbol .lparen ::
        (ts ++ .symbol .rparen :: .symbol .lbrace :: (us ++ [.symbol .rbrace]))) := by
  refine reads_of_operand fun rest hrest => ?_
  simp only [List.cons_append, List.append_assoc, List.nil_append]
  rw [readOperand_test ht hb, readAlternative_of_ne _ _ hrest]

theorem reads_condElse (ht : Reads (.expr 0 test) ts) (hb : Reads (.statements body) us)
    (ho : Reads (.statements other) vs) :
    Reads (.expr need (.cond test body (some other)))
      (.keyword .ifKw :: .symbol .lparen ::
        (ts ++ .symbol .rparen :: .symbol .lbrace ::
          (us ++ .symbol .rbrace :: .keyword .elseKw :: .symbol .lbrace ::
            (vs ++ [.symbol .rbrace])))) := by
  refine reads_of_operand fun rest _ => ?_
  simp only [List.cons_append, List.append_assoc, List.nil_append]
  rw [readOperand_test ht hb, readAlternative_else]
  simp only [afterSymbol_self, ok_bind, ho.1 rest]
  rfl

theorem readMoreParams_tokens (xs : List String) (rest : List Token) :
    readMoreParams (moreParamTokens xs ++ .symbol .rparen :: rest) = .ok (xs, rest) := by
  induction xs with
  | nil =>
    show readMoreParams (.symbol .rparen :: rest) = _
    rw [readMoreParams_of_ne (by simp), afterSymbol_self]
    rfl
  | cons x xs ih =>
    show readMoreParams (.symbol .comma :: .name x :: (moreParamTokens xs ++ _)) = _
    rw [readMoreParams_comma, readName_name]
    simp only [ok_bind, ih]
    rfl

theorem readParams_tokens (xs : List String) (rest : List Token) :
    readParams (paramTokens xs ++ .symbol .rparen :: rest) = .ok (xs, rest) := by
  cases xs with
  | nil => exact readParams_rparen rest
  | cons x xs =>
    rw [paramTokens, List.cons_append, readParams_of_ne (by simp), readName_name]
    simp only [ok_bind, readMoreParams_tokens]
    rfl

theorem reads_func (xs : List String) (hb : Reads (.statements body) us) :
    Reads (.expr need (.func xs body))
      (.keyword .fnKw :: .symbol .lparen ::
        (paramTokens xs ++ .symbol .rparen :: .symbol .lbrace :: (us ++ [.symbol .rbrace]))) := by
  refine reads_of_operand fun rest _ => ?_
  simp only [List.cons_append, List.append_assoc, List.nil_append]
  rw [readOperand_fn]
  simp only [afterSymbol_self, ok_bind, readParams_tokens, hb.1 rest]
  rfl

/-- an expression, then the arguments after it -/
theorem Reads.argument (he : Reads (.expr 0 e) ts) (hes : Reads (.moreArguments es) us) :
    (do
      let (e, rest) ← readExpr 0 (ts ++ us ++ Token.symbol .rparen :: rest)
      let (es, rest) ← readMoreArguments rest
      return (e :: es, rest)) = Except.ok (e :: es, rest) := by
  obtain ⟨hstops, hmore⟩ := hes rest
  rw [List.append_assoc, he.whole hstops]
  simp only [ok_bind, hmore]
  rfl

theorem reads_someArguments (he : Reads (.expr 0 e) ts) (hes : Reads (.moreArguments es) us) :
    Reads (.arguments (e :: es)) (ts ++ us) := by
  intro rest
  rw [readArguments_of_ne]
  · exact he.argument hes
  · rw [List.append_assoc]
    exact he.append_ne rfl _

theorem reads_bind {x : String} (he : Reads (.expr 0 e) ts) :
    Reads (.statement (.bind x e))
      (.keyword .letKw :: .name x :: .symbol .assign :: (ts ++ [.symbol .semicolon])) := by
  intro rest
  have hread : readExpr 0 (ts ++ .symbol .semicolon :: rest) =
      .ok (e, .symbol .semicolon :: rest) := he.whole ⟨rfl, noElse_symbol _ _⟩
  simp only [List.cons_append, List.append_assoc, List.nil_append]
  rw [readStatement_let, readName_name]
  simp only [ok_bind, afterSymbol_self, hread, afterTerminator_semicolon]
  rfl

theorem reads_ret (he : Reads (.expr 0 e) ts) :
    Reads (.statement (.ret e)) (.keyword .returnKw :: (ts ++ [.symbol .semicolon])) := by
  intro rest
  have hread : readExpr 0 (ts ++ .symbol .semicolon :: rest) =
      .ok (e, .symbol .semicolon :: rest) := he.whole ⟨rfl, noElse_symbol _ _⟩
  simp only [List.cons_append, List.append_assoc, List.nil_append]
  rw [readStatement_return]
  simp only [ok_bind, hread, afterTerminator_semicolon]
  rfl

theorem reads_expr (he : Reads (.expr 0 e) ts) :
    Reads (.statement (.expr e)) (ts ++ [.symbol .semicolon]) := by
  intro rest
  have hstops : Stops (.symbol .semicolon :: rest) := ⟨rfl, noElse_symbol _ _⟩
  rw [List.append_assoc, List.singleton_append,
    readStatement_of_ne (he.append_ne rfl _) (he.append_ne rfl _), he.whole hstops]
  rfl

theorem reads_moreStatements {s : Stmt} {ss : List Stmt} (hs : Reads (.statement s) ts)
    (hss : Reads (.statements ss) us) : Reads (.statements (s :: ss)) (ts ++ us) := by
  refine ⟨fun rest => ?_, ?_⟩
  · have hread := hs (us ++ .symbol .rbrace :: rest)
    have hend := fun he => not_atEnd_of_readStatement hread he
    rw [List.append_assoc, readBlock_of_ne (fun h => hend (.inl h)) (fun r h => hend (.inr ⟨r, h⟩)),
      hread]
    simp only [ok_bind, hss.1 rest]
    rfl
  · rw [Program.parse_of_ok (hs us), hss.2]

end Rules

theorem Written.reads {p : Piece} {ts : List Token} (h : Written p ts) : Reads p ts := by
  induction h with
  | name _ => exact reads_of_operand fun rest _ => readOperand_name _ rest
  | int hn => exact reads_of_operand fun rest _ => readOperand_number (Integer.ofDigits?_text hn) rest
  | bool => exact reads_of_operand fun rest _ => readOperand_bool _ rest
  | group _ ih => exact reads_group ih
  | unary hneed _ ih => exact reads_unary hneed ih
  | binary hneed _ _ iha ihb => exact reads_binary hneed iha ihb
  | call _ _ _ ihf ihes => exact reads_call ihf ihes
  | cond _ _ iht ihb => exact reads_cond iht ihb
  | condElse _ _ _ iht ihb iho => exact reads_condElse iht ihb iho
  | func _ _ ih => exact reads_func _ ih
  | noArguments => exact fun rest => readArguments_rparen rest
  | someArguments _ _ ihe ihes => exact reads_someArguments ihe ihes
  | lastArgument =>
    intro rest
    refine ⟨⟨rfl, noElse_symbol _ _⟩, ?_⟩
    rw [List.nil_append, readMoreArguments_of_ne (by simp), afterSymbol_self]
    rfl
  | nextArgument _ _ ihe ihes =>
    intro rest
    exact ⟨⟨rfl, noElse_symbol _ _⟩, (readMoreArguments_comma _).trans (ihe.argument ihes)⟩
  | bind _ _ ih => exact reads_bind ih
  | ret _ ih => exact reads_ret ih
  | expr _ ih => exact reads_expr ih
  | noStatement => exact ⟨fun rest => readBlock_rbrace rest, Program.parse_nil⟩
  | moreStatements _ _ ihs ihss => exact reads_moreStatements ihs ihss

/-! ## programs -/

namespace Program

theorem ofSource_of_written {p : Program} {ts : List Token} (h : Written (.statements p) ts) :
    ofSource (spaced ts) = .ok ⟨p, []⟩ := by
  rw [ofSource, tokenize_spaced h.wellSpelled]
  exact congrArg Except.ok h.reads.2

/-- **Every program that can be spelled is read back, without an error, from every text that
writes it: its tokens with spaces between them, with the parentheses that are needed and any
others.**  The text with the needed ones only is one of these. -/
theorem reads_back_as_written (p : Program) (h : Block.Spellable p) :
    Written (.statements p) (Block.write p) ∧
      ∀ ts, Written (.statements p) ts → ofSource (spaced ts) = .ok ⟨p, []⟩ :=
  ⟨Block.written_write p h, fun _ hts => ofSource_of_written hts⟩

/-- `a - ( ( b - 1 ) ) ;` is read as it was written, and its inner parentheses are needed -/
theorem reads_back_right_operand :
    let p : Program := [.expr (.binary (.name "a") .sub (.binary (.name "b") .sub (.int 1)))]
    Block.Spellable p ∧ Written (.statements p) (Block.write p) ∧
      spaced (Block.write p) = "a - ( b - 1 ) ;" ∧
        ofSource "a - ( ( b - 1 ) ) ;" = .ok ⟨p, []⟩ := by
  intro p
  have ha : IsName "a" := ⟨by decide, by simp [isLetter], by decide⟩
  have hb : IsName "b" := ⟨by decide, by simp [isLetter], by decide⟩
  have h1 : (0 : Int) ≤ (1 : Integer).toInt := by decide
  have hp : Block.Spellable p := ⟨⟨ha, hb, h1⟩, trivial⟩
  obtain ⟨hwrite, hread⟩ := reads_back_as_written p hp
  refine ⟨hp, hwrite, by decide, ?_⟩
  have hdiff : Written (.expr 0 (.binary (.name "b") .sub (.int 1))) _ :=
    .binary (Nat.zero_le _) (.name hb) (.int h1)
  exact hread _ (.moreStatements
    (.expr (.binary (Nat.zero_le _) (.name ha) (.group (.group hdiff)))) .noStatement)

end Program

end MonkeyLang
