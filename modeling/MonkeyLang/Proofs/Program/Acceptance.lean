import MonkeyLang.Proofs.Program.Grammar
import MonkeyLang.Proofs.Program.Seam

/-!
# The parser accepts exactly the programs of the grammar

* `Spans p ts rest`   the phrase `p` derives what stands before `rest` in `ts`;
* `expr_spans` …      whatever the parser reads, the grammar derives as a phrase of that kind;
* `Program.errors_eq_nil_iff`   a list of tokens is read without an error exactly when the grammar
                      derives it and its numbers are in range.
-/

namespace MonkeyLang
open MonkeyLang.Parser

/-! ## what is read is derived by the grammar -/

/-- the phrase derives what stands before `rest` in `ts`, with numbers in range -/
def Spans (p : Phrase) (ts rest : List Token) : Prop :=
  ∃ w, ts = w ++ rest ∧ Derives p w ∧ InRange w

section Spans
variable {ts r stop rest : List Token} {ended : Bool}

theorem Spans.cons (hs : Spans (.statement ended) ts r) (he : ended = false → AtEnd r)
    (hm : Spans .statements r stop) (hstop : AtEnd stop) : Spans .statements ts stop := by
  obtain ⟨w, rfl, hw, hrw⟩ := hs
  obtain ⟨v, rfl, hv, hrv⟩ := hm
  cases ended with
  | true =>
    refine ⟨w ++ v, (List.append_assoc ..).symm, .moreStatements hw hv, ?_⟩
    exact inRange_append.mpr ⟨hrw, hrv⟩
  | false =>
    -- no statement can be read where the last one ended, so there is none
    have hread : Accepted .statements v := hv.accepted hrv
    have hnone : stop = v ++ stop := (hread stop hstop).alone.eq_of_atEnd (he rfl)
    obtain rfl : v = [] := List.self_eq_append_left.mp hnone
    exact ⟨w, rfl, .lastStatement hw, hrw⟩

theorem Spans.block (h : Spans .statements ts (.symbol .rbrace :: rest)) :
    Spans .block (.symbol .lbrace :: ts) rest := by
  obtain ⟨w, rfl, hw, hr⟩ := h
  exact ⟨_, by simp, .block hw, by simp [hr]⟩

/-- `let` and `return` -/
theorem Spans.terminated (h : Spans .expression ts r) (hr : afterTerminator r = .ok rest) :
    ∃ ended e, ts = e ++ semicolonIf ended ++ rest ∧ Derives .expression e ∧ InRange e ∧
      (ended = false → AtEnd rest) := by
  obtain ⟨e, rfl, he, hre⟩ := h
  obtain rfl | ⟨rfl, hend⟩ := afterTerminator_cases hr
  · exact ⟨true, e, by simp [semicolonIf], he, hre, by rintro ⟨⟩⟩
  · exact ⟨false, e, by simp [semicolonIf], he, hre, fun _ => hend⟩

/-- an expression statement -/
theorem Spans.skipSemicolon (h : Spans .expression ts r) :
    Spans (.statement true) ts (skipSemicolon r) := by
  obtain ⟨e, rfl, he, hre⟩ := h
  by_cases hs : ∃ us, r = .symbol .semicolon :: us
  · obtain ⟨us, rfl⟩ := hs
    exact ⟨e ++ semicolonIf true, by simp [semicolonIf, skipSemicolon_semicolon], .expr he,
      by simp [hre]⟩
  · rw [skipSemicolon_of_ne fun us hu => hs ⟨us, hu⟩]
    exact ⟨e ++ semicolonIf false, by simp [semicolonIf], .expr he, by simp [hre]⟩

theorem moreParams_spans (h : afterMoreParams ts = .ok rest) :
    Spans .moreParams ts (.symbol .rparen :: rest) := by
  induction hn : ts.length using Nat.strongRecOn generalizing ts with
  | _ n ih =>
    subst hn
    by_cases hc : ∃ us, ts = .symbol .comma :: us
    · obtain ⟨us, rfl⟩ := hc
      obtain ⟨x, us, rfl⟩ := name_of_afterMoreParams h
      rw [afterMoreParams_comma] at h
      obtain ⟨w, rfl, hw, hr⟩ := ih us.length (Nat.lt_succ_of_lt (Nat.lt_succ_self _)) h rfl
      exact ⟨_, rfl, .nextParam hw, by simp [hr]⟩
    · obtain rfl := rparen_of_afterMoreParams h fun us hu => hc ⟨us, hu⟩
      exact ⟨[], rfl, .lastParam, inRange_nil⟩

theorem params_spans (h : afterParams ts = .ok rest) :
    Spans .params ts (.symbol .rparen :: rest) := by
  by_cases hc : ∃ us, ts = .symbol .rparen :: us
  · obtain ⟨us, rfl⟩ := hc
    cases h
    exact ⟨[], rfl, .noParams, inRange_nil⟩
  · obtain ⟨x, us, rfl⟩ := name_of_afterParams h fun us hu => hc ⟨us, hu⟩
    rw [afterParams_name] at h
    obtain ⟨w, rfl, hw, hr⟩ := moreParams_spans h
    exact ⟨_, rfl, .someParams hw, by simp [hr]⟩

end Spans

mutual

theorem expr_spans {level : Nat} {ts rest : List Token} (h : afterExpr level ts = .ok rest) :
    Spans .expression ts rest := by
  rw [afterExpr_eq] at h
  obtain ⟨r, ho, hm⟩ := bind_eq_ok h
  have hlt := length_afterOperand ho
  obtain ⟨w, rfl, hw, hrw⟩ := operand_spans ho
  obtain ⟨v, rfl, hv, hrv⟩ := operators_spans hm
  refine ⟨w ++ v, (List.append_assoc ..).symm, .expression hw hv, ?_⟩
  exact inRange_append.mpr ⟨hrw, hrv⟩
termination_by 4 * ts.length + 1

theorem operators_spans {level : Nat} {ts rest : List Token}
    (h : afterOperators level ts = .ok rest) : Spans .operators ts rest := by
  cases hc : tighter level ts with
  | false =>
    rw [afterOperators_of_not_tighter hc] at h
    cases h
    exact ⟨[], rfl, .noOperator, inRange_nil⟩
  | true =>
    obtain ⟨us, rfl⟩ | ⟨op, us, rfl, hlt⟩ := tighter_cases hc
    · rw [afterOperators_lparen] at h
      obtain ⟨r, ha, hm⟩ := bind_eq_ok h
      have hr := length_afterArguments ha
      obtain ⟨w, rfl, hw, hrw⟩ := arguments_spans ha
      obtain ⟨v, rfl, hv, hrv⟩ := operators_spans hm
      exact ⟨_, by simp, .moreOperators (.call hw) hv, by simp [hrw, hrv]⟩
    · rw [afterOperators_binary hlt] at h
      obtain ⟨r, he, hm⟩ := bind_eq_ok h
      have hr := length_afterExpr he
      obtain ⟨w, rfl, hw, hrw⟩ := expr_spans he
      obtain ⟨v, rfl, hv, hrv⟩ := operators_spans hm
      refine ⟨.symbol op.symbol :: w ++ v, by simp, .moreOperators (.binary hw) hv, ?_⟩
      simp [hrw, hrv]
termination_by 4 * ts.length

theorem arguments_spans {ts rest : List Token} (h : afterArguments ts = .ok rest) :
    Spans .arguments ts (.symbol .rparen :: rest) := by
  by_cases hc : ∃ us, ts = .symbol .rparen :: us
  · obtain ⟨us, rfl⟩ := hc
    rw [afterArguments_rparen] at h
    cases h
    exact ⟨[], rfl, .noArguments, inRange_nil⟩
  · rw [afterArguments_of_ne fun us hu => hc ⟨us, hu⟩] at h
    obtain ⟨r, he, hm⟩ := bind_eq_ok h
    have hr := length_afterExpr he
    obtain ⟨w, rfl, hw, hrw⟩ := expr_spans he
    obtain ⟨v, rfl, hv, hrv⟩ := moreArguments_spans hm
    exact ⟨_, by simp, .someArguments hw hv, by simp [hrw, hrv]⟩
termination_by 4 * ts.length + 2

theorem moreArguments_spans {ts rest : List Token} (h : afterMoreArguments ts = .ok rest) :
    Spans .moreArguments ts (.symbol .rparen :: rest) := by
  by_cases hc : ∃ us, ts = .symbol .comma :: us
  · obtain ⟨us, rfl⟩ := hc
    rw [afterMoreArguments_comma] at h
    obtain ⟨r, he, hm⟩ := bind_eq_ok h
    have hr := length_afterExpr he
    obtain ⟨w, rfl, hw, hrw⟩ := expr_spans he
    obtain ⟨v, rfl, hv, hrv⟩ := moreArguments_spans hm
    exact ⟨_, by simp, .nextArgument hw hv, by simp [hrw, hrv]⟩
  · rw [afterMoreArguments_of_ne fun us hu => hc ⟨us, hu⟩] at h
    exact ⟨[], eq_of_afterSymbol h, .lastArgument, inRange_nil⟩
termination_by 4 * ts.length

theorem operand_spans {ts rest : List Token} (h : afterOperand ts = .ok rest) :
    Spans .operand ts rest := by
  obtain ⟨t, us, rfl, ht⟩ := startsExpr_of_afterOperand h
  obtain ⟨x, rfl⟩ | ⟨digits, rfl⟩ | ⟨b, rfl⟩ | ⟨op, rfl⟩ | rfl | rfl | rfl := startsExpr_cases ht
  · rw [afterOperand_name] at h
    cases h
    exact ⟨[.name x], rfl, .name, by simp⟩
  · cases hd : Integer.ofDigits? digits with
    | none =>
      rw [afterOperand, readOperand_tooLarge hd] at h
      cases h
    | some n =>
      rw [afterOperand_number hd] at h
      cases h
      have hle : Token.InRange (.number digits) := Integer.le_of_ofDigits? hd
      exact ⟨[.number digits], rfl, .number, by simp [hle]⟩
  · rw [afterOperand_bool] at h
    cases h
    exact ⟨[.keyword (.ofBool b)], rfl, .bool, by simp⟩
  · rw [afterOperand_unary] at h
    obtain ⟨e, rfl, he, hre⟩ := expr_spans h
    exact ⟨_, rfl, .unary he, by simp [hre]⟩
  · rw [afterOperand_lparen] at h
    obtain ⟨r, he, hr⟩ := bind_eq_ok h
    obtain rfl := eq_of_afterSymbol hr
    obtain ⟨e, rfl, he, hre⟩ := expr_spans he
    exact ⟨_, by simp, .group he, by simp [hre]⟩
  · obtain ⟨us', vs, r, hus, htest, hbody, helse⟩ := of_afterOperand_if h
    have hus' : us'.length < us.length := by rw [hus]; exact Nat.lt_succ_self _
    have hvs : vs.length < us'.length :=
      Nat.lt_of_succ_lt (Nat.lt_of_succ_lt (length_afterExpr htest))
    have hr := length_afterBlock hbody
    rw [hus]
    have hrest := alternative_spans helse
    obtain ⟨body, heq, hb, hrb⟩ := (block_spans hbody).block
    obtain ⟨test, rfl, ht, hrt⟩ := expr_spans htest
    rw [heq]
    obtain hend | ⟨us, hus, other, rfl, ho, hro⟩ := hrest
    · exact ⟨_, by simp [hend], .cond ht hb, by simp [hrt, hrb]⟩
    · exact ⟨_, by simp [hus], .condElse ht hb ho, by simp [hrt, hrb, hro]⟩
  · obtain ⟨us', vs, hus, hparams, hbody⟩ := of_afterOperand_fn h
    have hus' : us'.length < us.length := by rw [hus]; exact Nat.lt_succ_self _
    have hvs : vs.length < us'.length := Nat.lt_of_succ_lt (length_afterParams hparams)
    obtain ⟨body, heq, hb, hrb⟩ := (block_spans hbody).block
    obtain ⟨xs, rfl, hx, hrx⟩ := params_spans hparams
    rw [hus, heq]
    exact ⟨_, by simp, .func hx hb, by simp [hrx, hrb]⟩
termination_by 4 * ts.length
decreasing_by all_goals grind

theorem alternative_spans {ts rest : List Token} (h : afterAlternative ts = .ok rest) :
    ts = rest ∨ ∃ us, ts = .keyword .elseKw :: us ∧ Spans .block us rest := by
  by_cases hc : ∃ us, ts = .keyword .elseKw :: us
  · obtain ⟨us, rfl⟩ := hc
    rw [afterAlternative_else] at h
    obtain ⟨r, hr, hb⟩ := bind_eq_ok h
    have hus := eq_of_afterSymbol hr
    have hlt : r.length < us.length := by rw [hus]; exact Nat.lt_succ_self _
    rw [hus]
    exact .inr ⟨_, rfl, (block_spans hb).block⟩
  · rw [afterAlternative_of_ne fun us hu => hc ⟨us, hu⟩] at h
    exact .inl (Except.ok.inj h)
termination_by 4 * ts.length

theorem block_spans {ts rest : List Token} (h : afterBlock ts = .ok rest) :
    Spans .statements ts (.symbol .rbrace :: rest) := by
  by_cases hn : ts = []
  · exact absurd (length_afterBlock h) (by simp [hn])
  by_cases hc : ∃ us, ts = .symbol .rbrace :: us
  · obtain ⟨us, rfl⟩ := hc
    rw [afterBlock_rbrace] at h
    cases h
    exact ⟨[], rfl, .noStatement, inRange_nil⟩
  · rw [afterBlock_of_ne hn fun us hu => hc ⟨us, hu⟩] at h
    obtain ⟨r, hs, hb⟩ := bind_eq_ok h
    have hr := length_afterStatement hs
    obtain ⟨ended, hs, hend⟩ := statement_spans hs
    exact hs.cons hend (block_spans hb) (.inr ⟨rest, rfl⟩)
termination_by 4 * ts.length + 3

theorem statement_spans {ts rest : List Token} (h : afterStatement ts = .ok rest) :
    ∃ ended, Spans (.statement ended) ts rest ∧ (ended = false → AtEnd rest) := by
  by_cases hl : ∃ us, ts = .keyword .letKw :: us
  · obtain ⟨us, rfl⟩ := hl
    obtain ⟨x, us, rfl⟩ := name_of_afterStatement_let h
    rw [afterStatement_let] at h
    obtain ⟨r, he, hr⟩ := bind_eq_ok h
    obtain ⟨ended, e, rfl, he, hre, hend⟩ := (expr_spans he).terminated hr
    refine ⟨ended, ⟨.keyword .letKw :: .name x :: .symbol .assign :: (e ++ semicolonIf ended), ?_,
      .bind he, ?_⟩, hend⟩
    · simp
    · simp [hre]
  by_cases hr : ∃ us, ts = .keyword .returnKw :: us
  · obtain ⟨us, rfl⟩ := hr
    rw [afterStatement_return] at h
    obtain ⟨r, he, hr⟩ := bind_eq_ok h
    obtain ⟨ended, e, rfl, he, hre, hend⟩ := (expr_spans he).terminated hr
    exact ⟨ended, ⟨_, by simp, .ret he, by simp [hre]⟩, hend⟩
  · rw [afterStatement_of_ne (fun us hu => hl ⟨us, hu⟩) fun us hu => hr ⟨us, hu⟩] at h
    cases he : afterExpr 0 ts with
    | error failure =>
      rw [he] at h
      cases h
    | ok r =>
      rw [he] at h
      cases h
      exact ⟨true, (expr_spans he).skipSemicolon, by rintro ⟨⟩⟩
termination_by 4 * ts.length + 2

end

theorem Parser.Statements.spans {ts stop : List Token} (h : Statements ts stop)
    (hstop : AtEnd stop) : Spans .statements ts stop := by
  induction h using Relation.ReflTransGen.head_induction_on with
  | refl => exact ⟨[], rfl, .noStatement, inRange_nil⟩
  | head hs _ ih =>
    obtain ⟨ended, hs, hend⟩ := statement_spans hs
    exact hs.cons hend ih hstop

/-! ## accepted programs -/

namespace Program

theorem errors_eq_nil_iff (ts : List Token) :
    (parse ts).errors = [] ↔ Derives .statements ts ∧ InRange ts := by
  constructor
  · intro h
    obtain ⟨w, hw, hd, hr⟩ := (statements_of_errors h).spans (.inl rfl)
    rw [List.append_nil] at hw
    rw [hw]
    exact ⟨hd, hr⟩
  · rintro ⟨hd, hr⟩
    have hread : Accepted .statements ts := hd.accepted hr
    have hall := (hread [] (.inl rfl)).alone
    rw [List.append_nil] at hall
    exact errors_of_statements hall

/-- **A text of ASCII characters is read without an error exactly when the grammar derives its
tokens and every number in it is at most the greatest integer.** -/
theorem accepts_exactly_the_grammar (source : String)
    (hascii : ∀ c ∈ source.toList, c.toNat < 128) :
    ∃ parsed, ofSource source = .ok parsed ∧
      (parsed.errors = [] ↔
        Derives .statements (tokens source.toList) ∧ InRange (tokens source.toList)) := by
  exact ⟨parse (tokens source.toList), ofSource_of_ascii hascii, errors_eq_nil_iff _⟩

/-- what might be three statements is read as one, with a `return` after it; and a `let` without a
name is outside the grammar -/
theorem accepts_adjacent_statements :
    let source := "a -b (c) return d"
    (∀ c ∈ source.toList, c.toNat < 128) ∧
      ofSource source = .ok ⟨[.expr (.binary (.name "a") .sub (.call (.name "b") [.name "c"])),
        .ret (.name "d")], []⟩ ∧
      Derives .statements (tokens source.toList) ∧ InRange (tokens source.toList) ∧
      ofSource "let 3" = .ok ⟨[], [.unexpected .name .number]⟩ ∧
      ¬ (Derives .statements (tokens "let 3".toList) ∧ InRange (tokens "let 3".toList)) := by
  intro source
  have hascii : ∀ c ∈ source.toList, c.toNat < 128 := by simp [source]
  have hascii' : ∀ c ∈ "let 3".toList, c.toNat < 128 := by simp
  have hsource : ofSource source = .ok ⟨[.expr (.binary (.name "a") .sub
      (.call (.name "b") [.name "c"])), .ret (.name "d")], []⟩ := by
    rw [ofSource_of_ascii hascii]
    exact congrArg Except.ok (by decide +kernel)
  have hlet : ofSource "let 3" = .ok ⟨[], [.unexpected .name .number]⟩ := by
    rw [ofSource_of_ascii hascii']
    exact congrArg Except.ok (by decide +kernel)
  obtain ⟨parsed, hparsed, haccepted⟩ := accepts_exactly_the_grammar source hascii
  obtain ⟨refused, hrefused, hgrammar⟩ := accepts_exactly_the_grammar "let 3" hascii'
  cases hsource.symm.trans hparsed
  cases hlet.symm.trans hrefused
  obtain ⟨hderives, hrange⟩ := haccepted.mp rfl
  exact ⟨hascii, hsource, hderives, hrange, hlet, fun h => absurd (hgrammar.mpr h) (by simp)⟩

end Program

end MonkeyLang
