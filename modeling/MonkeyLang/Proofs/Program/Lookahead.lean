import MonkeyLang.Proofs.Program.Seam

/-!
# One token ahead

* `Failure.At f rest`         the error of `f` names the first of the tokens `rest`, or their end;
* `Parser.LooksAhead read ts` what `read` does with `ts` rests on the tokens it takes and on the one
                              after them: it takes the same tokens from every list that goes on in
                              the same way, or not at all, and it fails again on every list that is
                              the same up to the token at which it failed;
* `Parser.LooksAhead.bind`    this goes through a sequence of readings;
* `Parser.expr_looksAhead` …  so it is with everything the parser reads.
-/

namespace MonkeyLang

/-- the error names the first of the tokens `rest`, or the end if there is none.  An unexpected
token is still unread, a token that should have started an expression is not -/
inductive Failure.At : Failure → List Token → Prop
  | unexpected (expected : Kind) (rest : List Token) :
      At ⟨.unexpected expected (.ofFirst rest), rest⟩ rest
  | noExpression (rest : List Token) : At ⟨.noExpression (.ofFirst rest), rest.tail⟩ rest
  | tooLarge (digits : String) (rest : List Token) :
      At ⟨.tooLarge digits, rest⟩ (.number digits :: rest)

namespace Parser

/-! ## readings that look one token ahead -/

/-- `ts'` goes on with the same token as `ts`, or not at all -/
def SameNext (ts ts' : List Token) : Prop := ts' = [] ∨ ts'.head? = ts.head?

theorem SameNext.append {rest rest' : List Token} (h : SameNext rest rest') (w : List Token) :
    SameNext (w ++ rest) (w ++ rest') := by
  cases w with
  | nil => exact h
  | cons t w => exact .inr rfl

theorem SameNext.ne_cons {ts ts' : List Token} (h : SameNext ts ts') {t : Token}
    (hne : ts.head? ≠ some t) : ∀ us, ts' ≠ t :: us := by
  rintro us rfl
  obtain h | h := h
  · cases h
  · exact hne h.symm

/-- what `read` does with the tokens `ts` depends on those it takes and on one more -/
structure LooksAhead {α : Type} (read : List Token → Except Failure (α × List Token))
    (ts : List Token) : Prop where
  of_ok : ∀ {a rest}, read ts = .ok (a, rest) →
    ∃ w, ts = w ++ rest ∧ ∀ rest', SameNext rest rest' → read (w ++ rest') = .ok (a, rest')
  of_error : ∀ {f}, read ts = .error f →
    ∃ w rest, ts = w ++ rest ∧ f.At rest ∧
      ∀ rest', rest'.head? = rest.head? → ∃ f', read (w ++ rest') = .error f'

/-- a reading that gives nothing but the tokens after it -/
def bare (x : Except Failure (List Token)) : Except Failure (Unit × List Token) :=
  x.map (Prod.mk ())

section LooksAhead
variable {α β : Type} {ts : List Token} {t : Token}

theorem looksAhead_pure (a : α) (ts : List Token) : LooksAhead (fun ts => .ok (a, ts)) ts := by
  constructor
  · rintro b rest ⟨⟩
    exact ⟨[], rfl, fun rest' _ => rfl⟩
  · rintro f ⟨⟩

theorem LooksAhead.bind {read : List Token → Except Failure (α × List Token)}
    {next : α × List Token → Except Failure (β × List Token)} (h : LooksAhead read ts)
    (hnext : ∀ a rest, read ts = .ok (a, rest) → LooksAhead (fun ts => next (a, ts)) rest) :
    LooksAhead (fun ts => read ts >>= next) ts := by
  cases hread : read ts with
  | error f =>
    constructor
    · intro b rest hb
      rw [hread] at hb
      cases hb
    · intro f' hf
      rw [hread] at hf
      cases hf
      obtain ⟨w, rest, heq, hat, hfail⟩ := h.of_error hread
      refine ⟨w, rest, heq, hat, fun rest' hrest => ?_⟩
      obtain ⟨f', hf'⟩ := hfail rest' hrest
      exact ⟨f', by rw [hf']; rfl⟩
  | ok p =>
    obtain ⟨a, mid⟩ := p
    obtain ⟨w, heq, hsame⟩ := h.of_ok hread
    have hmid := hnext a mid hread
    -- the first reading sees no difference in what is left to the second one
    have hgo : ∀ {v rest rest'}, mid = v ++ rest → SameNext rest rest' →
        (read (w ++ v ++ rest') >>= next) = next (a, v ++ rest') := by
      intro v rest rest' hv hrest
      rw [List.append_assoc, hsame (v ++ rest') (hv ▸ hrest.append v), ok_bind]
    constructor
    · intro b rest hb
      rw [hread, ok_bind] at hb
      obtain ⟨v, hv, hok⟩ := hmid.of_ok hb
      refine ⟨w ++ v, by rw [heq, hv, List.append_assoc], fun rest' hrest => ?_⟩
      exact (hgo hv hrest).trans (hok rest' hrest)
    · intro f hf
      rw [hread, ok_bind] at hf
      obtain ⟨v, rest, hv, hat, hfail⟩ := hmid.of_error hf
      refine ⟨w ++ v, rest, by rw [heq, hv, List.append_assoc], hat, fun rest' hrest => ?_⟩
      obtain ⟨f', hf'⟩ := hfail rest' hrest
      exact ⟨f', (hgo hv (.inr hrest)).trans hf'⟩

theorem LooksAhead.bind_rest {read : List Token → Except Failure (List Token)}
    {next : List Token → Except Failure (β × List Token)}
    (h : LooksAhead (fun ts => bare (read ts)) ts)
    (hnext : ∀ rest, read ts = .ok rest → LooksAhead next rest) :
    LooksAhead (fun ts => read ts >>= next) ts := by
  have heq : (fun ts => read ts >>= next) = fun ts => bare (read ts) >>= fun p => next p.2 := by
    funext ts
    cases read ts <;> rfl
  rw [heq]
  refine h.bind fun a rest hrest => hnext rest ?_
  cases hread : read ts with
  | error f =>
    rw [hread] at hrest
    cases hrest
  | ok r =>
    rw [hread] at hrest
    cases hrest
    rfl

/-- a reading that starts with a known token -/
theorem LooksAhead.cons {read next : List Token → Except Failure (α × List Token)}
    (heq : ∀ ts, read (t :: ts) = next ts) (h : LooksAhead next ts) :
    LooksAhead read (t :: ts) := by
  constructor
  · intro a rest hread
    rw [heq] at hread
    obtain ⟨w, rfl, hok⟩ := h.of_ok hread
    exact ⟨t :: w, rfl, fun rest' hrest => (heq _).trans (hok rest' hrest)⟩
  · intro f hread
    rw [heq] at hread
    obtain ⟨w, rest, rfl, hat, hfail⟩ := h.of_error hread
    refine ⟨t :: w, rest, rfl, hat, fun rest' hrest => ?_⟩
    obtain ⟨f', hf'⟩ := hfail rest' hrest
    exact ⟨f', (heq _).trans hf'⟩

/-- a reading whose first token only settles that it goes the way of another one -/
theorem LooksAhead.congr {read next : List Token → Except Failure (α × List Token)}
    (heq : ∀ ts', ts'.head? = ts.head? → read ts' = next ts')
    (hlt : ∀ {a rest}, read ts = .ok (a, rest) → rest.length < ts.length)
    (h : LooksAhead next ts) : LooksAhead read ts := by
  constructor
  · intro a rest hread
    have hread' := hread
    rw [heq ts rfl] at hread'
    obtain ⟨w, hw, hok⟩ := h.of_ok hread'
    refine ⟨w, hw, fun rest' hrest => ?_⟩
    -- at least one token is taken, so that the first one is the same
    have hhead : (w ++ rest').head? = ts.head? := by
      cases w with
      | nil => exact absurd (hlt hread) (by simp [hw])
      | cons u w => rw [hw]; rfl
    exact (heq _ hhead).trans (hok rest' hrest)
  · intro f hread
    rw [heq ts rfl] at hread
    obtain ⟨w, rest, hw, hat, hfail⟩ := h.of_error hread
    refine ⟨w, rest, hw, hat, fun rest' hrest => ?_⟩
    have hhead : (w ++ rest').head? = ts.head? := by
      rw [hw, List.head?_append, List.head?_append, hrest]
    obtain ⟨f', hf'⟩ := hfail rest' hrest
    exact ⟨f', (heq _ hhead).trans hf'⟩

/-- a reading that fails at once -/
theorem looksAhead_of_error {read : List Token → Except Failure (α × List Token)} {f : Failure}
    (h : read ts = .error f) (hat : f.At ts)
    (hfail : ∀ ts', ts'.head? = ts.head? → ∃ f', read ts' = .error f') : LooksAhead read ts := by
  constructor
  · intro a rest hread
    rw [h] at hread
    cases hread
  · intro f' hread
    rw [h] at hread
    cases hread
    exact ⟨[], ts, rfl, hat, hfail⟩

/-- a reading that takes nothing -/
theorem looksAhead_of_same {read : List Token → Except Failure (α × List Token)} (a : α)
    (h : ∀ ts', SameNext ts ts' → read ts' = .ok (a, ts')) : LooksAhead read ts := by
  have hts := h ts (.inr rfl)
  constructor
  · intro b rest hread
    rw [hts] at hread
    cases hread
    exact ⟨[], rfl, h⟩
  · intro f hread
    rw [hts] at hread
    cases hread

end LooksAhead

/-! ## single tokens and parameters -/

theorem afterSymbol_of_head? {s : Symbol} {ts : List Token} (h : ts.head? ≠ some (.symbol s)) :
    afterSymbol s ts = .error ⟨.unexpected (.symbol s) (.ofFirst ts), ts⟩ := by
  cases ts with
  | nil => rfl
  | cons t ts => exact afterSymbol_of_ne (fun ht => h (by rw [ht]; rfl)) ts

theorem symbol_looksAhead (s : Symbol) (ts : List Token) :
    LooksAhead (fun ts => bare (afterSymbol s ts)) ts := by
  by_cases hs : ts.head? = some (.symbol s)
  · obtain ⟨us, rfl⟩ := List.head?_eq_some_iff.mp hs
    refine .cons (fun us => ?_) (looksAhead_pure () us)
    rw [afterSymbol_self]
    rfl
  · have hfail : ∀ ts', ts'.head? = ts.head? → bare (afterSymbol s ts') =
        .error ⟨.unexpected (.symbol s) (.ofFirst ts'), ts'⟩ := by
      intro ts' hts
      rw [afterSymbol_of_head? (hts ▸ hs)]
      rfl
    exact looksAhead_of_error (hfail ts rfl) (.unexpected _ ts) fun ts' hts => ⟨_, hfail ts' hts⟩

theorem name_looksAhead (ts : List Token) : LooksAhead readName ts := by
  cases ts with
  | nil =>
    refine looksAhead_of_error rfl (.unexpected _ _) fun ts' hts => ?_
    rw [List.head?_eq_none_iff.mp hts]
    exact ⟨_, rfl⟩
  | cons t ts =>
    cases t with
    | name x => exact .cons (readName_name x) (looksAhead_pure x ts)
    | number _ | illegal _ | symbol _ | keyword _ =>
      refine looksAhead_of_error rfl (.unexpected _ _) fun ts' hts => ?_
      obtain ⟨us, rfl⟩ := List.head?_eq_some_iff.mp hts
      exact ⟨_, rfl⟩

theorem afterTerminator_of_ne {t : Token} (hs : t ≠ .symbol .semicolon) (hb : t ≠ .symbol .rbrace)
    (ts : List Token) :
    afterTerminator (t :: ts) = .error ⟨.unexpected (.symbol .semicolon) t.kind, t :: ts⟩ := by
  rw [afterTerminator, terminator]
  · rfl
  · exact hs
  · exact hb

theorem SameNext.atEnd {ts ts' : List Token} (h : SameNext ts ts') (hend : AtEnd ts) :
    AtEnd ts' := by
  obtain rfl | h := h
  · exact .inl rfl
  obtain rfl | ⟨rest, rfl⟩ := hend
  · exact .inl (List.head?_eq_none_iff.mp h)
  · exact .inr (List.head?_eq_some_iff.mp h)

theorem terminator_looksAhead (ts : List Token) :
    LooksAhead (fun ts => bare (afterTerminator ts)) ts := by
  by_cases hend : AtEnd ts
  · refine looksAhead_of_same () fun ts' hts => ?_
    rw [afterTerminator_of_atEnd (hts.atEnd hend)]
    rfl
  obtain ⟨t, ts, rfl⟩ := List.exists_cons_of_ne_nil fun hn => hend (.inl hn)
  have hb : t ≠ .symbol .rbrace := by
    rintro rfl
    exact hend (.inr ⟨ts, rfl⟩)
  by_cases hs : t = .symbol .semicolon
  · subst hs
    exact .cons (fun ts => rfl) (looksAhead_pure () ts)
  · have hfail : ∀ us, bare (afterTerminator (t :: us)) =
        .error ⟨.unexpected (.symbol .semicolon) t.kind, t :: us⟩ := by
      intro us
      rw [afterTerminator_of_ne hs hb]
      rfl
    refine looksAhead_of_error (hfail ts) (.unexpected _ (t :: ts)) fun ts' hts => ?_
    obtain ⟨us, rfl⟩ := List.head?_eq_some_iff.mp hts
    exact ⟨_, hfail us⟩

theorem semicolon_looksAhead {α : Type} (a : α) (ts : List Token) :
    LooksAhead (fun ts => .ok (a, skipSemicolon ts)) ts := by
  by_cases hs : ts.head? = some (.symbol .semicolon)
  · obtain ⟨us, rfl⟩ := List.head?_eq_some_iff.mp hs
    exact .cons (fun us => rfl) (looksAhead_pure a us)
  · refine looksAhead_of_same a fun ts' hts => ?_
    rw [skipSemicolon_of_ne (hts.ne_cons hs)]

theorem moreParams_looksAhead (ts : List Token) : LooksAhead readMoreParams ts := by
  by_cases hc : ts.head? = some (.symbol .comma)
  · obtain ⟨us, rfl⟩ := List.head?_eq_some_iff.mp hc
    refine .cons readMoreParams_comma ?_
    refine (name_looksAhead us).bind fun x r hx => ?_
    have hlt : r.length < us.length := length_of_view hx
    exact (moreParams_looksAhead r).bind fun xs r _ => looksAhead_pure _ r
  · refine .congr (fun ts' hts => readMoreParams_of_ne (SameNext.ne_cons (.inr hts) hc))
      length_of_view ?_
    exact (symbol_looksAhead .rparen ts).bind_rest fun r _ => looksAhead_pure _ r
termination_by ts.length
decreasing_by grind

theorem params_looksAhead (ts : List Token) : LooksAhead readParams ts := by
  by_cases hc : ts.head? = some (.symbol .rparen)
  · obtain ⟨us, rfl⟩ := List.head?_eq_some_iff.mp hc
    exact .cons readParams_rparen (looksAhead_pure [] us)
  · refine .congr (fun ts' hts => readParams_of_ne (SameNext.ne_cons (.inr hts) hc))
      length_readParams ?_
    refine (name_looksAhead ts).bind fun x r _ => ?_
    exact (moreParams_looksAhead r).bind fun xs r _ => looksAhead_pure _ r

/-! ## expressions and statements -/

theorem SameNext.not_tighter {ts ts' : List Token} (h : SameNext ts ts') {level : Nat}
    (ht : tighter level ts = false) : tighter level ts' = false := by
  obtain rfl | h := h
  · rfl
  cases ts' with
  | nil => rfl
  | cons t us' =>
    obtain ⟨us, rfl⟩ := List.head?_eq_some_iff.mp h.symm
    rw [← ht]
    cases t with
    | symbol s => cases s <;> rfl
    | name _ | number _ | illegal _ | keyword _ => rfl

mutual

theorem expr_looksAhead (level : Nat) (ts : List Token) : LooksAhead (readExpr level) ts := by
  refine .congr (fun ts' _ => readExpr_eq level ts') length_readExpr ?_
  refine (operand_looksAhead ts).bind fun first r hfirst => ?_
  have hlt := length_readOperand hfirst
  exact operators_looksAhead level first r
termination_by 4 * ts.length + 1

theorem operators_looksAhead (level : Nat) (left : Expr) (ts : List Token) :
    LooksAhead (readOperators level left) ts := by
  cases hc : tighter level ts with
  | false =>
    exact looksAhead_of_same left fun ts' hts =>
      readOperators_of_not_tighter left (hts.not_tighter hc)
  | true =>
    obtain ⟨us, rfl⟩ | ⟨op, us, rfl, hlevel⟩ := tighter_cases hc
    · refine .cons (readOperators_lparen level left) ?_
      refine (arguments_looksAhead us).bind fun args r hargs => ?_
      have hlt := length_readArguments hargs
      exact operators_looksAhead level _ r
    · refine .cons (readOperators_binary hlevel left) ?_
      refine (expr_looksAhead op.level us).bind fun right r hright => ?_
      have hlt := length_readExpr hright
      exact operators_looksAhead level _ r
termination_by 4 * ts.length
decreasing_by all_goals (subst_vars; simp only [List.length_cons]; omega)

theorem arguments_looksAhead (ts : List Token) : LooksAhead readArguments ts := by
  by_cases hc : ts.head? = some (.symbol .rparen)
  · obtain ⟨us, rfl⟩ := List.head?_eq_some_iff.mp hc
    exact .cons readArguments_rparen (looksAhead_pure [] us)
  · refine .congr (fun ts' hts => readArguments_of_ne (SameNext.ne_cons (.inr hts) hc))
      length_readArguments ?_
    refine (expr_looksAhead 0 ts).bind fun e r he => ?_
    have hlt := length_readExpr he
    exact (moreArguments_looksAhead r).bind fun es r _ => looksAhead_pure _ r
termination_by 4 * ts.length + 2

theorem moreArguments_looksAhead (ts : List Token) : LooksAhead readMoreArguments ts := by
  by_cases hc : ts.head? = some (.symbol .comma)
  · obtain ⟨us, rfl⟩ := List.head?_eq_some_iff.mp hc
    refine .cons readMoreArguments_comma ?_
    refine (expr_looksAhead 0 us).bind fun e r he => ?_
    have hlt := length_readExpr he
    exact (moreArguments_looksAhead r).bind fun es r _ => looksAhead_pure _ r
  · refine .congr (fun ts' hts => readMoreArguments_of_ne (SameNext.ne_cons (.inr hts) hc))
      length_of_view ?_
    exact (symbol_looksAhead .rparen ts).bind_rest fun r _ => looksAhead_pure _ r
termination_by 4 * ts.length
decreasing_by all_goals (subst_vars; simp only [List.length_cons]; omega)

theorem operand_looksAhead (ts : List Token) : LooksAhead readOperand ts := by
  cases ts with
  | nil =>
    refine looksAhead_of_error readOperand_nil (.noExpression []) fun ts' hts => ?_
    rw [List.head?_eq_none_iff.mp hts]
    exact ⟨_, readOperand_nil⟩
  | cons t us =>
  cases ht : startsExpr t with
  | false =>
    refine looksAhead_of_error (readOperand_of_not_startsExpr ht us) (.noExpression (t :: us)) ?_
    intro ts' hts
    obtain ⟨us', rfl⟩ := List.head?_eq_some_iff.mp hts
    exact ⟨_, readOperand_of_not_startsExpr ht us'⟩
  | true =>
    obtain ⟨x, rfl⟩ | ⟨digits, rfl⟩ | ⟨b, rfl⟩ | ⟨op, rfl⟩ | rfl | rfl | rfl :=
      startsExpr_cases ht
    · exact .cons (readOperand_name x) (looksAhead_pure _ us)
    · cases hd : Integer.ofDigits? digits with
      | none =>
        refine looksAhead_of_error (readOperand_tooLarge hd us) (.tooLarge digits us) ?_
        intro ts' hts
        obtain ⟨us', rfl⟩ := List.head?_eq_some_iff.mp hts
        exact ⟨_, readOperand_tooLarge hd us'⟩
      | some n => exact .cons (readOperand_number hd) (looksAhead_pure _ us)
    · exact .cons (readOperand_bool b) (looksAhead_pure _ us)
    · refine .cons (readOperand_unary op) ?_
      exact (expr_looksAhead unaryLevel us).bind fun e r _ => looksAhead_pure _ r
    · refine .cons readOperand_lparen ?_
      refine (expr_looksAhead 0 us).bind fun e r _ => ?_
      exact (symbol_looksAhead .rparen r).bind_rest fun r _ => looksAhead_pure _ r
    · refine .cons readOperand_if ?_
      refine (symbol_looksAhead .lparen us).bind_rest fun r₁ h₁ => ?_
      have hlt₁ := length_afterSymbol h₁
      refine (expr_looksAhead 0 r₁).bind fun test r₂ h₂ => ?_
      have hlt₂ := length_readExpr h₂
      refine (symbol_looksAhead .rparen r₂).bind_rest fun r₃ h₃ => ?_
      have hlt₃ := length_afterSymbol h₃
      refine (symbol_looksAhead .lbrace r₃).bind_rest fun r₄ h₄ => ?_
      have hlt₄ := length_afterSymbol h₄
      refine (block_looksAhead r₄).bind fun body r₅ h₅ => ?_
      have hlt₅ := length_readBlock h₅
      exact alternative_looksAhead test body r₅
    · refine .cons readOperand_fn ?_
      refine (symbol_looksAhead .lparen us).bind_rest fun r₁ h₁ => ?_
      have hlt₁ := length_afterSymbol h₁
      refine (params_looksAhead r₁).bind fun xs r₂ h₂ => ?_
      have hlt₂ := length_readParams h₂
      refine (symbol_looksAhead .lbrace r₂).bind_rest fun r₃ h₃ => ?_
      have hlt₃ := length_afterSymbol h₃
      exact (block_looksAhead r₃).bind fun body r _ => looksAhead_pure _ r
termination_by 4 * ts.length
decreasing_by all_goals (subst_vars; simp only [List.length_cons]; omega)

theorem alternative_looksAhead (test : Expr) (body : Block) (ts : List Token) :
    LooksAhead (readAlternative test body) ts := by
  by_cases hc : ts.head? = some (.keyword .elseKw)
  · obtain ⟨us, rfl⟩ := List.head?_eq_some_iff.mp hc
    refine .cons (readAlternative_else test body) ?_
    refine (symbol_looksAhead .lbrace us).bind_rest fun r hr => ?_
    have hlt := length_afterSymbol hr
    exact (block_looksAhead r).bind fun other r _ => looksAhead_pure _ r
  · exact looksAhead_of_same _ fun ts' hts => readAlternative_of_ne test body (hts.ne_cons hc)
termination_by 4 * ts.length
decreasing_by all_goals (subst_vars; simp only [List.length_cons]; omega)

theorem block_looksAhead (ts : List Token) : LooksAhead readBlock ts := by
  by_cases hn : ts = []
  · subst hn
    refine looksAhead_of_error readBlock_nil (.unexpected _ []) fun ts' hts => ?_
    rw [List.head?_eq_none_iff.mp hts]
    exact ⟨_, readBlock_nil⟩
  by_cases hc : ts.head? = some (.symbol .rbrace)
  · obtain ⟨us, rfl⟩ := List.head?_eq_some_iff.mp hc
    exact .cons readBlock_rbrace (looksAhead_pure [] us)
  · refine .congr (fun ts' hts => readBlock_of_ne ?_ (SameNext.ne_cons (.inr hts) hc))
      length_readBlock ?_
    · rintro rfl
      exact hn (List.head?_eq_none_iff.mp hts.symm)
    · refine (statement_looksAhead ts).bind fun s r hs => ?_
      have hlt := length_readStatement hs
      exact (block_looksAhead r).bind fun ss r _ => looksAhead_pure _ r
termination_by 4 * ts.length + 3

theorem statement_looksAhead (ts : List Token) : LooksAhead readStatement ts := by
  by_cases hl : ts.head? = some (.keyword .letKw)
  · obtain ⟨us, rfl⟩ := List.head?_eq_some_iff.mp hl
    refine .cons readStatement_let ?_
    refine (name_looksAhead us).bind fun x r₁ h₁ => ?_
    have hlt₁ : r₁.length < us.length := length_of_view h₁
    refine (symbol_looksAhead .assign r₁).bind_rest fun r₂ h₂ => ?_
    have hlt₂ := length_afterSymbol h₂
    refine (expr_looksAhead 0 r₂).bind fun e r₃ _ => ?_
    exact (terminator_looksAhead r₃).bind_rest fun r _ => looksAhead_pure _ r
  by_cases hr : ts.head? = some (.keyword .returnKw)
  · obtain ⟨us, rfl⟩ := List.head?_eq_some_iff.mp hr
    refine .cons readStatement_return ?_
    refine (expr_looksAhead 0 us).bind fun e r₁ _ => ?_
    exact (terminator_looksAhead r₁).bind_rest fun r _ => looksAhead_pure _ r
  · refine .congr (fun ts' hts => readStatement_of_ne (SameNext.ne_cons (.inr hts) hl)
      (SameNext.ne_cons (.inr hts) hr)) length_readStatement ?_
    exact (expr_looksAhead 0 ts).bind fun e r _ => semicolon_looksAhead _ r
termination_by 4 * ts.length + 2
decreasing_by all_goals grind

end

end Parser

end MonkeyLang
