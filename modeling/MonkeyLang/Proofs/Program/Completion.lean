import MonkeyLang.Proofs.Program.Acceptance
import MonkeyLang.Proofs.Program.Lookahead

/-!
# What was read before a failure can be completed

* `Filler v`               tokens that can be put into every text;
* `Completable L f ts`     what stands before the failure `f` in `ts` is the start of a list in `L`,
                           with such tokens to complete it;
* `Closed p s`             the lists of a phrase with the symbol that closes it;
* `expr_completable` …     where the parser fails to read a phrase, what it has read of it can be
                           completed to this phrase.
-/

namespace MonkeyLang
open MonkeyLang.Parser

/-! ## completing tokens -/

/-- tokens that are well spelled and in range -/
def Filler (v : List Token) : Prop := WellSpelled v ∧ InRange v

/-- a name, in the place of any expression -/
def placeholder : Token := .name "x"

section Filler
variable {v : List Token}

@[simp] theorem filler_nil : Filler [] := ⟨wellSpelled_nil, inRange_nil⟩

@[simp] theorem filler_symbol {s : Symbol} : Filler (.symbol s :: v) ↔ Filler v := by
  simp [Filler]

@[simp] theorem filler_placeholder : Filler (placeholder :: v) ↔ Filler v := by
  have hx : IsName "x" := ⟨by decide, by simp [isLetter], by decide⟩
  simp [Filler, placeholder, hx]

theorem Filler.append {w : List Token} (hv : Filler v) (hw : Filler w) : Filler (v ++ w) :=
  ⟨wellSpelled_append.mpr ⟨hv.1, hw.1⟩, inRange_append.mpr ⟨hv.2, hw.2⟩⟩

end Filler

/-- the failure is at `rest`, and what stands before is the start of a list in `L` -/
def Completable (L : List Token → Prop) (f : Failure) (ts : List Token) : Prop :=
  ∃ w rest v, ts = w ++ rest ∧ f.At rest ∧ InRange w ∧ Filler v ∧ L (w ++ v)

section Completable
variable {L M : List Token → Prop} {f : Failure} {ts us : List Token}

/-- nothing was read -/
theorem completable_of_at (h : f.At ts) (v : List Token) (hv : Filler v) (hL : L v) :
    Completable L f ts := ⟨[], ts, v, rfl, h, inRange_nil, hv, hL⟩

/-- with `before` in front and `after` behind, a list in `L` becomes one in `M` -/
theorem Completable.within (h : Completable L f ts) (before after : List Token)
    (heq : us = before ++ ts) (hbefore : InRange before) (hafter : Filler after)
    (hL : ∀ y, L y → M (before ++ (y ++ after))) : Completable M f us := by
  obtain ⟨w, rest, v, rfl, hat, hw, hv, hLv⟩ := h
  refine ⟨before ++ w, rest, v ++ after, ?_, hat, ?_, hv.append hafter, ?_⟩
  · rw [heq, List.append_assoc]
  · exact inRange_append.mpr ⟨hbefore, hw⟩
  · have hM := hL (w ++ v) hLv
    rw [List.append_assoc w v] at hM
    rw [List.append_assoc]
    exact hM

/-- where `L` goes to the end of `M` -/
theorem Completable.after (h : Completable L f ts) (before : List Token)
    (heq : us = before ++ ts) (hbefore : InRange before) (hL : ∀ y, L y → M (before ++ y)) :
    Completable M f us := by
  refine h.within before [] heq hbefore filler_nil fun y hy => ?_
  rw [List.append_nil]
  exact hL y hy

end Completable

/-- what the phrase derives, with the symbol that closes it -/
def Closed (p : Phrase) (s : Symbol) (ts : List Token) : Prop :=
  ∃ w, ts = w ++ [.symbol s] ∧ Derives p w

theorem Closed.block {w : List Token} (h : Closed .statements .rbrace w) :
    Derives .block (.symbol .lbrace :: w) := by
  obtain ⟨w, rfl, hw⟩ := h
  exact .block hw

theorem closed_nil : Closed .statements .rbrace [.symbol .rbrace] := ⟨[], rfl, .noStatement⟩

theorem Derives.ofOperand {w : List Token} (h : Derives .operand w) : Derives .expression w := by
  have he := Derives.expression h .noOperator
  rwa [List.append_nil] at he

theorem Derives.ofOperator {w : List Token} (h : Derives .operator w) : Derives .operators w := by
  have hm := Derives.moreOperators h .noOperator
  rwa [List.append_nil] at hm

theorem Derives.ofArgument {w : List Token} (h : Derives .expression w) : Derives .arguments w := by
  have ha := Derives.someArguments h .lastArgument
  rwa [List.append_nil] at ha

theorem derives_placeholder : Derives .expression [placeholder] := .ofOperand .name

/-! ## single tokens and parameters -/

section Tokens
variable {f : Failure}

theorem symbol_completable {s : Symbol} {ts : List Token} (h : afterSymbol s ts = .error f) :
    Completable (· = [.symbol s]) f ts := by
  by_cases hs : ts.head? = some (.symbol s)
  · obtain ⟨us, rfl⟩ := List.head?_eq_some_iff.mp hs
    rw [afterSymbol_self] at h
    cases h
  · rw [afterSymbol_of_head? hs] at h
    cases h
    exact completable_of_at (.unexpected _ _) _ (by simp) rfl

theorem name_completable {ts : List Token} (h : readName ts = .error f) :
    Completable (· = [placeholder]) f ts := by
  cases ts with
  | nil =>
    cases h
    exact completable_of_at (.unexpected _ []) _ (by simp) rfl
  | cons t ts =>
    cases t with
    | name x => cases h
    | number _ | illegal _ | symbol _ | keyword _ =>
      cases h
      exact completable_of_at (.unexpected _ (_ :: ts)) _ (by simp) rfl

theorem terminator_completable {ts : List Token} (h : afterTerminator ts = .error f) :
    Completable (· = [.symbol .semicolon]) f ts := by
  by_cases hend : AtEnd ts
  · rw [afterTerminator_of_atEnd hend] at h
    cases h
  obtain ⟨t, ts, rfl⟩ := List.exists_cons_of_ne_nil fun hn => hend (.inl hn)
  by_cases hs : t = .symbol .semicolon
  · rw [hs, afterTerminator_semicolon] at h
    cases h
  · have hb : t ≠ .symbol .rbrace := by
      rintro rfl
      exact hend (.inr ⟨ts, rfl⟩)
    rw [afterTerminator_of_ne hs hb] at h
    cases h
    exact completable_of_at (.unexpected _ (t :: ts)) _ (by simp) rfl

theorem moreParams_completable {ts : List Token} (h : readMoreParams ts = .error f) :
    Completable (Closed .moreParams .rparen) f ts := by
  by_cases hc : ts.head? = some (.symbol .comma)
  · obtain ⟨us, rfl⟩ := List.head?_eq_some_iff.mp hc
    rw [readMoreParams_comma] at h
    obtain herr | ⟨⟨x, r⟩, hx, hmore⟩ := bind_eq_error h
    · refine (name_completable herr).within [.symbol .comma] [.symbol .rparen] rfl (by simp)
        (by simp) ?_
      rintro _ rfl
      exact ⟨_, rfl, .nextParam .lastParam⟩
    have hlt : r.length < us.length := length_of_view hx
    obtain rfl := eq_of_readName hx
    obtain herr | ⟨p, -, hend⟩ := bind_eq_error hmore
    · refine (moreParams_completable herr).after [.symbol .comma, .name x] rfl (by simp) ?_
      rintro _ ⟨xs, rfl, hxs⟩
      exact ⟨.symbol .comma :: .name x :: xs, rfl, .nextParam hxs⟩
    · cases hend
  · rw [readMoreParams_of_ne (SameNext.ne_cons (.inr rfl) hc)] at h
    obtain herr | ⟨r, -, hend⟩ := bind_eq_error h
    · refine (symbol_completable herr).after [] rfl (by simp) ?_
      rintro _ rfl
      exact ⟨[], rfl, .lastParam⟩
    · cases hend
termination_by ts.length
decreasing_by grind

theorem params_completable {ts : List Token} (h : readParams ts = .error f) :
    Completable (Closed .params .rparen) f ts := by
  by_cases hc : ts.head? = some (.symbol .rparen)
  · obtain ⟨us, rfl⟩ := List.head?_eq_some_iff.mp hc
    rw [readParams_rparen] at h
    cases h
  · rw [readParams_of_ne (SameNext.ne_cons (.inr rfl) hc)] at h
    obtain herr | ⟨⟨x, r⟩, hx, hmore⟩ := bind_eq_error h
    · refine (name_completable herr).within [] [.symbol .rparen] rfl (by simp) (by simp) ?_
      rintro _ rfl
      exact ⟨_, rfl, .someParams .lastParam⟩
    obtain rfl := eq_of_readName hx
    obtain herr | ⟨p, -, hend⟩ := bind_eq_error hmore
    · refine (moreParams_completable herr).after [.name x] rfl (by simp) ?_
      rintro _ ⟨xs, rfl, hxs⟩
      exact ⟨.name x :: xs, rfl, .someParams hxs⟩
    · cases hend

end Tokens

/-! ## conditionals and functions -/

section Operands
variable {f : Failure} {us : List Token}

theorem emptyBlock : Derives .block [.symbol .lbrace, .symbol .rbrace] := .block .noStatement

theorem alternative_completable {test : Expr} {body : Block}
    (h : readAlternative test body us = .error f)
    (hblock : ∀ {r}, r.length < us.length → readBlock r = .error f →
      Completable (Closed .statements .rbrace) f r) :
    Completable (fun y => ∃ o, y = .keyword .elseKw :: o ∧ Derives .block o) f us := by
  by_cases hc : us.head? = some (.keyword .elseKw)
  · obtain ⟨vs, rfl⟩ := List.head?_eq_some_iff.mp hc
    rw [readAlternative_else] at h
    obtain herr | ⟨r, hr, hmore⟩ := bind_eq_error h
    · refine (symbol_completable herr).within [.keyword .elseKw] [.symbol .rbrace] rfl (by simp)
        (by simp) ?_
      rintro _ rfl
      exact ⟨_, rfl, emptyBlock⟩
    obtain rfl := eq_of_afterSymbol hr
    obtain herr | ⟨p, -, hend⟩ := bind_eq_error hmore
    · refine (hblock (by simp only [List.length_cons]; omega) herr).after
        [.keyword .elseKw, .symbol .lbrace] rfl (by simp) ?_
      exact fun y hy => ⟨_, rfl, hy.block⟩
    · cases hend
  · rw [readAlternative_of_ne test body (SameNext.ne_cons (.inr rfl) hc)] at h
    cases h

variable (hblock : ∀ {r}, r.length < us.length → readBlock r = .error f →
  Completable (Closed .statements .rbrace) f r)
include hblock

theorem cond_completable (h : readOperand (.keyword .ifKw :: us) = .error f)
    (hexpr : ∀ {r}, r.length < us.length → readExpr 0 r = .error f →
      Completable (Derives .expression) f r) :
    Completable (Derives .operand) f (.keyword .ifKw :: us) := by
  rw [readOperand_if] at h
  -- each step may fail, and then the shortest conditional that starts so completes it
  obtain herr | ⟨r₁, h₁, hmore₁⟩ := bind_eq_error h
  · refine (symbol_completable herr).within [.keyword .ifKw]
      [placeholder, .symbol .rparen, .symbol .lbrace, .symbol .rbrace] rfl (by simp) (by simp) ?_
    rintro _ rfl
    exact .cond derives_placeholder emptyBlock
  have hlt₁ := length_afterSymbol h₁
  obtain rfl := eq_of_afterSymbol h₁
  obtain herr | ⟨⟨test, r₂⟩, h₂, hmore₂⟩ := bind_eq_error hmore₁
  · exact (hexpr hlt₁ herr).within [.keyword .ifKw, .symbol .lparen]
      [.symbol .rparen, .symbol .lbrace, .symbol .rbrace] rfl (by simp) (by simp)
      fun y hy => .cond hy emptyBlock
  have hlt₂ := length_readExpr h₂
  obtain ⟨e, rfl, he, hre⟩ := expr_spans (after_eq_ok.mpr ⟨test, h₂⟩)
  obtain herr | ⟨r₃, h₃, hmore₃⟩ := bind_eq_error hmore₂
  · refine (symbol_completable herr).within (.keyword .ifKw :: .symbol .lparen :: e)
      [.symbol .lbrace, .symbol .rbrace] rfl (by simp [hre]) (by simp) ?_
    rintro _ rfl
    exact .cond he emptyBlock
  have hlt₃ := length_afterSymbol h₃
  obtain rfl := eq_of_afterSymbol h₃
  obtain herr | ⟨r₄, h₄, hmore₄⟩ := bind_eq_error hmore₃
  · refine (symbol_completable herr).within
      (.keyword .ifKw :: .symbol .lparen :: (e ++ [.symbol .rparen])) [.symbol .rbrace] (by simp)
      (by simp [hre]) (by simp) ?_
    rintro _ rfl
    simpa using Derives.cond he emptyBlock
  have hlt₄ := length_afterSymbol h₄
  obtain rfl := eq_of_afterSymbol h₄
  obtain herr | ⟨⟨body, r₅⟩, h₅, hmore₅⟩ := bind_eq_error hmore₄
  · refine (hblock (by omega) herr).after
      (.keyword .ifKw :: .symbol .lparen :: (e ++ [.symbol .rparen, .symbol .lbrace])) (by simp)
      (by simp [hre]) fun y hy => ?_
    simpa using Derives.cond he hy.block
  have hlt₅ := length_readBlock h₅
  obtain ⟨b, heq, hb, hrb⟩ := (block_spans (after_eq_ok.mpr ⟨body, h₅⟩)).block
  refine (alternative_completable hmore₅ fun hr => hblock (by omega)).after
    (.keyword .ifKw :: .symbol .lparen :: (e ++ .symbol .rparen :: b)) (by simp [heq])
    (by simp [hre, hrb]) ?_
  rintro _ ⟨o, rfl, ho⟩
  simpa using Derives.condElse he hb ho

theorem func_completable (h : readOperand (.keyword .fnKw :: us) = .error f) :
    Completable (Derives .operand) f (.keyword .fnKw :: us) := by
  rw [readOperand_fn] at h
  obtain herr | ⟨r₁, h₁, hmore₁⟩ := bind_eq_error h
  · refine (symbol_completable herr).within [.keyword .fnKw]
      [.symbol .rparen, .symbol .lbrace, .symbol .rbrace] rfl (by simp) (by simp) ?_
    rintro _ rfl
    exact .func .noParams emptyBlock
  have hlt₁ := length_afterSymbol h₁
  obtain rfl := eq_of_afterSymbol h₁
  obtain herr | ⟨⟨params, r₂⟩, h₂, hmore₂⟩ := bind_eq_error hmore₁
  · refine (params_completable herr).within [.keyword .fnKw, .symbol .lparen]
      [.symbol .lbrace, .symbol .rbrace] rfl (by simp) (by simp) ?_
    rintro _ ⟨xs, rfl, hxs⟩
    simpa using Derives.func hxs emptyBlock
  have hlt₂ := length_readParams h₂
  obtain ⟨xs, rfl, hxs, hrx⟩ := params_spans (after_eq_ok.mpr ⟨params, h₂⟩)
  obtain herr | ⟨r₃, h₃, hmore₃⟩ := bind_eq_error hmore₂
  · refine (symbol_completable herr).within
      (.keyword .fnKw :: .symbol .lparen :: (xs ++ [.symbol .rparen])) [.symbol .rbrace] (by simp)
      (by simp [hrx]) (by simp) ?_
    rintro _ rfl
    simpa using Derives.func hxs emptyBlock
  have hlt₃ := length_afterSymbol h₃
  obtain rfl := eq_of_afterSymbol h₃
  obtain herr | ⟨p, -, hend⟩ := bind_eq_error hmore₃
  · refine (hblock (by omega) herr).after
      (.keyword .fnKw :: .symbol .lparen :: (xs ++ [.symbol .rparen, .symbol .lbrace])) (by simp)
      (by simp [hrx]) fun y hy => ?_
    simpa using Derives.func hxs hy.block
  · cases hend

end Operands

/-! ## expressions and statements -/

mutual

theorem expr_completable {level : Nat} {ts : List Token} {f : Failure}
    (h : readExpr level ts = .error f) : Completable (Derives .expression) f ts := by
  rw [readExpr_eq] at h
  obtain herr | ⟨⟨first, r⟩, hfirst, hmore⟩ := bind_eq_error h
  · exact (operand_completable herr).after [] rfl (by simp) fun y hy => hy.ofOperand
  · have hlt := length_readOperand hfirst
    obtain ⟨w, rfl, hw, hrw⟩ := operand_spans (after_eq_ok.mpr ⟨first, hfirst⟩)
    exact (operators_completable hmore).after w rfl hrw fun y hy => .expression hw hy
termination_by 4 * ts.length + 1

theorem operators_completable {level : Nat} {left : Expr} {ts : List Token} {f : Failure}
    (h : readOperators level left ts = .error f) : Completable (Derives .operators) f ts := by
  cases hc : tighter level ts with
  | false =>
    rw [readOperators_of_not_tighter left hc] at h
    cases h
  | true =>
    obtain ⟨us, rfl⟩ | ⟨op, us, rfl, hlevel⟩ := tighter_cases hc
    · rw [readOperators_lparen] at h
      obtain herr | ⟨⟨args, r⟩, hargs, hmore⟩ := bind_eq_error h
      · refine (arguments_completable herr).after [.symbol .lparen] rfl (by simp) ?_
        rintro _ ⟨es, rfl, hes⟩
        exact (Derives.call hes).ofOperator
      · have hlt := length_readArguments hargs
        obtain ⟨es, rfl, hes, hres⟩ := arguments_spans (after_eq_ok.mpr ⟨args, hargs⟩)
        refine (operators_completable hmore).after (.symbol .lparen :: (es ++ [.symbol .rparen]))
          (by simp) (by simp [hres]) ?_
        exact fun y hy => .moreOperators (.call hes) hy
    · rw [readOperators_binary hlevel] at h
      obtain herr | ⟨⟨right, r⟩, hright, hmore⟩ := bind_eq_error h
      · exact (expr_completable herr).after [.symbol op.symbol] rfl (by simp)
          fun y hy => (Derives.binary hy).ofOperator
      · have hlt := length_readExpr hright
        obtain ⟨e, rfl, he, hre⟩ := expr_spans (after_eq_ok.mpr ⟨right, hright⟩)
        exact (operators_completable hmore).after (.symbol op.symbol :: e) rfl (by simp [hre])
          fun y hy => .moreOperators (.binary he) hy
termination_by 4 * ts.length
decreasing_by all_goals (subst_vars; simp only [List.length_cons]; omega)

theorem arguments_completable {ts : List Token} {f : Failure} (h : readArguments ts = .error f) :
    Completable (Closed .arguments .rparen) f ts := by
  by_cases hc : ts.head? = some (.symbol .rparen)
  · obtain ⟨us, rfl⟩ := List.head?_eq_some_iff.mp hc
    rw [readArguments_rparen] at h
    cases h
  · rw [readArguments_of_ne (SameNext.ne_cons (.inr rfl) hc)] at h
    obtain herr | ⟨⟨e, r⟩, he, hmore⟩ := bind_eq_error h
    · exact (expr_completable herr).within [] [.symbol .rparen] rfl (by simp) (by simp)
        fun y hy => ⟨y, rfl, hy.ofArgument⟩
    have hlt := length_readExpr he
    obtain ⟨w, rfl, hw, hrw⟩ := expr_spans (after_eq_ok.mpr ⟨e, he⟩)
    obtain herr | ⟨p, -, hend⟩ := bind_eq_error hmore
    · refine (moreArguments_completable herr).after w rfl hrw ?_
      rintro _ ⟨es, rfl, hes⟩
      exact ⟨w ++ es, by simp, .someArguments hw hes⟩
    · cases hend
termination_by 4 * ts.length + 2

theorem moreArguments_completable {ts : List Token} {f : Failure}
    (h : readMoreArguments ts = .error f) : Completable (Closed .moreArguments .rparen) f ts := by
  by_cases hc : ts.head? = some (.symbol .comma)
  · obtain ⟨us, rfl⟩ := List.head?_eq_some_iff.mp hc
    rw [readMoreArguments_comma] at h
    obtain herr | ⟨⟨e, r⟩, he, hmore⟩ := bind_eq_error h
    · refine (expr_completable herr).within [.symbol .comma] [.symbol .rparen] rfl (by simp)
        (by simp) fun y hy => ?_
      exact ⟨.symbol .comma :: (y ++ []), by simp, .nextArgument hy .lastArgument⟩
    have hlt := length_readExpr he
    obtain ⟨w, rfl, hw, hrw⟩ := expr_spans (after_eq_ok.mpr ⟨e, he⟩)
    obtain herr | ⟨p, -, hend⟩ := bind_eq_error hmore
    · refine (moreArguments_completable herr).after (.symbol .comma :: w) rfl (by simp [hrw]) ?_
      rintro _ ⟨es, rfl, hes⟩
      exact ⟨.symbol .comma :: (w ++ es), by simp, .nextArgument hw hes⟩
    · cases hend
  · rw [readMoreArguments_of_ne (SameNext.ne_cons (.inr rfl) hc)] at h
    obtain herr | ⟨r, -, hend⟩ := bind_eq_error h
    · refine (symbol_completable herr).after [] rfl (by simp) ?_
      rintro _ rfl
      exact ⟨[], rfl, .lastArgument⟩
    · cases hend
termination_by 4 * ts.length
decreasing_by all_goals (subst_vars; simp only [List.length_cons]; omega)

theorem operand_completable {ts : List Token} {f : Failure} (h : readOperand ts = .error f) :
    Completable (Derives .operand) f ts := by
  cases ts with
  | nil =>
    rw [readOperand_nil] at h
    cases h
    exact completable_of_at (.noExpression []) [placeholder] (by simp) .name
  | cons t us =>
  cases ht : startsExpr t with
  | false =>
    rw [readOperand_of_not_startsExpr ht] at h
    cases h
    exact completable_of_at (.noExpression (t :: us)) [placeholder] (by simp) .name
  | true =>
    obtain ⟨x, rfl⟩ | ⟨digits, rfl⟩ | ⟨b, rfl⟩ | ⟨op, rfl⟩ | rfl | rfl | rfl :=
      startsExpr_cases ht
    · rw [readOperand_name] at h
      cases h
    · cases hd : Integer.ofDigits? digits with
      | none =>
        rw [readOperand_tooLarge hd] at h
        cases h
        exact completable_of_at (.tooLarge digits us) [placeholder] (by simp) .name
      | some n =>
        rw [readOperand_number hd] at h
        cases h
    · rw [readOperand_bool] at h
      cases h
    · rw [readOperand_unary] at h
      obtain herr | ⟨p, -, hend⟩ := bind_eq_error h
      · exact (expr_completable herr).after [.symbol op.symbol] rfl (by simp)
          fun y hy => .unary hy
      · cases hend
    · rw [readOperand_lparen] at h
      obtain herr | ⟨⟨e, r⟩, he, hmore⟩ := bind_eq_error h
      · exact (expr_completable herr).within [.symbol .lparen] [.symbol .rparen] rfl (by simp)
          (by simp) fun y hy => .group hy
      obtain ⟨w, rfl, hw, hrw⟩ := expr_spans (after_eq_ok.mpr ⟨e, he⟩)
      obtain herr | ⟨p, -, hend⟩ := bind_eq_error hmore
      · refine (symbol_completable herr).after (.symbol .lparen :: w) rfl (by simp [hrw]) ?_
        rintro _ rfl
        exact .group hw
      · cases hend
    · exact cond_completable (fun hlt => block_completable) h fun hlt => expr_completable
    · exact func_completable (fun hlt => block_completable) h
termination_by 4 * ts.length
decreasing_by all_goals (subst_vars; simp only [List.length_cons]; omega)

theorem block_completable {ts : List Token} {f : Failure} (h : readBlock ts = .error f) :
    Completable (Closed .statements .rbrace) f ts := by
  by_cases hn : ts = []
  · rw [hn, readBlock_nil] at h
    cases h
    rw [hn]
    exact completable_of_at (.unexpected _ []) _ (by simp) closed_nil
  by_cases hc : ts.head? = some (.symbol .rbrace)
  · obtain ⟨us, rfl⟩ := List.head?_eq_some_iff.mp hc
    rw [readBlock_rbrace] at h
    cases h
  · rw [readBlock_of_ne hn (SameNext.ne_cons (.inr rfl) hc)] at h
    obtain herr | ⟨⟨s, r⟩, hs, hmore⟩ := bind_eq_error h
    · exact (statement_completable herr).within [] [.symbol .rbrace] rfl (by simp) (by simp)
        fun y hy => ⟨y, rfl, .lastStatement hy⟩
    have hlt := length_readStatement hs
    obtain ⟨ended, ⟨w, rfl, hw, hrw⟩, hended⟩ := statement_spans (after_eq_ok.mpr ⟨s, hs⟩)
    obtain herr | ⟨p, -, hend⟩ := bind_eq_error hmore
    · have hblock := block_completable herr
      cases ended with
      | true =>
        refine hblock.after w rfl hrw ?_
        rintro _ ⟨b, rfl, hb⟩
        exact ⟨w ++ b, by simp, .moreStatements hw hb⟩
      | false =>
        -- nothing but the closing brace can follow, and it is missing
        obtain rfl | ⟨rest, rfl⟩ := hended rfl
        · rw [readBlock_nil] at herr
          cases herr
          exact ⟨w, [], [.symbol .rbrace], rfl, .unexpected _ [], hrw, by simp,
            w, rfl, .lastStatement hw⟩
        · rw [readBlock_rbrace] at herr
          cases herr
    · cases hend
termination_by 4 * ts.length + 3

theorem statement_completable {ts : List Token} {f : Failure} (h : readStatement ts = .error f) :
    Completable (Derives (.statement true)) f ts := by
  by_cases hl : ts.head? = some (.keyword .letKw)
  · obtain ⟨us, rfl⟩ := List.head?_eq_some_iff.mp hl
    rw [readStatement_let] at h
    obtain herr | ⟨⟨x, r₁⟩, h₁, hmore₁⟩ := bind_eq_error h
    · refine (name_completable herr).within [.keyword .letKw]
        [.symbol .assign, placeholder, .symbol .semicolon] rfl (by simp) (by simp) ?_
      rintro _ rfl
      exact .bind derives_placeholder
    have hlt₁ : r₁.length < us.length := length_of_view h₁
    obtain rfl := eq_of_readName h₁
    obtain herr | ⟨r₂, h₂, hmore₂⟩ := bind_eq_error hmore₁
    · refine (symbol_completable herr).within [.keyword .letKw, .name x]
        [placeholder, .symbol .semicolon] rfl (by simp) (by simp) ?_
      rintro _ rfl
      exact .bind derives_placeholder
    have hlt₂ := length_afterSymbol h₂
    obtain rfl := eq_of_afterSymbol h₂
    obtain herr | ⟨⟨e, r₃⟩, h₃, hmore₃⟩ := bind_eq_error hmore₂
    · exact (expr_completable herr).within [.keyword .letKw, .name x, .symbol .assign]
        [.symbol .semicolon] rfl (by simp) (by simp) fun y hy => .bind hy
    obtain ⟨w, rfl, hw, hrw⟩ := expr_spans (after_eq_ok.mpr ⟨e, h₃⟩)
    obtain herr | ⟨p, -, hend⟩ := bind_eq_error hmore₃
    · refine (terminator_completable herr).after
        (.keyword .letKw :: .name x :: .symbol .assign :: w) rfl (by simp [hrw]) ?_
      rintro _ rfl
      exact .bind hw
    · cases hend
  by_cases hr : ts.head? = some (.keyword .returnKw)
  · obtain ⟨us, rfl⟩ := List.head?_eq_some_iff.mp hr
    rw [readStatement_return] at h
    obtain herr | ⟨⟨e, r⟩, he, hmore⟩ := bind_eq_error h
    · exact (expr_completable herr).within [.keyword .returnKw] [.symbol .semicolon] rfl (by simp)
        (by simp) fun y hy => .ret hy
    obtain ⟨w, rfl, hw, hrw⟩ := expr_spans (after_eq_ok.mpr ⟨e, he⟩)
    obtain herr | ⟨p, -, hend⟩ := bind_eq_error hmore
    · refine (terminator_completable herr).after (.keyword .returnKw :: w) rfl (by simp [hrw]) ?_
      rintro _ rfl
      exact .ret hw
    · cases hend
  · rw [readStatement_of_ne (SameNext.ne_cons (.inr rfl) hl) (SameNext.ne_cons (.inr rfl) hr)] at h
    obtain herr | ⟨p, -, hend⟩ := bind_eq_error h
    · refine (expr_completable herr).within [] [.symbol .semicolon] rfl (by simp) (by simp) ?_
      exact fun y hy => .expr (b := true) hy
    · cases hend
termination_by 4 * ts.length + 2
decreasing_by all_goals grind

end

end MonkeyLang
