import MonkeyLang.Proofs.Program.Reading
import MonkeyLang.Proofs.Token.Spelling

/-!
# Where one text can follow another

* `Complete depth ts`    the last of the tokens `ts` is a semicolon, and with it all blocks are
                         closed, of which `depth` are open before `ts`;
* `Parser.Extends`       what is read stays the same when more tokens come behind;
* `Parser.extendable`    this is so for every part of a statement that is read from tokens that are
                         complete: it ends, or fails, before these tokens do;
* `resume_append`        a broken statement is dropped up to their end at most;
* `Program.parse_append` tokens that are complete are read by themselves.

No reading comes to the end of tokens that are complete, except by the semicolon that ends the
last statement.  Inside a block the end would leave the block open, and outside blocks a semicolon
ends the statement.
-/

namespace MonkeyLang

/-! ## where a text is complete -/

/-- how many blocks are open after some tokens, when `depth` are open before them -/
def openBlocks (depth : Nat) (ts : List Token) : Nat := ts.foldl Token.depthAfter depth

/-- the last token is a semicolon outside all blocks, of which `depth` are open at the start -/
structure Complete (depth : Nat) (ts : List Token) : Prop where
  last : ts.getLast? = some (.symbol .semicolon)
  closed : openBlocks depth ts = 0

/-- what is left of tokens that were complete: nothing, or tokens that are complete too -/
def Remainder (depth : Nat) (ts : List Token) : Prop := ts = [] ∧ depth = 0 ∨ Complete depth ts

section Complete
variable {n : Nat} {t : Token} {ts : List Token}

theorem Complete.ne_nil (h : Complete n ts) : ts ≠ [] := by
  rintro rfl
  cases h.last

theorem Complete.tail (h : Complete n (t :: ts)) (ht : t ≠ .symbol .semicolon) :
    Complete (t.depthAfter n) ts := by
  refine ⟨?_, h.closed⟩
  cases ts with
  | nil => exact absurd (Option.some.inj h.last) ht
  | cons u us => exact h.last

theorem Complete.after_semicolon (h : Complete n (.symbol .semicolon :: ts)) : Remainder n ts := by
  cases ts with
  | nil => exact .inl ⟨rfl, h.closed⟩
  | cons u us => exact .inr ⟨h.last, h.closed⟩

theorem Complete.uncons (h : Complete n (t :: ts)) :
    Remainder (t.depthAfter n) ts ∧ (ts ≠ [] ∨ t = .symbol .semicolon) := by
  by_cases ht : t = .symbol .semicolon
  · subst ht
    exact ⟨h.after_semicolon, .inr rfl⟩
  · have htail := h.tail ht
    exact ⟨.inr htail, .inl htail.ne_nil⟩

/-- inside a block there is always something left -/
theorem Remainder.inside (h : Remainder (n + 1) ts) : Complete (n + 1) ts := by
  obtain ⟨-, h⟩ | h := h
  · cases h
  · exact h

end Complete

/-! ## reading with more tokens behind -/

/-- the same failure, with more tokens behind those that have not been looked at -/
def Failure.before (us : List Token) (failure : Failure) : Failure :=
  ⟨failure.error, failure.unread ++ us⟩

namespace Parser

/-- `x` is what was read, and `y` what is read when the tokens `us` come behind: the same failure,
or the same result up to `extend`, which puts `us` behind the tokens that are left -/
def Extends {α : Type} (us : List Token) (extend : α → α) (good : α → Prop)
    (x y : Except Failure α) : Prop :=
  match x with
  | .ok a => good a ∧ y = .ok (extend a)
  | .error failure => y = .error (failure.before us)

theorem Extends.bind {α β : Type} {us : List Token} {ext : α → α} {ext' : β → β}
    {good : α → Prop} {good' : β → Prop} {x y : Except Failure α} {f g : α → Except Failure β}
    (h : Extends us ext good x y)
    (hf : ∀ a, x = .ok a → good a → Extends us ext' good' (f a) (g (ext a))) :
    Extends us ext' good' (x >>= f) (y >>= g) := by
  cases x with
  | error failure =>
    obtain rfl : y = .error (failure.before us) := h
    rfl
  | ok a =>
    obtain ⟨ha, rfl⟩ := h
    exact hf a rfl ha

/-- where something is read, and `good` holds of what is left -/
def ExtendsRead {α : Type} (us : List Token) (good : List Token → Prop)
    (x y : Except Failure (α × List Token)) : Prop :=
  Extends us (fun p => (p.1, p.2 ++ us)) (fun p => good p.2) x y

/-- where only the tokens that are left matter -/
def ExtendsRest (us : List Token) (good : List Token → Prop)
    (x y : Except Failure (List Token)) : Prop :=
  Extends us (· ++ us) good x y

theorem cons_ne {t u : Token} (h : t ≠ u) (ts : List Token) : ∀ rest, t :: ts ≠ u :: rest :=
  fun _ he => h (List.cons.inj he).1

theorem cons_append_ne {t u : Token} (h : t ≠ u) (ts us : List Token) :
    ∀ rest, t :: ts ++ us ≠ u :: rest := cons_ne h (ts ++ us)

section Steps
variable {n : Nat} {ts us : List Token}

theorem afterSymbol_of_ne {s : Symbol} {t : Token} (h : t ≠ .symbol s) (ts : List Token) :
    afterSymbol s (t :: ts) = .error ⟨.unexpected (.symbol s) t.kind, t :: ts⟩ := by
  cases t with
  | symbol s' =>
    have hs : s' ≠ s := fun e => h (by rw [e])
    rw [afterSymbol, symbol, if_neg hs]
    rfl
  | name x => rfl
  | number digits => rfl
  | illegal c => rfl
  | keyword k => rfl

theorem afterSymbol_extends {s : Symbol} (hs : s ≠ .semicolon) (h : Complete n ts) :
    ExtendsRest us (Complete ((Token.symbol s).depthAfter n)) (afterSymbol s ts)
      (afterSymbol s (ts ++ us)) := by
  obtain ⟨t, ts, rfl⟩ := List.exists_cons_of_ne_nil h.ne_nil
  by_cases ht : t = .symbol s
  · subst ht
    rw [List.cons_append, afterSymbol_self, afterSymbol_self]
    exact ⟨h.tail (by simpa using hs), rfl⟩
  · rw [List.cons_append, afterSymbol_of_ne ht, afterSymbol_of_ne ht]
    rfl

theorem readName_extends (h : Complete n ts) :
    ExtendsRead us (Complete n) (readName ts) (readName (ts ++ us)) := by
  obtain ⟨t, ts, rfl⟩ := List.exists_cons_of_ne_nil h.ne_nil
  cases t with
  | name x => exact ⟨h.tail (by simp), rfl⟩
  | number digits => rfl
  | illegal c => rfl
  | symbol s => rfl
  | keyword k => rfl

theorem afterTerminator_extends (h : Complete n ts) :
    ExtendsRest us (Remainder n) (afterTerminator ts) (afterTerminator (ts ++ us)) := by
  obtain ⟨t, ts, rfl⟩ := List.exists_cons_of_ne_nil h.ne_nil
  by_cases hs : t = .symbol .semicolon
  · subst hs
    exact ⟨h.after_semicolon, rfl⟩
  by_cases hb : t = .symbol .rbrace
  · subst hb
    exact ⟨.inr h, rfl⟩
  · have hfail : ∀ vs, afterTerminator (t :: vs) =
        .error ⟨.unexpected (.symbol .semicolon) t.kind, t :: vs⟩ := by
      intro vs
      rw [afterTerminator, terminator]
      · rfl
      · exact hs
      · exact hb
    rw [List.cons_append, hfail, hfail]
    rfl

theorem skipSemicolon_extends (h : Complete n ts) (us : List Token) :
    Remainder n (skipSemicolon ts) ∧ skipSemicolon (ts ++ us) = skipSemicolon ts ++ us := by
  obtain ⟨t, ts, rfl⟩ := List.exists_cons_of_ne_nil h.ne_nil
  by_cases hs : t = .symbol .semicolon
  · subst hs
    exact ⟨h.after_semicolon, rfl⟩
  · rw [skipSemicolon_of_ne (cons_ne hs ts), skipSemicolon_of_ne (cons_append_ne hs _ _)]
    exact ⟨.inr h, rfl⟩

theorem readMoreParams_extends (h : Complete n ts) :
    ExtendsRead us (Complete n) (readMoreParams ts) (readMoreParams (ts ++ us)) := by
  induction hn : ts.length using Nat.strongRecOn generalizing ts with
  | _ m ih =>
    subst hn
    obtain ⟨t, ts, rfl⟩ := List.exists_cons_of_ne_nil h.ne_nil
    by_cases hc : t = .symbol .comma
    · subst hc
      rw [List.cons_append, readMoreParams_comma, readMoreParams_comma]
      refine (readName_extends (h.tail (by simp))).bind fun ⟨x, r⟩ hx hr => ?_
      have hlt : r.length < ts.length := length_of_view hx
      exact (ih _ (Nat.lt_succ_of_lt hlt) hr rfl).bind fun p _ hp => ⟨hp, rfl⟩
    · rw [readMoreParams_of_ne (cons_ne hc ts), readMoreParams_of_ne (cons_append_ne hc _ _)]
      exact (afterSymbol_extends (by simp) h).bind fun r _ hr => ⟨hr, rfl⟩

theorem readParams_extends (h : Complete n ts) :
    ExtendsRead us (Complete n) (readParams ts) (readParams (ts ++ us)) := by
  obtain ⟨t, ts, rfl⟩ := List.exists_cons_of_ne_nil h.ne_nil
  by_cases hc : t = .symbol .rparen
  · subst hc
    rw [List.cons_append, readParams_rparen, readParams_rparen]
    exact ⟨h.tail (by simp), rfl⟩
  · rw [readParams_of_ne (cons_ne hc ts), readParams_of_ne (cons_append_ne hc _ _)]
    refine (readName_extends h).bind fun ⟨x, r⟩ _ hr => ?_
    exact (readMoreParams_extends hr).bind fun p _ hp => ⟨hp, rfl⟩

end Steps

theorem tighter_append {ts : List Token} (h : ts ≠ []) (level : Nat) (us : List Token) :
    tighter level (ts ++ us) = tighter level ts := by
  obtain ⟨t, ts, rfl⟩ := List.exists_cons_of_ne_nil h
  cases t with
  | symbol s => cases s <;> rfl
  | name x => rfl
  | number digits => rfl
  | illegal c => rfl
  | keyword k => rfl

theorem depthAfter_unary (op : UnaryOp) (n : Nat) :
    (Token.symbol op.symbol).depthAfter n = n := by cases op <;> rfl

theorem depthAfter_binary (op : BinaryOp) (n : Nat) :
    (Token.symbol op.symbol).depthAfter n = n := by cases op <;> rfl

/-- what is read from the tokens `ts`, if they are complete, is read too when `us` come behind -/
structure Extendable (us ts : List Token) : Prop where
  expr : ∀ {n}, Complete n ts → ∀ level,
    ExtendsRead us (Complete n) (readExpr level ts) (readExpr level (ts ++ us))
  operators : ∀ {n}, Complete n ts → ∀ level left,
    ExtendsRead us (Complete n) (readOperators level left ts) (readOperators level left (ts ++ us))
  moreArguments : ∀ {n}, Complete n ts →
    ExtendsRead us (Complete n) (readMoreArguments ts) (readMoreArguments (ts ++ us))
  arguments : ∀ {n}, Complete n ts →
    ExtendsRead us (Complete n) (readArguments ts) (readArguments (ts ++ us))
  alternative : ∀ {n}, Complete n ts → ∀ test body,
    ExtendsRead us (Complete n) (readAlternative test body ts)
      (readAlternative test body (ts ++ us))
  statement : ∀ {n}, Complete n ts →
    ExtendsRead us (Remainder n) (readStatement ts) (readStatement (ts ++ us))
  block : ∀ {n}, Complete (n + 1) ts →
    ExtendsRead us (Complete n) (readBlock ts) (readBlock (ts ++ us))

section
variable {us ts : List Token} {n : Nat}
  (ih : ∀ r : List Token, r.length < ts.length → Extendable us r) (h : Complete n ts)
include ih h

theorem readOperators_extends (level : Nat) (left : Expr) :
    ExtendsRead us (Complete n) (readOperators level left ts)
      (readOperators level left (ts ++ us)) := by
  cases hc : tighter level ts with
  | false =>
    have hc' : tighter level (ts ++ us) = false := (tighter_append h.ne_nil level us).trans hc
    rw [readOperators_of_not_tighter _ hc, readOperators_of_not_tighter _ hc']
    exact ⟨h, rfl⟩
  | true =>
    obtain ⟨vs, rfl⟩ | ⟨op, vs, rfl, hlt⟩ := tighter_cases hc
    · rw [List.cons_append, readOperators_lparen, readOperators_lparen]
      have hvs : Complete n vs := h.tail (by simp)
      refine ((ih vs (by simp)).arguments hvs).bind fun ⟨args, r⟩ hargs hr => ?_
      have hlt := length_readArguments hargs
      exact (ih r (by simp only [List.length_cons]; omega)).operators hr level _
    · rw [List.cons_append, readOperators_binary hlt, readOperators_binary hlt]
      have hvs : Complete n vs := depthAfter_binary op n ▸ h.tail (by cases op <;> decide)
      refine ((ih vs (by simp)).expr hvs _).bind fun ⟨right, r⟩ hright hr => ?_
      have hlt := length_readExpr hright
      exact (ih r (by simp only [List.length_cons]; omega)).operators hr level _

theorem readMoreArguments_extends :
    ExtendsRead us (Complete n) (readMoreArguments ts) (readMoreArguments (ts ++ us)) := by
  obtain ⟨t, vs, rfl⟩ := List.exists_cons_of_ne_nil h.ne_nil
  by_cases hc : t = .symbol .comma
  · subst hc
    rw [List.cons_append, readMoreArguments_comma, readMoreArguments_comma]
    have hvs : Complete n vs := h.tail (by simp)
    refine ((ih vs (by simp)).expr hvs 0).bind fun ⟨e, r⟩ he hr => ?_
    have hlt := length_readExpr he
    have hr' : r.length < (Token.symbol .comma :: vs).length := Nat.lt_succ_of_lt hlt
    exact ((ih r hr').moreArguments hr).bind fun p _ hp => ⟨hp, rfl⟩
  · rw [readMoreArguments_of_ne (cons_ne hc vs), readMoreArguments_of_ne (cons_append_ne hc _ _)]
    exact (afterSymbol_extends (by simp) h).bind fun r _ hr => ⟨hr, rfl⟩

theorem readAlternative_extends (test : Expr) (body : Block) :
    ExtendsRead us (Complete n) (readAlternative test body ts)
      (readAlternative test body (ts ++ us)) := by
  obtain ⟨t, vs, rfl⟩ := List.exists_cons_of_ne_nil h.ne_nil
  by_cases hc : t = .keyword .elseKw
  · subst hc
    rw [List.cons_append, readAlternative_else, readAlternative_else]
    have hvs : Complete n vs := h.tail (by simp)
    refine (afterSymbol_extends (by simp) hvs).bind fun r hr hbody => ?_
    obtain rfl := eq_of_afterSymbol hr
    exact ((ih r (by simp only [List.length_cons]; omega)).block hbody).bind fun p _ hp => ⟨hp, rfl⟩
  · rw [readAlternative_of_ne _ _ (cons_ne hc vs),
      readAlternative_of_ne _ _ (cons_append_ne hc _ _)]
    exact ⟨h, rfl⟩

omit ih h in
theorem readOperand_if_extends {vs : List Token}
    (ih : ∀ r : List Token, r.length < vs.length + 1 → Extendable us r)
    (h : Complete n (.keyword .ifKw :: vs)) :
    ExtendsRead us (Complete n) (readOperand (.keyword .ifKw :: vs))
      (readOperand (.keyword .ifKw :: (vs ++ us))) := by
  rw [readOperand_if, readOperand_if]
  have hvs : Complete n vs := h.tail (by simp)
  refine (afterSymbol_extends (by simp) hvs).bind fun r₁ h₁ hr₁ => ?_
  obtain rfl := eq_of_afterSymbol h₁
  simp only [List.length_cons] at ih
  refine ((ih r₁ (by omega)).expr hr₁ 0).bind fun ⟨test, r₂⟩ h₂ hr₂ => ?_
  have hlt₂ := length_readExpr h₂
  refine (afterSymbol_extends (by simp) hr₂).bind fun r₃ h₃ hr₃ => ?_
  obtain rfl := eq_of_afterSymbol h₃
  refine (afterSymbol_extends (by simp) hr₃).bind fun r₄ h₄ hr₄ => ?_
  obtain rfl := eq_of_afterSymbol h₄
  simp only [List.length_cons] at hlt₂
  -- the block is read with one more brace open
  refine ((ih r₄ (by omega)).block hr₄).bind fun ⟨body, r₅⟩ h₅ hr₅ => ?_
  have hlt₅ := length_readBlock h₅
  exact (ih r₅ (by omega)).alternative hr₅ test body

omit ih h in
theorem readOperand_fn_extends {vs : List Token}
    (ih : ∀ r : List Token, r.length < vs.length + 1 → Extendable us r)
    (h : Complete n (.keyword .fnKw :: vs)) :
    ExtendsRead us (Complete n) (readOperand (.keyword .fnKw :: vs))
      (readOperand (.keyword .fnKw :: (vs ++ us))) := by
  rw [readOperand_fn, readOperand_fn]
  have hvs : Complete n vs := h.tail (by simp)
  refine (afterSymbol_extends (by simp) hvs).bind fun r₁ h₁ hr₁ => ?_
  obtain rfl := eq_of_afterSymbol h₁
  simp only [List.length_cons] at ih
  refine (readParams_extends hr₁).bind fun ⟨xs, r₂⟩ h₂ hr₂ => ?_
  have hlt₂ := length_readParams h₂
  refine (afterSymbol_extends (by simp) hr₂).bind fun r₃ h₃ hr₃ => ?_
  obtain rfl := eq_of_afterSymbol h₃
  simp only [List.length_cons] at hlt₂
  exact ((ih r₃ (by omega)).block hr₃).bind fun p _ hp => ⟨hp, rfl⟩

theorem readOperand_extends :
    ExtendsRead us (Complete n) (readOperand ts) (readOperand (ts ++ us)) := by
  obtain ⟨t, vs, rfl⟩ := List.exists_cons_of_ne_nil h.ne_nil
  rw [List.cons_append]
  cases ht : startsExpr t with
  | false =>
    rw [readOperand_of_not_startsExpr ht, readOperand_of_not_startsExpr ht]
    rfl
  | true =>
    obtain ⟨x, rfl⟩ | ⟨digits, rfl⟩ | ⟨b, rfl⟩ | ⟨op, rfl⟩ | rfl | rfl | rfl :=
      startsExpr_cases ht
    · rw [readOperand_name, readOperand_name]
      exact ⟨h.tail (by simp), rfl⟩
    · cases hd : Integer.ofDigits? digits with
      | none =>
        rw [readOperand_tooLarge hd, readOperand_tooLarge hd]
        rfl
      | some m =>
        rw [readOperand_number hd, readOperand_number hd]
        exact ⟨h.tail (by simp), rfl⟩
    · rw [readOperand_bool, readOperand_bool]
      exact ⟨h.tail (by simp), rfl⟩
    · rw [readOperand_unary, readOperand_unary]
      have hvs : Complete n vs := depthAfter_unary op n ▸ h.tail (by cases op <;> decide)
      exact ((ih vs (by simp)).expr hvs _).bind fun p _ hp => ⟨hp, rfl⟩
    · rw [readOperand_lparen, readOperand_lparen]
      have hvs : Complete n vs := h.tail (by simp)
      refine ((ih vs (by simp)).expr hvs 0).bind fun ⟨e, r⟩ _ hr => ?_
      exact (afterSymbol_extends (by simp) hr).bind fun r _ hr => ⟨hr, rfl⟩
    · exact readOperand_if_extends ih h
    · exact readOperand_fn_extends ih h

theorem readExpr_extends (level : Nat) :
    ExtendsRead us (Complete n) (readExpr level ts) (readExpr level (ts ++ us)) := by
  rw [readExpr_eq, readExpr_eq]
  refine (readOperand_extends ih h).bind fun ⟨first, r⟩ hfirst hr => ?_
  exact (ih r (length_readOperand hfirst)).operators hr level first

theorem readArguments_extends :
    ExtendsRead us (Complete n) (readArguments ts) (readArguments (ts ++ us)) := by
  have hexpr := readExpr_extends ih h 0
  obtain ⟨t, vs, rfl⟩ := List.exists_cons_of_ne_nil h.ne_nil
  by_cases hc : t = .symbol .rparen
  · subst hc
    rw [List.cons_append, readArguments_rparen, readArguments_rparen]
    exact ⟨h.tail (by simp), rfl⟩
  · rw [readArguments_of_ne (cons_ne hc vs), readArguments_of_ne (cons_append_ne hc _ _)]
    refine hexpr.bind fun ⟨e, r⟩ he hr => ?_
    have hlt := length_readExpr he
    exact ((ih r hlt).moreArguments hr).bind fun p _ hp => ⟨hp, rfl⟩

theorem readStatement_extends :
    ExtendsRead us (Remainder n) (readStatement ts) (readStatement (ts ++ us)) := by
  have hexpr := readExpr_extends ih h 0
  obtain ⟨t, vs, rfl⟩ := List.exists_cons_of_ne_nil h.ne_nil
  by_cases hl : t = .keyword .letKw
  · subst hl
    rw [List.cons_append, readStatement_let, readStatement_let]
    have hvs : Complete n vs := h.tail (by simp)
    refine (readName_extends hvs).bind fun ⟨x, r₁⟩ h₁ hr₁ => ?_
    obtain rfl := eq_of_readName h₁
    refine (afterSymbol_extends (by simp) hr₁).bind fun r₂ h₂ hr₂ => ?_
    obtain rfl := eq_of_afterSymbol h₂
    refine ((ih r₂ (by simp only [List.length_cons]; omega)).expr hr₂ 0).bind ?_
    rintro ⟨e, r₃⟩ - hr₃
    exact (afterTerminator_extends hr₃).bind fun r _ hr => ⟨hr, rfl⟩
  by_cases hr : t = .keyword .returnKw
  · subst hr
    rw [List.cons_append, readStatement_return, readStatement_return]
    have hvs : Complete n vs := h.tail (by simp)
    refine ((ih vs (by simp)).expr hvs 0).bind fun ⟨e, r₁⟩ _ hr₁ => ?_
    exact (afterTerminator_extends hr₁).bind fun r _ hr => ⟨hr, rfl⟩
  · rw [readStatement_of_ne (cons_ne hl vs) (cons_ne hr vs),
      readStatement_of_ne (cons_append_ne hl _ _) (cons_append_ne hr _ _)]
    refine hexpr.bind fun ⟨e, r⟩ _ hr => ?_
    obtain ⟨hrest, heq⟩ := skipSemicolon_extends hr us
    exact ⟨hrest, congrArg (fun rest => Except.ok (Stmt.expr e, rest)) heq⟩

omit h in
theorem readBlock_extends (h : Complete (n + 1) ts) :
    ExtendsRead us (Complete n) (readBlock ts) (readBlock (ts ++ us)) := by
  have hstatement := readStatement_extends ih h
  obtain ⟨t, vs, rfl⟩ := List.exists_cons_of_ne_nil h.ne_nil
  by_cases hc : t = .symbol .rbrace
  · subst hc
    rw [List.cons_append, readBlock_rbrace, readBlock_rbrace]
    exact ⟨h.tail (by simp), rfl⟩
  · rw [readBlock_of_ne (by simp) (cons_ne hc vs),
      readBlock_of_ne (by simp) (cons_append_ne hc _ _)]
    refine hstatement.bind fun ⟨s, r⟩ hs hr => ?_
    have hlt := length_readStatement hs
    exact ((ih r hlt).block hr.inside).bind fun p _ hp => ⟨hp, rfl⟩

end

theorem extendable (us ts : List Token) : Extendable us ts := by
  induction hn : ts.length using Nat.strongRecOn generalizing ts with
  | _ m ih =>
    have ih' : ∀ r : List Token, r.length < ts.length → Extendable us r :=
      fun r hr => ih r.length (hn ▸ hr) r rfl
    exact {
      expr := fun h => readExpr_extends ih' h
      operators := fun h => readOperators_extends ih' h
      moreArguments := fun h => readMoreArguments_extends ih' h
      arguments := fun h => readArguments_extends ih' h
      alternative := fun h => readAlternative_extends ih' h
      statement := fun h => readStatement_extends ih' h
      block := fun h => readBlock_extends ih' h }

end Parser

/-! ## dropping broken statements -/

section Dropped
variable {n : Nat} {t : Token} {ts : List Token}

theorem continues_append (h : ts ≠ []) (us : List Token) : continues (ts ++ us) = continues ts := by
  obtain ⟨t, ts, rfl⟩ := List.exists_cons_of_ne_nil h
  cases t with
  | symbol s => cases s <;> rfl
  | keyword k => cases k <;> rfl
  | name x => rfl
  | number digits => rfl
  | illegal c => rfl

theorem endsDropped_append (h : ts ≠ [] ∨ t = .symbol .semicolon) (us : List Token) :
    endsDropped n t (ts ++ us) = endsDropped n t ts := by
  unfold endsDropped
  obtain h | rfl := h
  · rw [continues_append h]
  · simp

theorem afterDropped_append (h : ts ≠ [] ∨ t = .symbol .semicolon) (us : List Token) :
    afterDropped t (ts ++ us) = afterDropped t ts ++ us := by
  obtain h | rfl := h
  · obtain ⟨u, ts, rfl⟩ := List.exists_cons_of_ne_nil h
    by_cases hskip : t = .symbol .rbrace ∧ u = .symbol .semicolon
    · obtain ⟨rfl, rfl⟩ := hskip
      rfl
    · rw [List.cons_append, afterDropped, afterDropped]
      · rfl
      all_goals
        rintro rest rfl he
        exact hskip ⟨rfl, (List.cons.inj he).1⟩
  · rfl

theorem Remainder.afterDropped (h : Remainder 0 ts) (t : Token) :
    Remainder 0 (afterDropped t ts) := by
  unfold MonkeyLang.afterDropped
  split
  case h_1 rest =>
    obtain ⟨hnil, -⟩ | h := h
    · cases hnil
    · exact h.after_semicolon
  case h_2 => exact h

/-- the end of a dropped statement is found before the tokens `us` that come behind -/
theorem resume_append (read : Nat) (h : Complete n ts) (hread : read ≤ ts.length)
    (us : List Token) :
    resume read n (ts ++ us) = resume read n ts ++ us ∧ Remainder 0 (resume read n ts) := by
  induction ts generalizing read n with
  | nil => exact absurd rfl h.ne_nil
  | cons t ts ih =>
    obtain ⟨hleft, hlast⟩ := h.uncons
    rw [List.cons_append, resume, resume, endsDropped_append hlast]
    by_cases hend : read ≤ 1 ∧ endsDropped (t.depthAfter n) t ts = true
    · have hclosed : t.depthAfter n = 0 := by
        have hand := hend.2
        rw [endsDropped, Bool.and_eq_true] at hand
        exact beq_iff_eq.mp hand.1
      rw [hclosed] at hleft
      simp only [if_pos hend]
      exact ⟨afterDropped_append hlast us, hleft.afterDropped t⟩
    · simp only [if_neg hend]
      rcases hleft with ⟨rfl, hclosed⟩ | hleft
      · -- the last semicolon ends the statement at the latest
        obtain rfl : t = .symbol .semicolon := hlast.resolve_left fun hn => hn rfl
        exact absurd ⟨hread, by simp [endsDropped, hclosed]⟩ hend
      · have hread' : read - 1 ≤ ts.length := by
          rw [List.length_cons] at hread
          omega
        exact ih _ hleft hread'

end Dropped

/-! ## programs -/

namespace Program

/-- tokens that are complete are read as if nothing came behind them -/
theorem parse_append {ts : List Token} (h : Remainder 0 ts) (us : List Token) :
    parse (ts ++ us) =
      ⟨(parse ts).program ++ (parse us).program, (parse ts).errors ++ (parse us).errors⟩ := by
  induction hn : ts.length using Nat.strongRecOn generalizing ts with
  | _ m ih =>
    subst hn
    rcases h with ⟨rfl, -⟩ | h
    · rw [parse_nil]
      rfl
    · have hext := (Parser.extendable us ts).statement h
      obtain ⟨t, vs, rfl⟩ := List.exists_cons_of_ne_nil h.ne_nil
      cases hs : Parser.readStatement (t :: vs) with
      | ok p =>
        obtain ⟨s, r⟩ := p
        rw [hs] at hext
        obtain ⟨hr, hs'⟩ := hext
        have hlt := Parser.length_readStatement hs
        rw [parse_of_ok hs, parse_of_ok hs', ih r.length hlt hr rfl]
        rfl
      | error failure =>
        rw [hs] at hext
        have hs' : Parser.readStatement (t :: (vs ++ us)) = .error (failure.before us) := hext
        have hread : (t :: (vs ++ us)).length - (failure.before us).unread.length =
            (t :: vs).length - failure.unread.length := by
          simp only [Failure.before, List.length_append, List.length_cons]
          omega
        rw [List.cons_append, parse_of_error hs, parse_of_error hs', hread, ← List.cons_append]
        have hle : (t :: vs).length - failure.unread.length ≤ (t :: vs).length := Nat.sub_le _ _
        generalize (t :: vs).length - failure.unread.length = read at hle ⊢
        obtain ⟨hresume, hr⟩ := resume_append read h hle us
        have hlt : (resume read 0 (t :: vs)).length < (t :: vs).length :=
          Nat.lt_succ_of_le (length_resume_le read 0 t vs)
        rw [hresume, ih _ hlt hr rfl]
        rfl

theorem ofSource_of_ascii {source : String} (h : ∀ c ∈ source.toList, c.toNat < 128) :
    ofSource source = .ok (parse (tokens source.toList)) := by
  rw [ofSource, tokenize_of_ascii h]
  rfl

theorem parse_tokens_append {a b : String} (h : Complete 0 (tokens a.toList)) :
    parse (tokens (a ++ b).toList) =
      ⟨(parse (tokens a.toList)).program ++ (parse (tokens b.toList)).program,
        (parse (tokens a.toList)).errors ++ (parse (tokens b.toList)).errors⟩ := by
  rw [String.toList_append, tokens_append h.last, parse_append (.inr h)]

/-- **A text that ends with a semicolon outside all blocks is read by itself, whatever text comes
after it, and whatever is wrong in either of them.** -/
theorem reads_joined_texts (a b : String) (ha : ∀ c ∈ a.toList, c.toNat < 128)
    (hb : ∀ c ∈ b.toList, c.toNat < 128) (h : Complete 0 (tokens a.toList)) :
    ∃ p q, ofSource a = .ok p ∧ ofSource b = .ok q ∧
      ofSource (a ++ b) = .ok ⟨p.program ++ q.program, p.errors ++ q.errors⟩ := by
  have hab : ∀ c ∈ (a ++ b).toList, c.toNat < 128 := by
    rw [String.toList_append]
    exact List.forall_mem_append.mpr ⟨ha, hb⟩
  refine ⟨_, _, ofSource_of_ascii ha, ofSource_of_ascii hb, ?_⟩
  rw [ofSource_of_ascii hab, parse_tokens_append h]

/-- a broken statement with a block in it, then a good one, before a text with nothing but a broken
statement -/
theorem reads_joined_texts_broken :
    let a := "let = \x7b 1 ; \x7d ; x ;"
    let b := "( y"
    let e : SyntaxError := .unexpected .name (.symbol .assign)
    let e' : SyntaxError := .unexpected (.symbol .rparen) .eof
    (∀ c ∈ a.toList, c.toNat < 128) ∧ (∀ c ∈ b.toList, c.toNat < 128) ∧
      Complete 0 (tokens a.toList) ∧ ofSource a = .ok ⟨[.expr (.name "x")], [e]⟩ ∧
      ofSource b = .ok ⟨[], [e']⟩ ∧ ofSource (a ++ b) = .ok ⟨[.expr (.name "x")], [e, e']⟩ := by
  intro a b e e'
  have ha : ∀ c ∈ a.toList, c.toNat < 128 := by simp [a]
  have hb : ∀ c ∈ b.toList, c.toNat < 128 := by simp [b]
  have h : Complete 0 (tokens a.toList) := ⟨by decide +kernel, by decide +kernel⟩
  have hreada : ofSource a = .ok ⟨[.expr (.name "x")], [e]⟩ := by
    rw [ofSource_of_ascii ha]
    exact congrArg Except.ok (by decide +kernel)
  have hreadb : ofSource b = .ok ⟨[], [e']⟩ := by
    rw [ofSource_of_ascii hb]
    exact congrArg Except.ok (by decide +kernel)
  obtain ⟨p, q, hp, hq, hjoined⟩ := reads_joined_texts a b ha hb h
  cases hreada.symm.trans hp
  cases hreadb.symm.trans hq
  exact ⟨ha, hb, h, hreada, hreadb, hjoined⟩

end Program

end MonkeyLang
