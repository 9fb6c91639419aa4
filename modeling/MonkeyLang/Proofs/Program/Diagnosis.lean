import MonkeyLang.Proofs.Program.Completion

/-!
# Which token the first error names

* `marked ts`             the tokens with a mark for the end of the text;
* `SyntaxError.Names`     the token, or the end, that an error speaks of;
* `Viable w`              some text without errors starts with the tokens `w`;
* `Offends e w rest`      what stands before `rest` can be completed to a program, nothing that goes
                          on like `rest` is one, and the error `e` speaks of this token;
* `exists_offends`        so it is with the first error of every list of tokens.
-/

namespace MonkeyLang
open MonkeyLang.Parser

/-! ## tokens and the end of the text -/

/-- the tokens, and `none` for the end -/
def marked (ts : List Token) : List (Option Token) := ts.map some ++ [none]

def Kind.ofMark : Option Token → Kind
  | none => .eof
  | some t => t.kind

/-- the error speaks of a token of this kind, or of this number -/
def SyntaxError.Names (t : Option Token) : SyntaxError → Prop
  | .unexpected _ actual => actual = .ofMark t
  | .noExpression found => found = .ofMark t
  | .tooLarge digits => t = some (.number digits)

section Marked
variable {w rest ts : List Token}

theorem marked_append (w rest : List Token) : marked (w ++ rest) = w.map some ++ marked rest := by
  rw [marked, marked, List.map_append, List.append_assoc]

theorem head?_marked (ts : List Token) : (marked ts).head? = some ts.head? := by cases ts <;> rfl

theorem take_marked (w rest : List Token) : (marked (w ++ rest)).take w.length = w.map some := by
  rw [marked_append]
  exact List.take_left' (List.length_map _)

theorem getElem?_marked (w rest : List Token) :
    (marked (w ++ rest))[w.length]? = some rest.head? := by
  rw [marked_append, List.getElem?_append_right (by simp), List.length_map, Nat.sub_self,
    ← List.head?_eq_getElem?, head?_marked]

/-- a text that has the tokens `w` and then the same token as another -/
theorem of_prefix_marked {t : Option Token} (h : w.map some ++ [t] <+: marked ts) :
    ∃ rest, ts = w ++ rest ∧ rest.head? = t := by
  induction w generalizing ts with
  | nil =>
    obtain ⟨us, hus⟩ := h
    have hhead := congrArg List.head? hus
    rw [head?_marked] at hhead
    exact ⟨ts, rfl, (Option.some.inj hhead).symm⟩
  | cons u w ih =>
    cases ts with
    | nil =>
      have hu := (List.cons_prefix_cons.mp h).1
      cases hu
    | cons v ts =>
      obtain ⟨huv, hprefix⟩ := List.cons_prefix_cons.mp h
      obtain ⟨rest, rfl, hrest⟩ := ih hprefix
      exact ⟨rest, by rw [Option.some.inj huv]; rfl, hrest⟩

end Marked

/-! ## where a failure is -/

theorem Failure.At.names {f : Failure} {rest : List Token} (h : f.At rest) :
    f.error.Names rest.head? := by
  cases h with
  | unexpected expected => cases rest <;> rfl
  | noExpression => cases rest <;> rfl
  | tooLarge digits rest => rfl

/-- how many tokens there are from the one at which the failure is -/
def Failure.ahead (f : Failure) : Nat :=
  match f.error with
  | .unexpected _ _ => f.unread.length
  | .noExpression found => if found = .eof then 0 else f.unread.length + 1
  | .tooLarge _ => f.unread.length + 1

theorem Failure.At.length {f : Failure} {rest : List Token} (h : f.At rest) :
    rest.length = f.ahead := by
  cases h with
  | unexpected expected => rfl
  | noExpression =>
    cases rest with
    | nil => rfl
    | cons t us => cases t <;> rfl
  | tooLarge digits rest => rfl

/-! ## the first error -/

/-- the tokens `w` are the start of a program, and with the first of `rest` after them they are not;
of this token the error speaks -/
structure Offends (e : SyntaxError) (w rest : List Token) : Prop where
  names : e.Names rest.head?
  completable : InRange w ∧ ∃ v, Filler v ∧ Derives .statements (w ++ v)
  hopeless : ∀ rest', rest'.head? = rest.head? → (Program.parse (w ++ rest')).errors ≠ []

theorem offends_of_readStatement {t : Token} {us : List Token} {f : Failure}
    (h : readStatement (t :: us) = .error f) :
    ∃ w rest, t :: us = w ++ rest ∧ Offends f.error w rest := by
  obtain ⟨w, rest, v, heq, hat, hw, hv, hderives⟩ := statement_completable h
  obtain ⟨w', rest', heq', hat', hfail⟩ := (statement_looksAhead _).of_error h
  have hlength : rest.length = rest'.length := hat.length.trans hat'.length.symm
  obtain ⟨rfl, rfl⟩ := List.append_inj' (heq.symm.trans heq') hlength
  refine ⟨w, rest, heq, hat.names, ⟨hw, v, hv, .lastStatement hderives⟩, fun r hr => ?_⟩
  have hhead : (w ++ r).head? = some t := by
    rw [List.head?_append, hr, ← List.head?_append, ← heq]
    rfl
  obtain ⟨us', hus⟩ := List.head?_eq_some_iff.mp hhead
  obtain ⟨f', hf⟩ := hfail r hr
  rw [hus] at hf ⊢
  rw [Program.parse_of_error hf]
  exact List.cons_ne_nil _ _

/-- a statement before it that can be read changes nothing -/
theorem Offends.after {e : SyntaxError} {w₀ w rest : List Token} {s : Stmt} (h : Offends e w rest)
    (hs : readStatement (w₀ ++ (w ++ rest)) = .ok (s, w ++ rest)) : Offends e (w₀ ++ w) rest where
  names := h.names
  completable := by
    obtain ⟨hrange, v, hv, hderives⟩ := h.completable
    obtain ⟨ended, ⟨u, hu, hstatement, hru⟩, hended⟩ := statement_spans (after_eq_ok.mpr ⟨s, hs⟩)
    obtain rfl := List.append_cancel_right hu
    refine ⟨inRange_append.mpr ⟨hru, hrange⟩, ?_⟩
    cases w with
    | nil => exact ⟨[], filler_nil, by simpa using Derives.lastStatement hstatement⟩
    | cons t w =>
      have hsame : SameNext (t :: w ++ rest) (t :: w ++ v) := .inr rfl
      have hend : ended = false → AtEnd (t :: w ++ v) := fun he => hsame.atEnd (hended he)
      have hspans : Spans (.statement ended) (w₀ ++ (t :: w ++ v)) (t :: w ++ v) :=
        ⟨w₀, rfl, hstatement, hru⟩
      have hmore : Spans .statements (t :: w ++ v) [] :=
        ⟨_, (List.append_nil _).symm, hderives, inRange_append.mpr ⟨hrange, hv.2⟩⟩
      obtain ⟨all, hall, hderives, -⟩ := hspans.cons hend hmore (.inl rfl)
      rw [List.append_nil] at hall
      refine ⟨v, hv, ?_⟩
      rw [List.append_assoc, hall]
      exact hderives
  hopeless := by
    intro r hr
    obtain ⟨u, hu, hsame⟩ := (statement_looksAhead _).of_ok hs
    obtain rfl := List.append_cancel_right hu
    have hread := hsame (w ++ r) (SameNext.append (.inr hr) w)
    rw [List.append_assoc, Program.parse_of_ok hread]
    exact h.hopeless r hr

theorem exists_offends {ts : List Token} {e : SyntaxError} {es : List SyntaxError}
    (h : (Program.parse ts).errors = e :: es) : ∃ w rest, ts = w ++ rest ∧ Offends e w rest := by
  induction hn : ts.length using Nat.strongRecOn generalizing ts with
  | _ n ih =>
    subst hn
    cases ts with
    | nil =>
      rw [Program.parse_nil] at h
      cases h
    | cons t us =>
      cases hs : readStatement (t :: us) with
      | error f =>
        rw [Program.parse_of_error hs] at h
        obtain rfl : f.error = e := (List.cons.inj h).1
        exact offends_of_readStatement hs
      | ok p =>
        obtain ⟨s, r⟩ := p
        rw [Program.parse_of_ok hs] at h
        obtain ⟨w, rest, rfl, hoffends⟩ := ih _ (length_readStatement hs) h rfl
        obtain ⟨w₀, hw₀, -⟩ := (statement_looksAhead _).of_ok hs
        rw [hw₀] at hs ⊢
        exact ⟨w₀ ++ w, rest, (List.append_assoc ..).symm, hoffends.after hs⟩

/-! ## viable tokens -/

/-- some text that is read without an error has these tokens at its start -/
def Viable (w : List (Option Token)) : Prop :=
  ∃ source parsed, Program.ofSource source = .ok parsed ∧ parsed.errors = [] ∧
    w <+: marked (tokens source.toList)

theorem Program.eq_of_ofSource {source : String} {parsed : ParsedProgram}
    (h : ofSource source = .ok parsed) : parsed = parse (MonkeyLang.tokens source.toList) := by
  unfold ofSource tokenize at h
  cases hf : firstUnsupported 0 source.toList with
  | none =>
    rw [hf] at h
    exact (Except.ok.inj h).symm
  | some e =>
    rw [hf] at h
    cases h

theorem Offends.viable {e : SyntaxError} {w rest : List Token} (h : Offends e w rest)
    (hspelled : WellSpelled w) : Viable (w.map some) := by
  obtain ⟨hw, v, hv, hderives⟩ := h.completable
  have hall : WellSpelled (w ++ v) := wellSpelled_append.mpr ⟨hspelled, hv.1⟩
  refine ⟨spaced (w ++ v), _, Program.ofSource_of_ascii (ascii_of_mem_spaced hall), ?_, ?_⟩
  · rw [tokens_spaced hall, Program.errors_eq_nil_iff]
    exact ⟨hderives, inRange_append.mpr ⟨hw, hv.2⟩⟩
  · rw [tokens_spaced hall, marked_append]
    exact List.prefix_append _ _

/-- the longer start has the wrong token in it -/
theorem Offends.length_le {e : SyntaxError} {w rest : List Token} (h : Offends e w rest) {j : Nat}
    (hj : Viable ((marked (w ++ rest)).take j)) : j ≤ w.length := by
  refine Nat.le_of_not_lt fun hlt => ?_
  obtain ⟨source, parsed, hsource, herrors, hprefix⟩ := hj
  have htake : (marked (w ++ rest)).take (w.length + 1) = w.map some ++ [rest.head?] := by
    rw [List.take_add_one, take_marked, getElem?_marked]
    rfl
  have hwrong : w.map some ++ [rest.head?] <+: marked (tokens source.toList) := by
    rw [← htake]
    exact (List.take_prefix_take_left hlt).trans hprefix
  obtain ⟨r, hr, hhead⟩ := of_prefix_marked hwrong
  rw [Program.eq_of_ofSource hsource, hr] at herrors
  exact h.hopeless r hhead herrors

namespace Program

/-- **The first error names the first token that is wrong.**  The tokens before the one it names,
which may be the end, are the longest start of the text with which a text without errors starts. -/
theorem first_error_names_first_wrong_token (source : String)
    (hascii : ∀ c ∈ source.toList, c.toNat < 128) :
    ∃ parsed, ofSource source = .ok parsed ∧ ∀ e es, parsed.errors = e :: es →
      ∃ k t, (marked (MonkeyLang.tokens source.toList))[k]? = some t ∧ e.Names t ∧
        Viable ((marked (MonkeyLang.tokens source.toList)).take k) ∧
          ∀ j, Viable ((marked (MonkeyLang.tokens source.toList)).take j) → j ≤ k := by
  refine ⟨_, ofSource_of_ascii hascii, fun e es herrors => ?_⟩
  have hspelled := wellSpelled_tokens hascii
  obtain ⟨w, rest, hts, hoffends⟩ := exists_offends herrors
  rw [hts] at hspelled ⊢
  refine ⟨w.length, rest.head?, getElem?_marked w rest, hoffends.names, ?_, ?_⟩
  · rw [take_marked]
    exact hoffends.viable (wellSpelled_append.mp hspelled).1
  · exact fun j hj => hoffends.length_le hj

/-- a call that is not closed after a good statement: the error names the end of the text -/
theorem first_error_names_end :
    let source := "a ; f ( x"
    (∀ c ∈ source.toList, c.toNat < 128) ∧
      ∃ parsed, ofSource source = .ok parsed ∧
        parsed.errors = [.unexpected (.symbol .rparen) .eof] ∧
          ∃ k t, (marked (MonkeyLang.tokens source.toList))[k]? = some t ∧
            (SyntaxError.unexpected (.symbol .rparen) .eof).Names t ∧
              Viable ((marked (MonkeyLang.tokens source.toList)).take k) ∧
                ∀ j, Viable ((marked (MonkeyLang.tokens source.toList)).take j) → j ≤ k := by
  intro source
  have hascii : ∀ c ∈ source.toList, c.toNat < 128 := by simp [source]
  have ha : IsName "a" := ⟨by decide, by simp [isLetter], by decide⟩
  have hf : IsName "f" := ⟨by decide, by simp [isLetter], by decide⟩
  have hx : IsName "x" := ⟨by decide, by simp [isLetter], by decide⟩
  let ts : List Token := [.name "a", .symbol .semicolon, .name "f", .symbol .lparen, .name "x"]
  have htokens : MonkeyLang.tokens source.toList = ts := by
    have htext : source = spaced ts := by decide
    rw [htext, tokens_spaced (by simp [ts, ha, hf, hx])]
  obtain ⟨parsed, hparsed, hfirst⟩ := first_error_names_first_wrong_token source hascii
  have herrors : parsed.errors = [.unexpected (.symbol .rparen) .eof] := by
    rw [eq_of_ofSource hparsed, htokens]
    decide +kernel
  exact ⟨hascii, parsed, hparsed, herrors, hfirst _ _ herrors⟩

end Program

end MonkeyLang
