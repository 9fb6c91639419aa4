import MonkeyLang.Integer
import MonkeyLang.Token.Lexer

/-!
# Spelling tokens

* `IsName x`               letters only, and no keyword;
* `Token.WellSpelled`      the token is one that a text can hold;
* `Token.EndsBefore t cs`  the token does not go on into `cs`;
* `nextLexeme_text`        a token is read back from its spelling, where it ends before the rest
                           of the text;
* `tokens_append`          after a semicolon the tokens of another text are read by themselves;
* `Integer.ofDigits?_text` an integer that is not negative is read back from its numeral;
* `wellSpelled_tokens`     the tokens of a text are well spelled;
* `spaced ts`              the tokens with one space between two of them;
* `tokenize_spaced`        such a text holds just these tokens.
-/

namespace MonkeyLang

/-! ## classes of characters -/

theorem isDigit_iff (c : Char) : c.isDigit = true ↔ 48 ≤ c.toNat ∧ c.toNat ≤ 57 :=
  Bool.and_eq_true_iff.trans (and_congr decide_eq_true_iff decide_eq_true_iff)

theorem isLetter_iff (c : Char) :
    isLetter c = true ↔
      65 ≤ c.toNat ∧ c.toNat ≤ 90 ∨ 97 ≤ c.toNat ∧ c.toNat ≤ 122 ∨ c.toNat = 95 := by
  have halpha : c.isAlpha = true ↔ c.isUpper = true ∨ c.isLower = true := Bool.or_eq_true_iff
  have hupper : c.isUpper = true ↔ 65 ≤ c.toNat ∧ c.toNat ≤ 90 := decide_eq_true_iff
  have hlower : c.isLower = true ↔ 97 ≤ c.toNat ∧ c.toNat ≤ 122 :=
    Bool.and_eq_true_iff.trans (and_congr decide_eq_true_iff decide_eq_true_iff)
  have hline : (c == '_') = true ↔ c.toNat = 95 := by
    rw [beq_iff_eq, ← Char.toNat_inj]
    exact Iff.rfl
  rw [isLetter, Bool.or_eq_true_iff, halpha, hupper, hlower, hline, or_assoc]

theorem isLayout_iff (c : Char) :
    isLayout c = true ↔ c.toNat = 32 ∨ c.toNat = 9 ∨ c.toNat = 13 ∨ c.toNat = 10 := by
  simp only [isLayout, Bool.or_eq_true, beq_iff_eq, ← Char.toNat_inj, or_assoc]
  exact Iff.rfl

theorem ofChar?_of_letter {c : Char} (h : isLetter c = true) : Symbol.ofChar? c = none := by
  unfold Symbol.ofChar?
  split
  case h_15 => rfl
  all_goals cases h

theorem ofChar?_of_digit {c : Char} (h : c.isDigit = true) : Symbol.ofChar? c = none := by
  unfold Symbol.ofChar?
  split
  case h_15 => rfl
  all_goals cases h

theorem not_layout_of_letter {c : Char} (h : isLetter c = true) : isLayout c = false := by
  rw [isLetter_iff] at h
  rw [Bool.eq_false_iff, Ne, isLayout_iff]
  omega

theorem not_layout_of_digit {c : Char} (h : c.isDigit = true) : isLayout c = false := by
  rw [isDigit_iff] at h
  rw [Bool.eq_false_iff, Ne, isLayout_iff]
  omega

theorem not_letter_of_digit {c : Char} (h : c.isDigit = true) : isLetter c = false := by
  rw [isDigit_iff] at h
  rw [Bool.eq_false_iff, Ne, isLetter_iff]
  omega

theorem not_letter_of_layout {c : Char} (h : isLayout c = true) : isLetter c = false := by
  rw [isLayout_iff] at h
  rw [Bool.eq_false_iff, Ne, isLetter_iff]
  omega

theorem not_digit_of_layout {c : Char} (h : isLayout c = true) : c.isDigit = false := by
  rw [isLayout_iff] at h
  rw [Bool.eq_false_iff, Ne, isDigit_iff]
  omega

/-! ## well-spelled tokens -/

/-- letters, at least one of them, that spell no keyword -/
structure IsName (x : String) : Prop where
  ne_nil : x.toList ≠ []
  letters : ∀ c ∈ x.toList, isLetter c = true
  not_keyword : Keyword.ofText? x = none

/-- digits, at least one of them -/
structure IsNumber (digits : String) : Prop where
  ne_nil : digits.toList ≠ []
  digits : ∀ c ∈ digits.toList, c.isDigit = true

/-- a character with which nothing starts -/
structure IsIllegal (c : Char) : Prop where
  ascii : c.toNat < 128
  not_layout : isLayout c = false
  not_symbol : Symbol.ofChar? c = none
  not_letter : isLetter c = false
  not_digit : c.isDigit = false

/-- the text of the token is one that is read as this token -/
def Token.WellSpelled : Token → Prop
  | .name x => IsName x
  | .number digits => IsNumber digits
  | .illegal c => IsIllegal c
  | .symbol _ | .keyword _ => True

def WellSpelled (ts : List Token) : Prop := ∀ t ∈ ts, t.WellSpelled

@[simp] theorem Token.wellSpelled_name {x : String} :
    (Token.name x).WellSpelled ↔ IsName x := Iff.rfl
@[simp] theorem Token.wellSpelled_number {digits : String} :
    (Token.number digits).WellSpelled ↔ IsNumber digits := Iff.rfl
@[simp] theorem Token.wellSpelled_symbol (s : Symbol) : (Token.symbol s).WellSpelled := trivial
@[simp] theorem Token.wellSpelled_keyword (k : Keyword) : (Token.keyword k).WellSpelled := trivial

@[simp] theorem wellSpelled_nil : WellSpelled [] := by simp [WellSpelled]

@[simp] theorem wellSpelled_cons {t : Token} {ts : List Token} :
    WellSpelled (t :: ts) ↔ t.WellSpelled ∧ WellSpelled ts := List.forall_mem_cons

@[simp] theorem wellSpelled_append {ts us : List Token} :
    WellSpelled (ts ++ us) ↔ WellSpelled ts ∧ WellSpelled us := List.forall_mem_append

/-- what follows does not make the token longer -/
def Token.EndsBefore : Token → List Char → Prop
  | .name _, rest | .keyword _, rest => ∀ c ∈ rest.head?, isLetter c = false
  | .number _, rest => ∀ c ∈ rest.head?, c.isDigit = false
  | .symbol .assign, rest | .symbol .bang, rest => rest.head? ≠ some '='
  | _, _ => True

theorem Token.endsBefore_nil (t : Token) : t.EndsBefore [] := by
  unfold EndsBefore
  split <;> simp

theorem Token.endsBefore_layout (t : Token) {c : Char} (h : isLayout c = true) (cs : List Char) :
    t.EndsBefore (c :: cs) := by
  unfold EndsBefore
  split
  case h_1 | h_2 => simpa using not_letter_of_layout h
  case h_3 => simpa using not_digit_of_layout h
  case h_4 | h_5 =>
    rintro ⟨⟩
    cases h
  case h_6 => trivial

/-! ## reading them back -/

theorem takeWhile_word {p : Char → Bool} {cs rest : List Char} (h : ∀ c ∈ cs, p c = true)
    (hr : ∀ c ∈ rest.head?, p c = false) :
    (cs ++ rest).takeWhile p = cs ∧ (cs ++ rest).dropWhile p = rest := by
  rw [List.takeWhile_append_of_pos h, List.dropWhile_append_of_pos h]
  cases rest with
  | nil => simp
  | cons c rest =>
    have hc : p c = false := hr c rfl
    simp [hc]

theorem lexeme_of_symbol {c : Char} {s : Symbol} {rest : List Char}
    (h : Symbol.ofChar? c = some s) (hr : c = '=' ∨ c = '!' → rest.head? ≠ some '=') :
    lexeme c rest = (.symbol s, rest) := by
  unfold lexeme
  split
  case h_1 => exact absurd rfl (hr (.inl rfl))
  case h_2 => exact absurd rfl (hr (.inr rfl))
  case h_3 => rw [h]

theorem lexeme_of_letter {c : Char} (h : isLetter c = true) (cs : List Char) :
    lexeme c cs =
      (.ofWord (String.ofList (c :: cs.takeWhile isLetter)), cs.dropWhile isLetter) := by
  unfold lexeme
  split
  case h_1 | h_2 => cases h
  case h_3 => rw [ofChar?_of_letter h, if_pos h]

theorem lexeme_of_digit {c : Char} (h : c.isDigit = true) (cs : List Char) :
    lexeme c cs =
      (.number (String.ofList (c :: cs.takeWhile Char.isDigit)), cs.dropWhile Char.isDigit) := by
  unfold lexeme
  split
  case h_1 | h_2 => cases h
  case h_3 => simp [ofChar?_of_digit h, not_letter_of_digit h, h]

theorem lexeme_of_other {c : Char} (hs : Symbol.ofChar? c = none) (hl : isLetter c = false)
    (hd : c.isDigit = false) (cs : List Char) : lexeme c cs = (.illegal c, cs) := by
  unfold lexeme
  split
  case h_1 | h_2 => cases hs
  case h_3 => simp [hs, hl, hd]

theorem nextLexeme_word {x : String} {rest : List Char} (hn : x.toList ≠ [])
    (h : ∀ c ∈ x.toList, isLetter c = true) (hr : ∀ c ∈ rest.head?, isLetter c = false) :
    nextLexeme (x.toList ++ rest) = some (.ofWord x, rest) := by
  cases hx : x.toList with
  | nil => exact absurd hx hn
  | cons c cs =>
    rw [hx] at h
    have hc : isLetter c = true := h c List.mem_cons_self
    obtain ⟨htake, hdrop⟩ := takeWhile_word (fun c hc => h c (List.mem_cons_of_mem _ hc)) hr
    rw [List.cons_append, nextLexeme, if_neg (by simp [not_layout_of_letter hc]),
      lexeme_of_letter hc, htake, hdrop, ← hx, String.ofList_toList]

theorem nextLexeme_number {digits : String} {rest : List Char} (h : IsNumber digits)
    (hr : ∀ c ∈ rest.head?, c.isDigit = false) :
    nextLexeme (digits.toList ++ rest) = some (.number digits, rest) := by
  obtain ⟨hn, h⟩ := h
  cases hx : digits.toList with
  | nil => exact absurd hx hn
  | cons c cs =>
    rw [hx] at h
    have hc : c.isDigit = true := h c List.mem_cons_self
    obtain ⟨htake, hdrop⟩ := takeWhile_word (fun c hc => h c (List.mem_cons_of_mem _ hc)) hr
    rw [List.cons_append, nextLexeme, if_neg (by simp [not_layout_of_digit hc]),
      lexeme_of_digit hc, htake, hdrop, ← hx, String.ofList_toList]

theorem nextLexeme_symbol {s : Symbol} {rest : List Char}
    (hr : (Token.symbol s).EndsBefore rest) :
    nextLexeme (s.text.toList ++ rest) = some (.symbol s, rest) := by
  cases s with
  | assign =>
    show some (lexeme '=' rest) = _
    rw [lexeme_of_symbol rfl fun _ => hr]
  | bang =>
    show some (lexeme '!' rest) = _
    rw [lexeme_of_symbol rfl fun _ => hr]
  | _ => rfl

theorem nextLexeme_illegal {c : Char} (h : IsIllegal c) (rest : List Char) :
    nextLexeme ((Token.illegal c).text.toList ++ rest) = some (.illegal c, rest) := by
  have hlexeme := lexeme_of_other h.not_symbol h.not_letter h.not_digit rest
  simp [Token.text, nextLexeme, h.not_layout, hlexeme]

theorem Keyword.isLetter_of_mem_text (k : Keyword) : ∀ c ∈ k.text.toList, isLetter c = true := by
  rw [← List.all_eq_true]
  cases k <;> rfl

theorem nextLexeme_text {t : Token} {rest : List Char} (h : t.WellSpelled)
    (hr : t.EndsBefore rest) : nextLexeme (t.text.toList ++ rest) = some (t, rest) := by
  cases t with
  | name x =>
    have hword := nextLexeme_word h.ne_nil h.letters hr
    rw [Token.ofWord, h.not_keyword] at hword
    exact hword
  | number digits => exact nextLexeme_number h hr
  | illegal c => exact nextLexeme_illegal h rest
  | symbol s => exact nextLexeme_symbol hr
  | keyword k =>
    have hn : k.text.toList ≠ [] := by cases k <;> decide
    have hword := nextLexeme_word hn k.isLetter_of_mem_text hr
    rw [Token.ofWord, Keyword.ofText?_text] at hword
    exact hword

theorem tokens_layout {c : Char} (h : isLayout c = true) (cs : List Char) :
    tokens (c :: cs) = tokens cs := by
  have hskip : nextLexeme (c :: cs) = nextLexeme cs := by rw [nextLexeme, if_pos h]
  cases hn : nextLexeme cs with
  | none => rw [tokens_of_none hn, tokens_of_none (hskip.trans hn)]
  | some p => rw [tokens_of_some hn, tokens_of_some (hskip.trans hn)]

/-! ## one text after the other -/

theorem takeWhile_append_of_rest {p : Char → Bool} {cs : List Char} (h : cs.dropWhile p ≠ [])
    (ds : List Char) :
    (cs ++ ds).takeWhile p = cs.takeWhile p ∧ (cs ++ ds).dropWhile p = cs.dropWhile p ++ ds := by
  have hlen : (cs.takeWhile p).length ≠ cs.length := by
    intro he
    have hsum := congrArg List.length (List.takeWhile_append_dropWhile (p := p) (l := cs))
    rw [List.length_append, he] at hsum
    exact h (List.eq_nil_of_length_eq_zero (by omega))
  rw [List.takeWhile_append, if_neg hlen, List.dropWhile_append, if_neg (by simpa using h)]
  exact ⟨rfl, rfl⟩

/-- a token that ends before the end of its text, or that nothing makes longer, is read the same
whatever comes after the text -/
theorem lexeme_append {c : Char} {cs rest : List Char} {t : Token} (h : lexeme c cs = (t, rest))
    (hend : rest ≠ [] ∨ t = .symbol .semicolon) (ds : List Char) :
    lexeme c (cs ++ ds) = (t, rest ++ ds) := by
  by_cases hpair : (c = '=' ∨ c = '!') ∧ cs.head? = some '='
  · obtain ⟨hc, hcs⟩ := hpair
    obtain ⟨cs, rfl⟩ := List.head?_eq_some_iff.mp hcs
    obtain rfl | rfl := hc
    · cases h
      rfl
    · cases h
      rfl
  cases hs : Symbol.ofChar? c with
  | some s =>
    have hone : lexeme c cs = (.symbol s, cs) :=
      lexeme_of_symbol hs fun hc hcs => hpair ⟨hc, hcs⟩
    rw [hone] at h
    cases h
    refine lexeme_of_symbol hs fun hc => ?_
    cases cs with
    | nil =>
      -- the symbol stands at the end, so it is a semicolon
      have hs' : s = .semicolon := Token.symbol.inj (hend.resolve_left fun hn => hn rfl)
      obtain rfl | rfl := hc <;> cases hs <;> cases hs'
    | cons d cs => exact fun hd => hpair ⟨hc, hd⟩
  | none =>
    cases hl : isLetter c with
    | true =>
      rw [lexeme_of_letter hl] at h ⊢
      cases h
      have hrest : cs.dropWhile isLetter ≠ [] := hend.resolve_right (by
        unfold Token.ofWord
        split <;> simp)
      obtain ⟨htake, hdrop⟩ := takeWhile_append_of_rest hrest ds
      rw [htake, hdrop]
    | false =>
      cases hd : c.isDigit with
      | true =>
        rw [lexeme_of_digit hd] at h ⊢
        cases h
        obtain ⟨htake, hdrop⟩ := takeWhile_append_of_rest (hend.resolve_right (by simp)) ds
        rw [htake, hdrop]
      | false =>
        rw [lexeme_of_other hs hl hd] at h ⊢
        cases h
        rfl

theorem nextLexeme_append {cs rest : List Char} {t : Token} (h : nextLexeme cs = some (t, rest))
    (hend : rest ≠ [] ∨ t = .symbol .semicolon) (ds : List Char) :
    nextLexeme (cs ++ ds) = some (t, rest ++ ds) := by
  induction cs with
  | nil => cases h
  | cons c cs ih =>
    rw [nextLexeme] at h
    rw [List.cons_append, nextLexeme]
    split at h
    · rw [if_pos ‹_›]
      exact ih h
    · rw [if_neg ‹_›, lexeme_append (Option.some.inj h) hend]

theorem tokens_append_of_none {cs : List Char} (h : nextLexeme cs = none) (ds : List Char) :
    tokens (cs ++ ds) = tokens ds := by
  induction cs with
  | nil => rfl
  | cons c cs ih =>
    rw [nextLexeme] at h
    split at h
    case isTrue hc =>
      rw [List.cons_append, tokens_layout hc]
      exact ih h
    case isFalse => cases h

theorem tokens_append {cs : List Char} (h : (tokens cs).getLast? = some (.symbol .semicolon))
    (ds : List Char) : tokens (cs ++ ds) = tokens cs ++ tokens ds := by
  induction hn : cs.length using Nat.strongRecOn generalizing cs with
  | _ n ih =>
    subst hn
    cases hc : nextLexeme cs with
    | none =>
      rw [tokens_of_none hc] at h
      cases h
    | some p =>
      obtain ⟨t, rest⟩ := p
      rw [tokens_of_some hc] at h ⊢
      cases hr : nextLexeme rest with
      | none =>
        rw [tokens_of_none hr] at h ⊢
        have ht : t = .symbol .semicolon := Option.some.inj h
        rw [tokens_of_some (nextLexeme_append hc (.inr ht) ds), tokens_append_of_none hr]
        rfl
      | some q =>
        have hne : rest ≠ [] := by
          rintro rfl
          cases hr
        have hlast : (tokens rest).getLast? = some (.symbol .semicolon) := by
          rw [tokens_of_some hr] at h ⊢
          exact h
        have hrest := ih _ (length_of_nextLexeme hc) hlast rfl
        rw [tokens_of_some (nextLexeme_append hc (.inl hne) ds), hrest]
        rfl

/-! ## numerals -/

namespace Integer
variable {n : Integer}

theorem decimalValue_toDigits (k : Nat) : decimalValue (Nat.toDigits 10 k) = k := by
  rw [decimalValue, ← Nat.ofDigitChars_eq_foldl, Nat.ofDigitChars_ten_toDigits]

theorem isNumber_toString (k : Nat) : IsNumber (toString k) := by
  rw [Nat.toString_eq_ofList_toDigits]
  refine ⟨?_, ?_⟩
  · rw [String.toList_ofList]
    exact Nat.toDigits_ne_nil
  · rw [String.toList_ofList]
    intro c hc
    exact Nat.isDigit_of_mem_toDigits (by decide) (by decide) hc

theorem ofDigits?_toString (k : Nat) : ofDigits? (toString k) = ofInt? k := by
  rw [ofDigits?, Nat.toString_eq_ofList_toDigits, String.toList_ofList, decimalValue_toDigits]

theorem text_of_nonneg (h : 0 ≤ n.toInt) : n.text = toString n.toInt.toNat := by
  obtain ⟨k, hk⟩ := Int.eq_ofNat_of_zero_le h
  rw [text, hk, Int.toNat_natCast]
  rfl

theorem isNumber_text (h : 0 ≤ n.toInt) : IsNumber n.text := by
  rw [text_of_nonneg h]
  exact isNumber_toString _

theorem ofDigits?_text (h : 0 ≤ n.toInt) : ofDigits? n.text = some n := by
  rw [text_of_nonneg h, ofDigits?_toString, Int.toNat_of_nonneg h, ofInt?_toInt]

end Integer

/-! ## texts of ASCII characters -/

theorem utf8EncodeChar_of_ascii {c : Char} (h : c.toNat < 128) :
    String.utf8EncodeChar c = [UInt8.ofNat c.toNat] := by
  unfold String.utf8EncodeChar
  exact if_pos (Nat.le_of_lt_succ h)

theorem firstUnsupported_of_ascii {cs : List Char} (h : ∀ c ∈ cs, c.toNat < 128)
    (position : Nat) : firstUnsupported position cs = none := by
  induction cs generalizing position with
  | nil => rfl
  | cons c cs ih =>
    rw [firstUnsupported, if_pos (h c List.mem_cons_self)]
    exact ih (fun c hc => h c (List.mem_cons_of_mem _ hc)) _

theorem tokenize_of_ascii {source : String} (h : ∀ c ∈ source.toList, c.toNat < 128) :
    tokenize source = .ok (tokens source.toList) := by
  rw [tokenize, firstUnsupported_of_ascii h]

theorem Token.ascii_of_mem_text {t : Token} (h : t.WellSpelled) :
    ∀ c ∈ t.text.toList, c.toNat < 128 := by
  intro c hc
  have of_letter : isLetter c = true → c.toNat < 128 := fun hl => by
    rw [isLetter_iff] at hl
    omega
  cases t with
  | name x => exact of_letter (h.letters c hc)
  | number digits =>
    have hd := (isDigit_iff c).mp (h.digits c hc)
    omega
  | illegal c' =>
    obtain rfl : c = c' := by simpa [Token.text] using hc
    exact h.ascii
  | symbol s =>
    have hs : s.text.toList.all (fun c => c.toNat < 128) = true := by cases s <;> rfl
    exact of_decide_eq_true (List.all_eq_true.mp hs c hc)
  | keyword k => exact of_letter (k.isLetter_of_mem_text c hc)

theorem Token.wellSpelled_ofWord {x : String} (hn : x.toList ≠ [])
    (h : ∀ c ∈ x.toList, isLetter c = true) : (Token.ofWord x).WellSpelled := by
  unfold Token.ofWord
  split
  case h_1 => trivial
  case h_2 hx => exact ⟨hn, h, hx⟩

theorem lexeme_wellSpelled {c : Char} (hc : c.toNat < 128) (hlayout : isLayout c = false)
    (cs : List Char) : (lexeme c cs).1.WellSpelled ∧ (lexeme c cs).2 <:+ cs := by
  by_cases hpair : (c = '=' ∨ c = '!') ∧ cs.head? = some '='
  · obtain ⟨hc, hcs⟩ := hpair
    obtain ⟨cs, rfl⟩ := List.head?_eq_some_iff.mp hcs
    obtain rfl | rfl := hc
    · exact ⟨trivial, List.suffix_cons _ _⟩
    · exact ⟨trivial, List.suffix_cons _ _⟩
  cases hs : Symbol.ofChar? c with
  | some s =>
    rw [lexeme_of_symbol hs fun hc hcs => hpair ⟨hc, hcs⟩]
    exact ⟨trivial, List.suffix_rfl⟩
  | none =>
    cases hl : isLetter c with
    | true =>
      rw [lexeme_of_letter hl]
      refine ⟨Token.wellSpelled_ofWord (by simp) ?_, List.dropWhile_suffix _⟩
      rw [String.toList_ofList]
      exact List.forall_mem_cons.mpr ⟨hl, List.all_eq_true.mp List.all_takeWhile⟩
    | false =>
      cases hd : c.isDigit with
      | true =>
        rw [lexeme_of_digit hd]
        refine ⟨⟨by simp, ?_⟩, List.dropWhile_suffix _⟩
        rw [String.toList_ofList]
        exact List.forall_mem_cons.mpr ⟨hd, List.all_eq_true.mp List.all_takeWhile⟩
      | false =>
        rw [lexeme_of_other hs hl hd]
        exact ⟨⟨hc, hlayout, hs, hl, hd⟩, List.suffix_rfl⟩

theorem nextLexeme_wellSpelled {cs rest : List Char} {t : Token}
    (h : nextLexeme cs = some (t, rest)) (hascii : ∀ c ∈ cs, c.toNat < 128) :
    t.WellSpelled ∧ rest <:+ cs := by
  induction cs with
  | nil => cases h
  | cons c cs ih =>
    obtain ⟨hc, hcs⟩ := List.forall_mem_cons.mp hascii
    rw [nextLexeme] at h
    split at h
    · obtain ⟨ht, hrest⟩ := ih h hcs
      exact ⟨ht, hrest.trans (List.suffix_cons c cs)⟩
    case isFalse hlayout =>
      have hspelled := lexeme_wellSpelled hc (Bool.eq_false_iff.mpr hlayout) cs
      rw [Option.some.inj h] at hspelled
      exact ⟨hspelled.1, hspelled.2.trans (List.suffix_cons c cs)⟩

/-- the tokens of a text are ones that a text can hold -/
theorem wellSpelled_tokens {cs : List Char} (h : ∀ c ∈ cs, c.toNat < 128) :
    WellSpelled (tokens cs) := by
  induction hn : cs.length using Nat.strongRecOn generalizing cs with
  | _ n ih =>
    subst hn
    cases hc : nextLexeme cs with
    | none =>
      rw [tokens_of_none hc]
      exact wellSpelled_nil
    | some p =>
      obtain ⟨t, rest⟩ := p
      obtain ⟨ht, hrest⟩ := nextLexeme_wellSpelled hc h
      rw [tokens_of_some hc, wellSpelled_cons]
      exact ⟨ht, ih _ (length_of_nextLexeme hc) (fun c hc => h c (hrest.mem hc)) rfl⟩

/-! ## tokens with spaces between them -/

def spaced (ts : List Token) : String := String.intercalate " " (ts.map Token.text)

theorem spaced_cons_cons (t u : Token) (ts : List Token) :
    (spaced (t :: u :: ts)).toList = t.text.toList ++ ' ' :: (spaced (u :: ts)).toList := by
  simp [spaced, String.intercalate_cons_cons]

theorem ascii_of_mem_spaced {ts : List Token} (h : WellSpelled ts) :
    ∀ c ∈ (spaced ts).toList, c.toNat < 128 := by
  match ts with
  | [] => simp [spaced]
  | [t] => simpa [spaced] using Token.ascii_of_mem_text (wellSpelled_cons.mp h).1
  | t :: u :: ts =>
    obtain ⟨ht, hts⟩ := wellSpelled_cons.mp h
    rw [spaced_cons_cons]
    intro c hc
    obtain hc | hc := List.mem_append.mp hc
    · exact Token.ascii_of_mem_text ht c hc
    · obtain rfl | hc := List.mem_cons.mp hc
      · decide
      · exact ascii_of_mem_spaced hts c hc

theorem tokens_spaced {ts : List Token} (h : WellSpelled ts) : tokens (spaced ts).toList = ts := by
  match ts with
  | [] => exact tokens_of_none rfl
  | [t] =>
    have hread := nextLexeme_text (wellSpelled_cons.mp h).1 t.endsBefore_nil
    rw [List.append_nil] at hread
    have hone : spaced [t] = t.text := String.intercalate_singleton
    rw [hone, tokens_of_some hread, tokens_of_none rfl]
  | t :: u :: ts =>
    obtain ⟨ht, hts⟩ := wellSpelled_cons.mp h
    have hgap : isLayout ' ' = true := rfl
    have hread := nextLexeme_text ht (t.endsBefore_layout hgap (spaced (u :: ts)).toList)
    rw [spaced_cons_cons, tokens_of_some hread, tokens_layout hgap, tokens_spaced hts]

theorem tokenize_spaced {ts : List Token} (h : WellSpelled ts) : tokenize (spaced ts) = .ok ts := by
  rw [tokenize_of_ascii (ascii_of_mem_spaced h), tokens_spaced h]

end MonkeyLang
