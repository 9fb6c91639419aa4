import MonkeyLang.Proofs.Token.Spelling
import MonkeyLang.Token.Scanner

/-!
# Tokens as long as possible

A text is layout, and after it tokens, each with layout of its own behind it.

* `spell parts`          the text of such parts, a part being a token and the layout behind it;
* `Munched parts`        every token is well spelled and ends before the text behind it;
* `Munches cs lead parts`  the text `cs` is the layout `lead` and then `parts`, which are munched;
* `Spells cs ts`         the same, where only the tokens matter; layout at either end does not
                         (`Spells.gap_before`, `Spells.gap_after`);
* `spells_tokens`, `Munches.unique`   every text of ASCII characters is cut in just one such way,
                         and `tokens` gives the tokens of it;
* `Kind.ofText?`         the kind of token that a text spells by itself;
* `Scanner.answer k s`   what a scanner says when it is asked for the `k`-th time.
-/

namespace MonkeyLang

/-! ## texts cut into tokens and layout -/

/-- layout only, or nothing at all -/
def IsGap (cs : List Char) : Prop := ∀ c ∈ cs, isLayout c = true

/-- the text of tokens with the layout behind each of them -/
def spell (parts : List (Token × List Char)) : List Char :=
  parts.flatMap fun (t, gap) => t.text.toList ++ gap

theorem spell_nil : spell [] = [] := rfl
theorem spell_cons (t : Token) (gap : List Char) (parts : List (Token × List Char)) :
    spell ((t, gap) :: parts) = t.text.toList ++ (gap ++ spell parts) := by
  simp [spell, List.append_assoc]

/-- every token is well spelled, has only layout behind it and does not go on into the text there -/
inductive Munched : List (Token × List Char) → Prop
  | nil : Munched []
  | cons {t : Token} {gap : List Char} {parts : List (Token × List Char)}
    (spelled : t.WellSpelled) (layout : IsGap gap) (ends : t.EndsBefore (gap ++ spell parts))
    (rest : Munched parts) : Munched ((t, gap) :: parts)

structure Munches (cs lead : List Char) (parts : List (Token × List Char)) : Prop where
  whole : cs = lead ++ spell parts
  layout : IsGap lead
  munched : Munched parts

/-- the text can be cut into layout and just these tokens -/
def Spells (cs : List Char) (ts : List Token) : Prop :=
  ∃ lead parts, Munches cs lead parts ∧ parts.map Prod.fst = ts

theorem spells_nil : Spells [] [] := ⟨[], [], ⟨rfl, by simp [IsGap], .nil⟩, rfl⟩

section Spells
variable {cs : List Char} {ts : List Token}

theorem Spells.layout (h : Spells cs ts) {c : Char} (hc : isLayout c = true) :
    Spells (c :: cs) ts := by
  obtain ⟨lead, parts, hm, hts⟩ := h
  refine ⟨c :: lead, parts, ⟨by rw [hm.whole]; rfl, ?_, hm.munched⟩, hts⟩
  exact List.forall_mem_cons.mpr ⟨hc, hm.layout⟩

theorem Spells.token (h : Spells cs ts) {t : Token} (ht : t.WellSpelled) (hends : t.EndsBefore cs) :
    Spells (t.text.toList ++ cs) (t :: ts) := by
  obtain ⟨lead, parts, hm, hts⟩ := h
  -- the layout that came first now stands behind the token
  have hparts : Munched ((t, lead) :: parts) := .cons ht hm.layout (hm.whole ▸ hends) hm.munched
  refine ⟨[], (t, lead) :: parts, ⟨?_, by simp [IsGap], hparts⟩, ?_⟩
  · rw [spell_cons, hm.whole]
    rfl
  · rw [List.map_cons, hts]

theorem Spells.gap_before (h : Spells cs ts) {gap : List Char} (hgap : IsGap gap) :
    Spells (gap ++ cs) ts := by
  induction gap with
  | nil => exact h
  | cons c gap ih =>
    obtain ⟨hc, hgap⟩ := List.forall_mem_cons.mp hgap
    exact (ih hgap).layout hc

theorem Token.EndsBefore.gap_after {t : Token} {rest gap : List Char} (h : t.EndsBefore rest)
    (hgap : IsGap gap) : t.EndsBefore (rest ++ gap) := by
  cases rest with
  | nil =>
    cases gap with
    | nil => exact h
    | cons c gap => exact t.endsBefore_layout (hgap c List.mem_cons_self) gap
  | cons c rest =>
    -- only the first character after a token matters to it
    unfold EndsBefore
    split
    case h_6 => trivial
    all_goals exact h

theorem Spells.gap_after (h : Spells cs ts) {gap : List Char} (hgap : IsGap gap) :
    Spells (cs ++ gap) ts := by
  obtain ⟨lead, parts, hm, rfl⟩ := h
  obtain ⟨rfl, hlead, hparts⟩ := hm
  rw [List.append_assoc]
  apply Spells.gap_before _ hlead
  induction hparts with
  | nil => exact ⟨gap, [], ⟨by simp [spell_nil], hgap, .nil⟩, rfl⟩
  | cons spelled layout ends _ ih =>
    rw [spell_cons, List.append_assoc, List.append_assoc]
    refine (ih.gap_before layout).token spelled ?_
    rw [← List.append_assoc]
    exact ends.gap_after hgap

theorem ascii_of_gap (h : IsGap cs) : ∀ c ∈ cs, c.toNat < 128 := by
  intro c hc
  have hlayout := (isLayout_iff c).mp (h c hc)
  omega

theorem Munched.ascii {parts : List (Token × List Char)} (h : Munched parts) :
    ∀ c ∈ spell parts, c.toNat < 128 := by
  induction h with
  | nil => simp [spell]
  | cons spelled layout _ _ ih =>
    rw [spell_cons, List.forall_mem_append, List.forall_mem_append]
    exact ⟨Token.ascii_of_mem_text spelled, ascii_of_gap layout, ih⟩

theorem Spells.ascii (h : Spells cs ts) : ∀ c ∈ cs, c.toNat < 128 := by
  obtain ⟨lead, parts, hm, -⟩ := h
  rw [hm.whole, List.forall_mem_append]
  exact ⟨ascii_of_gap hm.layout, hm.munched.ascii⟩

end Spells

/-! ## every text is cut in one way -/

theorem nextLexeme_gap {lead : List Char} (h : IsGap lead) (cs : List Char) :
    nextLexeme (lead ++ cs) = nextLexeme cs := by
  induction lead with
  | nil => rfl
  | cons c lead ih =>
    obtain ⟨hc, hlead⟩ := List.forall_mem_cons.mp h
    rw [List.cons_append, nextLexeme, if_pos hc]
    exact ih hlead

theorem Munches.nextLexeme_nil {cs lead : List Char} (h : Munches cs lead []) :
    nextLexeme cs = none := by
  rw [h.whole, nextLexeme_gap h.layout]
  rfl

theorem Munches.nextLexeme_cons {cs lead gap : List Char} {t : Token}
    {parts : List (Token × List Char)} (h : Munches cs lead ((t, gap) :: parts)) :
    nextLexeme cs = some (t, gap ++ spell parts) ∧ Munches (gap ++ spell parts) gap parts := by
  obtain ⟨rfl, hlead, hm⟩ := h
  cases hm with
  | cons spelled layout ends rest =>
    refine ⟨?_, rfl, layout, rest⟩
    rw [nextLexeme_gap hlead, spell_cons, nextLexeme_text spelled ends]

theorem Spells.tokens_eq {cs : List Char} {ts : List Token} (h : Spells cs ts) :
    tokens cs = ts := by
  obtain ⟨lead, parts, hm, rfl⟩ := h
  induction parts generalizing cs lead with
  | nil => exact tokens_of_none hm.nextLexeme_nil
  | cons p parts ih =>
    obtain ⟨t, gap⟩ := p
    obtain ⟨hnext, hrest⟩ := hm.nextLexeme_cons
    rw [tokens_of_some hnext, ih _ hrest]
    rfl

/-- a token starts with a character that is no layout -/
theorem Token.exists_first {t : Token} (h : t.WellSpelled) :
    ∃ c cs, t.text.toList = c :: cs ∧ isLayout c = false := by
  have of_letters : ∀ x : String, x.toList ≠ [] → (∀ c ∈ x.toList, isLetter c = true) →
      ∃ c cs, x.toList = c :: cs ∧ isLayout c = false := by
    intro x hne hx
    obtain ⟨c, cs, hcs⟩ := List.exists_cons_of_ne_nil hne
    exact ⟨c, cs, hcs, not_layout_of_letter (hx c (by simp [hcs]))⟩
  cases t with
  | name x => exact of_letters x h.ne_nil h.letters
  | number digits =>
    obtain ⟨c, cs, hcs⟩ := List.exists_cons_of_ne_nil h.ne_nil
    exact ⟨c, cs, hcs, not_layout_of_digit (h.digits c (by simp [hcs]))⟩
  | illegal c => exact ⟨c, [], by simp [Token.text], h.not_layout⟩
  | symbol s => cases s <;> exact ⟨_, _, rfl, rfl⟩
  | keyword k => exact of_letters k.text (by cases k <;> decide) k.isLetter_of_mem_text

theorem Munches.lead_eq {cs lead : List Char} {parts : List (Token × List Char)}
    (h : Munches cs lead parts) : lead = cs.takeWhile isLayout := by
  obtain ⟨rfl, hlead, hm⟩ := h
  have hstop : ∀ c ∈ (spell parts).head?, isLayout c = false := by
    intro c hc
    cases hm with
    | nil => cases hc
    | cons spelled layout ends rest =>
      obtain ⟨d, ds, hds, hd⟩ := Token.exists_first spelled
      rw [spell_cons, hds] at hc
      cases hc
      exact hd
  exact (takeWhile_word hlead hstop).1.symm

theorem Munches.unique {cs lead lead' : List Char} {parts parts' : List (Token × List Char)}
    (h : Munches cs lead parts) (h' : Munches cs lead' parts') : lead = lead' ∧ parts = parts' := by
  refine ⟨h.lead_eq.trans h'.lead_eq.symm, ?_⟩
  induction parts generalizing cs lead lead' parts' with
  | nil =>
    cases parts' with
    | nil => rfl
    | cons p parts' =>
      obtain ⟨t, gap⟩ := p
      have hnone := h.nextLexeme_nil
      rw [h'.nextLexeme_cons.1] at hnone
      cases hnone
  | cons p parts ih =>
    obtain ⟨t, gap⟩ := p
    obtain ⟨hnext, hrest⟩ := h.nextLexeme_cons
    cases parts' with
    | nil =>
      rw [h'.nextLexeme_nil] at hnext
      cases hnext
    | cons p' parts' =>
      obtain ⟨t', gap'⟩ := p'
      obtain ⟨hnext', hrest'⟩ := h'.nextLexeme_cons
      have heq := Option.some.inj (hnext.symm.trans hnext')
      have htext : gap ++ spell parts = gap' ++ spell parts' := congrArg Prod.snd heq
      rw [← htext] at hrest'
      have hgap : gap = gap' := hrest.lead_eq.trans hrest'.lead_eq.symm
      have htoken : t = t' := congrArg Prod.fst heq
      rw [htoken, hgap, ih hrest hrest']

theorem Symbol.text_of_ofChar? {c : Char} {s : Symbol} (h : ofChar? c = some s) :
    s.text.toList = [c] := by
  unfold ofChar? at h
  split at h
  case h_15 => cases h
  all_goals
    cases h
    rfl

theorem head?_dropWhile {p : Char → Bool} (cs : List Char) :
    ∀ c ∈ (cs.dropWhile p).head?, p c = false := by
  intro c hc
  have h := List.head?_dropWhile_not p cs
  rw [hc] at h
  exact h

theorem Token.endsBefore_ofWord {rest : List Char} (h : ∀ c ∈ rest.head?, isLetter c = false)
    (x : String) : (Token.ofWord x).EndsBefore rest := by
  unfold Token.ofWord
  split
  case h_1 => exact h
  case h_2 => exact h

/-- what is read as a token is its text, and it ends before what is left -/
theorem lexeme_spells {c : Char} {cs rest : List Char} {t : Token} (h : lexeme c cs = (t, rest)) :
    c :: cs = t.text.toList ++ rest ∧ t.EndsBefore rest := by
  by_cases hpair : (c = '=' ∨ c = '!') ∧ cs.head? = some '='
  · obtain ⟨hc, hcs⟩ := hpair
    obtain ⟨cs, rfl⟩ := List.head?_eq_some_iff.mp hcs
    rcases hc with rfl | rfl
    · cases h
      exact ⟨rfl, trivial⟩
    · cases h
      exact ⟨rfl, trivial⟩
  cases hs : Symbol.ofChar? c with
  | some s =>
    have hone : lexeme c cs = (.symbol s, cs) :=
      lexeme_of_symbol hs fun hc hcs => hpair ⟨hc, hcs⟩
    rw [hone] at h
    cases h
    have htext : s.text.toList = [c] := Symbol.text_of_ofChar? hs
    refine ⟨by rw [Token.text, htext]; rfl, ?_⟩
    cases s with
    | assign =>
      cases htext
      exact fun hcs => hpair ⟨.inl rfl, hcs⟩
    | bang =>
      cases htext
      exact fun hcs => hpair ⟨.inr rfl, hcs⟩
    | _ => trivial
  | none =>
    cases hl : isLetter c with
    | true =>
      rw [lexeme_of_letter hl] at h
      cases h
      refine ⟨?_, Token.endsBefore_ofWord (head?_dropWhile cs) _⟩
      rw [Token.text_ofWord, String.toList_ofList, List.cons_append,
        List.takeWhile_append_dropWhile]
    | false =>
      cases hd : c.isDigit with
      | true =>
        rw [lexeme_of_digit hd] at h
        cases h
        refine ⟨?_, head?_dropWhile cs⟩
        rw [Token.text, String.toList_ofList, List.cons_append, List.takeWhile_append_dropWhile]
      | false =>
        rw [lexeme_of_other hs hl hd] at h
        cases h
        exact ⟨by simp [Token.text], trivial⟩

/-- every text of ASCII characters can be cut into its tokens -/
theorem spells_tokens {cs : List Char} (h : ∀ c ∈ cs, c.toNat < 128) : Spells cs (tokens cs) := by
  induction hn : cs.length using Nat.strongRecOn generalizing cs with
  | _ n ih =>
    subst hn
    cases cs with
    | nil =>
      rw [tokens_of_none rfl]
      exact spells_nil
    | cons c cs =>
      obtain ⟨hc, hcs⟩ := List.forall_mem_cons.mp h
      cases hlayout : isLayout c with
      | true =>
        rw [tokens_layout hlayout]
        exact (ih _ (Nat.lt_succ_self _) hcs rfl).layout hlayout
      | false =>
        have hnext : nextLexeme (c :: cs) = some (lexeme c cs) := by
          rw [nextLexeme, if_neg (by simp [hlayout])]
        cases hread : lexeme c cs with
        | mk t rest =>
          rw [hread] at hnext
          obtain ⟨htext, hends⟩ := lexeme_spells hread
          obtain ⟨hspelled, hrest⟩ := nextLexeme_wellSpelled hnext h
          have hlt := length_of_nextLexeme hnext
          rw [tokens_of_some hnext, htext]
          exact (ih _ hlt (fun c hc => h c (hrest.mem hc)) rfl).token hspelled hends

/-! ## the kind of a text -/

/-- the symbol with a given text -/
def Symbol.ofText? (text : String) : Option Symbol :=
  [assign, plus, minus, bang, star, slash, equal, notEqual, less, greater, comma, semicolon, lparen,
    rparen, lbrace, rbrace].find? fun s => s.text == text

/-- the kind of token that a text is when nothing stands around it: letters are a keyword or a name,
digits a number, and a character that is neither these, nor an operator or delimiter, nor layout is
illegal -/
def Kind.ofText? (text : String) : Option Kind :=
  if text = "" then none
  else if text.toList.all isLetter then
    match Keyword.ofText? text with
    | some k => some (.keyword k)
    | none => some .name
  else if text.toList.all Char.isDigit then some .number
  else
    match Symbol.ofText? text, text.toList with
    | some s, _ => some (.symbol s)
    | none, [c] => if isLayout c then none else some .illegal
    | none, _ => none

theorem Symbol.ofText?_singleton {c : Char} (h : ofChar? c = none) :
    ofText? (String.singleton c) = none := by
  rw [ofText?, List.find?_eq_none]
  intro s _ hs
  have htext : s.text.toList = [c] := by
    rw [beq_iff_eq.mp hs, String.toList_singleton]
  cases s <;> cases htext <;> cases h

/-- the text of a token is not empty, and determines its kind -/
theorem Kind.ofText?_text {t : Token} (h : t.WellSpelled) :
    t.text ≠ "" ∧ Kind.ofText? t.text = some t.kind := by
  obtain ⟨c, cs, hcs, -⟩ := Token.exists_first h
  have hne : t.text ≠ "" := by
    intro hnil
    rw [hnil] at hcs
    cases hcs
  refine ⟨hne, ?_⟩
  cases t with
  | name x =>
    have hx : x.toList.all isLetter = true := List.all_eq_true.mpr h.letters
    simp only [Token.text] at hne ⊢
    rw [ofText?, if_neg hne, if_pos hx, h.not_keyword]
    rfl
  | number digits =>
    have hdigits : digits.toList.all Char.isDigit = true := List.all_eq_true.mpr h.digits
    have hletters : ¬ digits.toList.all isLetter = true := by
      intro hall
      have hmem : c ∈ digits.toList := by
        simp only [Token.text] at hcs
        simp [hcs]
      rw [List.all_eq_true] at hall
      have := hall c hmem
      rw [not_letter_of_digit (h.digits c hmem)] at this
      cases this
    simp only [Token.text] at hne ⊢
    rw [ofText?, if_neg hne, if_neg hletters, if_pos hdigits]
    rfl
  | illegal c =>
    have hsymbol := Symbol.ofText?_singleton h.not_symbol
    simp [ofText?, Token.text, Token.kind, hsymbol, h.not_layout, h.not_letter, h.not_digit]
  | symbol s => cases s <;> decide
  | keyword k => cases k <;> decide

/-! ## scanners -/

namespace Scanner

/-- the scanner after it has been asked `k` times -/
def after : Nat → Scanner → Scanner
  | 0, s => s
  | k + 1, s => s.next?.2.after k

/-- what it says when it is asked after that -/
def answer (k : Nat) (s : Scanner) : Option (Option Token) := (s.after k).next?.1

/-- what is said of a token or of the end: its kind and its text -/
def report : Option Token → Kind × String
  | some t => (t.kind, t.text)
  | none => (.eof, "")

section
variable {s : Scanner}

theorem answer_of_ended (h : s.ended = true) (k : Nat) : s.answer k = none := by
  have hnext : s.next? = (none, s) := by rw [next?, if_pos h]
  induction k with
  | zero =>
    show s.next?.1 = none
    rw [hnext]
  | succ k ih =>
    show s.next?.2.answer k = none
    rw [hnext]
    exact ih

theorem advance_of_none (hnone : nextLexeme s.rest = none) :
    s.advance = (none, { s with position := s.source.length }) := by
  rw [advance, hnone]

/-- a scanner that says a token goes on behind it, in the same text -/
theorem advance_of_some {t : Token} {rest : List Char} (hsome : nextLexeme s.rest = some (t, rest))
    (hascii : ∀ c ∈ s.source, c.toNat < 128) :
    s.advance = (some t, { s with position := s.source.length - rest.length }) ∧
      s.advance.2.rest = rest := by
  have hdrop : s.rest <:+ s.source := List.drop_suffix _ _
  have hrest : rest <:+ s.source :=
    (nextLexeme_wellSpelled hsome fun c hc => hascii c (hdrop.mem hc)).2.trans hdrop
  have hnext : s.advance = (some t, { s with position := s.source.length - rest.length }) := by
    rw [advance, hsome]
  rw [hnext]
  exact ⟨rfl, (List.suffix_iff_eq_drop.mp hrest).symm⟩

variable (h : s.ended = false)
include h

theorem next?_of_none (hnone : nextLexeme s.rest = none) :
    s.next?.1 = some none ∧ s.next?.2.ended = true := by
  simp [next?, h, advance_of_none hnone]

theorem next?_of_some {t : Token} {rest : List Char} (hsome : nextLexeme s.rest = some (t, rest))
    (hascii : ∀ c ∈ s.source, c.toNat < 128) :
    s.next?.1 = some (some t) ∧ s.next?.2.ended = false ∧ s.next?.2.source = s.source ∧
      s.next?.2.rest = rest := by
  obtain ⟨hadvance, hrest⟩ := advance_of_some hsome hascii
  have hnext : s.next? =
      (some (some t), { s with position := s.source.length - rest.length, ended := false }) := by
    simp [next?, h, hadvance]
  rw [hadvance] at hrest
  rw [hnext]
  exact ⟨rfl, rfl, rfl, hrest⟩

/-- asked again and again, a scanner says the tokens that are left, then once the end, and then
nothing -/
theorem answer_eq (hascii : ∀ c ∈ s.source, c.toNat < 128) (k : Nat) :
    s.answer k = ((tokens s.rest).map some ++ [none])[k]? := by
  induction hts : tokens s.rest generalizing s k with
  | nil =>
    have hnone : nextLexeme s.rest = none := by
      cases hn : nextLexeme s.rest with
      | none => rfl
      | some p =>
        rw [tokens_of_some hn] at hts
        cases hts
    obtain ⟨hsaid, hended⟩ := next?_of_none h hnone
    cases k with
    | zero => exact hsaid
    | succ k => exact answer_of_ended hended k
  | cons t ts ih =>
    cases hn : nextLexeme s.rest with
    | none =>
      rw [tokens_of_none hn] at hts
      cases hts
    | some p =>
      obtain ⟨u, rest⟩ := p
      rw [tokens_of_some hn] at hts
      cases hts
      obtain ⟨hsaid, hopen, hsource, hrest⟩ := next?_of_some h hn hascii
      cases k with
      | zero => exact hsaid
      | succ k => exact ih hopen (hsource ▸ hascii) k (by rw [hrest])

end

/-- **A text of ASCII characters is cut into layout and tokens that are as long as possible.**
Asked again and again, a scanner of the text says the kind and the text of each token, then once the
end, which has no text, and then nothing.  These tokens with the layout around them are the text.
No token is empty, its kind is the one its text spells, it does not go on into the text behind it,
and no other cut of the text is like this. -/
theorem reads_longest_tokens (source : String) (h : ∀ c ∈ source.toList, c.toNat < 128) :
    ∃ s lead parts, ofSource? source = .ok s ∧ tokenize source = .ok (parts.map Prod.fst) ∧
      (∀ k, (s.answer k).map report =
        (parts.map (fun p => (p.1.kind, p.1.text)) ++ [(Kind.eof, "")])[k]?) ∧
      Munches source.toList lead parts ∧
      (∀ p ∈ parts, p.1.text ≠ "" ∧ Kind.ofText? p.1.text = some p.1.kind) ∧
      ∀ lead' parts', Munches source.toList lead' parts' → lead' = lead ∧ parts' = parts := by
  obtain ⟨lead, parts, hm, hts⟩ := spells_tokens h
  refine ⟨⟨source.toList, 0, false⟩, lead, parts, ?_, ?_, fun k => ?_, hm, fun p hp => ?_,
    fun lead' parts' hm' => hm'.unique hm⟩
  · rw [ofSource?, firstUnsupported_of_ascii h]
  · rw [tokenize_of_ascii h, hts]
  · rw [answer_eq rfl h k]
    show Option.map report ((tokens source.toList).map some ++ [none])[k]? = _
    rw [← List.getElem?_map, ← hts]
    simp [report, Function.comp_def]
  · have hspelled := wellSpelled_tokens h
    rw [← hts] at hspelled
    exact Kind.ofText?_text (hspelled p.1 (List.mem_map_of_mem hp))

/-- a name, a number, two operators and a NUL without layout between them, then layout: five tokens,
the end, and no more -/
theorem reads_longest_tokens_nul :
    let source := "x1!===\x00 \n"
    (∀ c ∈ source.toList, c.toNat < 128) ∧ ∃ s, ofSource? source = .ok s ∧
      tokenize source = .ok [.name "x", .number "1", .symbol .notEqual, .symbol .equal,
        .illegal '\x00'] ∧
      (s.answer 4).map report = some (.illegal, "\x00") ∧
      (s.answer 5).map report = some (.eof, "") ∧ (s.answer 6).map report = none := by
  intro source
  have hascii : ∀ c ∈ source.toList, c.toNat < 128 := by simp [source]
  obtain ⟨s, lead, parts, hs, htokens, hsaid, -, -, hunique⟩ := reads_longest_tokens source hascii
  have hm : Munches source.toList [] [(.name "x", []), (.number "1", []),
      (.symbol .notEqual, []), (.symbol .equal, []), (.illegal '\x00', [' ', '\n'])] := by
    refine ⟨by simp [source, spell, Token.text, Symbol.text], by simp [IsGap], ?_⟩
    refine .cons ⟨by decide, by simp [isLetter], by decide⟩ (by simp [IsGap]) ?_ ?_
    · rintro c ⟨⟩
      decide
    refine .cons ⟨by decide, by simp [Char.isDigit]⟩ (by simp [IsGap]) ?_ ?_
    · rintro c ⟨⟩
      decide
    refine .cons trivial (by simp [IsGap]) trivial ?_
    refine .cons trivial (by simp [IsGap]) trivial ?_
    refine .cons ⟨by decide, by decide, by decide, by decide, by decide⟩ ?_ trivial .nil
    simp [IsGap, isLayout]
  obtain ⟨-, rfl⟩ := hunique _ _ hm
  exact ⟨hascii, s, hs, htokens, hsaid 4, hsaid 5, hsaid 6⟩

end Scanner

end MonkeyLang
