import MonkeyLang.Proofs.Program.Seam
import MonkeyLang.Proofs.Token.Munch

/-!
# Layout between lexemes

Any layout will do between two lexemes, and layout at the ends of a text changes nothing.

* `Apart lexemes cs`      the text `cs` is the lexemes in order, with layout between neighbours;
* `Respaced lexemes cs`   the same, where layout may also stand before the first lexeme and behind
                          the last;
* `Respaced.spells`       such a text spells the tokens that the lexemes belong to, whether or not
                          these were apart before;
* `Scanner.exists_answers`   what a scanner of a text says depends on the tokens of the text only.
-/

namespace MonkeyLang

/-! ## lexemes that stand apart -/

/-- the lexemes in order, with some layout between neighbours and none at the ends -/
inductive Apart : List String → List Char → Prop
  | nil : Apart [] []
  | single (lexeme : String) : Apart [lexeme] lexeme.toList
  | cons (lexeme : String) (gap : List Char) {next : String} {lexemes : List String}
    {cs : List Char} (layout : IsGap gap) (ne_nil : gap ≠ []) (rest : Apart (next :: lexemes) cs) :
    Apart (lexeme :: next :: lexemes) (lexeme.toList ++ (gap ++ cs))

/-- the lexemes in order, with some layout between neighbours and any layout at the ends -/
def Respaced (lexemes : List String) (cs : List Char) : Prop :=
  ∃ lead body trail, cs = lead ++ (body ++ trail) ∧ IsGap lead ∧ Apart lexemes body ∧ IsGap trail

/-- layout ends every token, so tokens that stand apart are read one by one -/
theorem Apart.spells {ts : List Token} {cs : List Char} (h : Apart (ts.map Token.text) cs)
    (hts : WellSpelled ts) : Spells cs ts := by
  match ts, h with
  | [], .nil => exact spells_nil
  | [t], .single _ =>
    have hone := spells_nil.token (wellSpelled_cons.mp hts).1 t.endsBefore_nil
    rwa [List.append_nil] at hone
  | t :: u :: ts, .cons _ _ layout ne_nil rest =>
    obtain ⟨ht, hts⟩ := wellSpelled_cons.mp hts
    have hrest : Spells _ (u :: ts) := Apart.spells rest hts
    obtain ⟨c, gap, rfl⟩ := List.exists_cons_of_ne_nil ne_nil
    have hc : isLayout c = true := layout c List.mem_cons_self
    exact (hrest.gap_before layout).token ht (t.endsBefore_layout hc _)

theorem Respaced.spells {ts : List Token} {cs : List Char}
    (h : Respaced (ts.map Token.text) cs) (hts : WellSpelled ts) : Spells cs ts := by
  obtain ⟨lead, body, trail, rfl, hlead, hbody, htrail⟩ := h
  exact ((hbody.spells hts).gap_after htrail).gap_before hlead

/-! ## reading them -/

theorem Scanner.exists_answers {source : String} (h : ∀ c ∈ source.toList, c.toNat < 128) :
    ∃ s, ofSource? source = .ok s ∧
      ∀ k, s.answer k = ((tokens source.toList).map some ++ [none])[k]? := by
  refine ⟨⟨source.toList, 0, false⟩, ?_, fun k => answer_eq rfl h k⟩
  rw [ofSource?, firstUnsupported_of_ascii h]

namespace Program

/-- **Layout does not matter.**  Take the lexemes of a text of ASCII characters and set them apart
in any other way, with layout at the ends or not.  Scanners of the two texts say the same, the two
texts have the same tokens, and they are read as the same program with the same errors. -/
theorem reads_respaced_texts (source : String) (h : ∀ c ∈ source.toList, c.toNat < 128) :
    ∃ s ts p, Scanner.ofSource? source = .ok s ∧ tokenize source = .ok ts ∧
      ofSource source = .ok p ∧
      ∀ text : String, Respaced (ts.map Token.text) text.toList →
        (∃ s', Scanner.ofSource? text = .ok s' ∧ ∀ k, s'.answer k = s.answer k) ∧
          tokenize text = .ok ts ∧ ofSource text = .ok p := by
  obtain ⟨s, hs, hsaid⟩ := Scanner.exists_answers h
  refine ⟨s, _, _, hs, tokenize_of_ascii h, ofSource_of_ascii h, fun text htext => ?_⟩
  have hspells : Spells text.toList (tokens source.toList) := htext.spells (wellSpelled_tokens h)
  have htokens : tokens text.toList = tokens source.toList := hspells.tokens_eq
  obtain ⟨s', hs', hsaid'⟩ := Scanner.exists_answers hspells.ascii
  refine ⟨⟨s', hs', fun k => ?_⟩, ?_, ?_⟩
  · rw [hsaid', hsaid, htokens]
  · rw [tokenize_of_ascii hspells.ascii, htokens]
  · rw [ofSource_of_ascii hspells.ascii, htokens]

/-- a name and a number, two operators and a control character, without layout at first and then
with a different kind of layout at each place -/
theorem reads_respaced_texts_adjacent :
    let source := "x1==!\x01"
    let text := "\n x\t1 ==\r\n! \x01\r"
    (∀ c ∈ source.toList, c.toNat < 128) ∧
      Respaced ["x", "1", "==", "!", "\x01"] text.toList ∧
      tokenize text = .ok [.name "x", .number "1", .symbol .equal, .symbol .bang,
        .illegal '\x01'] ∧
      ofSource text = ofSource source := by
  intro source text
  have hascii : ∀ c ∈ source.toList, c.toNat < 128 := by simp [source]
  obtain ⟨s, ts, p, -, hts, hp, hsame⟩ := reads_respaced_texts source hascii
  have hread : tokens source.toList = [.name "x", .number "1", .symbol .equal, .symbol .bang,
      .illegal '\x01'] := by decide +kernel
  rw [tokenize_of_ascii hascii, hread] at hts
  obtain rfl := Except.ok.inj hts
  have hlayout : Respaced ["x", "1", "==", "!", "\x01"] text.toList := by
    refine ⟨['\n', ' '], _, ['\r'], ?_, ?_, .cons "x" ['\t'] ?_ ?_ (.cons "1" [' '] ?_ ?_
      (.cons "==" ['\r', '\n'] ?_ ?_ (.cons "!" [' '] ?_ ?_ (.single "\x01")))), ?_⟩
    all_goals simp [IsGap, isLayout, text]
  obtain ⟨-, htokens, hprogram⟩ := hsame text hlayout
  exact ⟨hascii, hlayout, htokens, hprogram.trans hp.symm⟩

end Program

end MonkeyLang
