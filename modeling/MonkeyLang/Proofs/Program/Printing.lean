import MonkeyLang.Program.Printer
import MonkeyLang.Proofs.Program.Readback
import MonkeyLang.Proofs.Token.Munch

/-!
# The text of a program without blocks is read back

The text of a block is not marked off from the text around it, but where there is none a text can be
read.

* `Expr.BlockFree`      neither a conditional nor a function anywhere;
* `Program.BlockFree`   such expressions only, none of them a statement of its own but the last;
* `Divides rest`        no token goes on into `rest`;
* `Shows piece text`    the text spells tokens that write the piece, where what follows divides;
* `Expr.shows_text`     the text of an expression does, and may even be called as it stands;
* `Program.ofSource_text`  so the text of a program gives the program.
-/

namespace MonkeyLang

mutual

/-- no conditional and no function -/
def Expr.BlockFree : Expr → Prop
  | .name _ | .int _ | .bool _ => True
  | .unary _ e => e.BlockFree
  | .binary a _ b => a.BlockFree ∧ b.BlockFree
  | .cond _ _ _ | .func _ _ => False
  | .call f es => f.BlockFree ∧ Expr.AllBlockFree es

def Expr.AllBlockFree : List Expr → Prop
  | [] => True
  | e :: es => e.BlockFree ∧ Expr.AllBlockFree es

end

/-- bindings and returns, and perhaps one expression at the end -/
inductive Program.BlockFree : Program → Prop
  | nil : BlockFree []
  | last {e : Expr} (value : e.BlockFree) : BlockFree [.expr e]
  | bind {x : String} {e : Expr} {p : Program} (value : e.BlockFree) (rest : BlockFree p) :
      BlockFree (.bind x e :: p)
  | ret {e : Expr} {p : Program} (value : e.BlockFree) (rest : BlockFree p) :
      BlockFree (.ret e :: p)

/-! ## texts and the tokens they spell -/

/-- whatever token stands before this text ends there -/
def Divides (rest : List Char) : Prop := ∀ t : Token, t.EndsBefore rest

theorem divides_nil : Divides [] := Token.endsBefore_nil

theorem divides_cons {c : Char} (hl : isLetter c = false) (hd : c.isDigit = false) (he : c ≠ '=')
    (cs : List Char) : Divides (c :: cs) := by
  intro t
  have hne : (c :: cs).head? ≠ some '=' := fun h => he (Option.some.inj h)
  unfold Token.EndsBefore
  split
  case h_1 | h_2 => simpa using hl
  case h_3 => simpa using hd
  case h_4 | h_5 => exact hne
  case h_6 => trivial

/-- the text spells the tokens, whatever tokens follow -/
def SpelledBefore (cs : List Char) (ts : List Token) : Prop :=
  ∀ {rest us}, Divides rest → Spells rest us → Spells (cs ++ rest) (ts ++ us)

/-- the text spells tokens that write the piece -/
def Shows (piece : Piece) (cs : List Char) : Prop :=
  ∃ ts, Written piece ts ∧ SpelledBefore cs ts

theorem Written.mono {m n : Nat} {e : Expr} {ts : List Token} (h : Written (.expr n e) ts)
    (hle : m ≤ n) : Written (.expr m e) ts := by
  cases h with
  | name hx => exact .name hx
  | int hn => exact .int hn
  | bool => exact .bool
  | group he => exact .group he
  | unary hneed he => exact .unary (Nat.le_trans hle hneed) he
  | binary hneed ha hb => exact .binary (Nat.le_trans hle hneed) ha hb
  | call hneed hf hes => exact .call (Nat.le_trans hle hneed) hf hes
  | cond ht hb => exact .cond ht hb
  | condElse ht hb ho => exact .condElse ht hb ho
  | func hxs hb => exact .func hxs hb

theorem spelledBefore_token {t : Token} (h : t.WellSpelled) : SpelledBefore t.text.toList [t] :=
  fun hrest hus => hus.token h (hrest t)

/-- an operator or delimiter of one character -/
theorem Spells.sign {cs : List Char} {ts : List Token} (h : Spells cs ts) {c : Char} {s : Symbol}
    (hs : Symbol.ofChar? c = some s) (hends : (Token.symbol s).EndsBefore cs) :
    Spells (c :: cs) (.symbol s :: ts) := by
  have htoken := h.token (Token.wellSpelled_symbol s) hends
  rw [Token.text, Symbol.text_of_ofChar? hs] at htoken
  exact htoken

/-- an operator or delimiter behind a text divides what stands before and after it -/
theorem SpelledBefore.sign {cs rest : List Char} {ts us : List Token} (h : SpelledBefore cs ts)
    (hus : Spells rest us) {c : Char} {s : Symbol} (hs : Symbol.ofChar? c = some s)
    (hends : (Token.symbol s).EndsBefore rest) (hne : c ≠ '=') :
    Spells (cs ++ c :: rest) (ts ++ .symbol s :: us) := by
  have hletter : isLetter c = false := by
    rw [Bool.eq_false_iff]
    intro hl
    rw [ofChar?_of_letter hl] at hs
    cases hs
  have hdigit : c.isDigit = false := by
    rw [Bool.eq_false_iff]
    intro hd
    rw [ofChar?_of_digit hd] at hs
    cases hs
  exact h (divides_cons hletter hdigit hne rest) (hus.sign hs hends)

theorem divides_space (cs : List Char) : Divides (' ' :: cs) :=
  fun t => t.endsBefore_layout rfl cs

/-! ## expressions -/

/-- an expression starts with a character that makes no longer operator of what stands before it -/
theorem Expr.exists_first : ∀ e : Expr, e.BlockFree → e.Spellable →
    ∃ c, e.text.toList.head? = some c ∧ c ≠ '='
  | .name x, _, h => by
    obtain ⟨c, cs, hcs⟩ := List.exists_cons_of_ne_nil h.ne_nil
    refine ⟨c, by rw [Expr.text, hcs]; rfl, ?_⟩
    rintro rfl
    have heq := h.letters '=' (by simp [hcs])
    cases heq
  | .int n, _, h => by
    obtain ⟨hne, hdigits⟩ := Integer.isNumber_text h
    obtain ⟨c, cs, hcs⟩ := List.exists_cons_of_ne_nil hne
    refine ⟨c, by rw [Expr.text, hcs]; rfl, ?_⟩
    rintro rfl
    have heq := hdigits '=' (by simp [hcs])
    cases heq
  | .bool b, _, _ => by cases b <;> exact ⟨_, rfl, by decide⟩
  | .unary op e, _, _ => ⟨'(', by simp [Expr.text], by decide⟩
  | .binary a op b, _, _ => ⟨'(', by simp [Expr.text], by decide⟩
  | .call f es, hb, h => by
    obtain ⟨c, hhead, hc⟩ := Expr.exists_first f hb.1 h.1
    refine ⟨c, ?_, hc⟩
    simp [Expr.text, List.head?_append, hhead]

section Rules
variable {e a b f : Expr} {es : List Expr}

theorem shows_unary {op : UnaryOp} (he : Shows (.expr callLevel e) e.text.toList)
    (hfirst : ∃ c, e.text.toList.head? = some c ∧ c ≠ '=') :
    Shows (.expr callLevel (.unary op e)) (Expr.unary op e).text.toList := by
  obtain ⟨ts, hw, hts⟩ := he
  refine ⟨_, .group (.unary (Nat.zero_le _) (hw.mono (Nat.le_succ _))), ?_⟩
  intro rest us _ hus
  have hvalue := hts.sign hus (c := ')') rfl trivial (by decide)
  obtain ⟨c, hhead, hc⟩ := hfirst
  have hop : Spells (op.text.toList ++ (e.text.toList ++ ')' :: rest))
      (.symbol op.symbol :: (ts ++ .symbol .rparen :: us)) := by
    cases op with
    | not =>
      refine hvalue.sign (c := '!') rfl ?_
      show (e.text.toList ++ ')' :: rest).head? ≠ some '='
      rw [List.head?_append, hhead]
      exact fun h => hc (Option.some.inj h)
    | neg => exact hvalue.sign (c := '-') rfl trivial
  have hwhole := hop.sign (c := '(') rfl trivial
  simpa [Expr.text] using hwhole

theorem shows_binary {op : BinaryOp} (ha : Shows (.expr callLevel a) a.text.toList)
    (hb : Shows (.expr callLevel b) b.text.toList) :
    Shows (.expr callLevel (.binary a op b)) (Expr.binary a op b).text.toList := by
  obtain ⟨ts, hwa, hts⟩ := ha
  obtain ⟨us, hwb, hus⟩ := hb
  have hle : op.level + 1 ≤ callLevel := Nat.le_succ_of_le op.level_lt_unaryLevel
  refine ⟨_, .group (.binary (Nat.zero_le _) (hwa.mono (Nat.le_of_succ_le hle)) (hwb.mono hle)), ?_⟩
  intro rest vs _ hvs
  have hright := (hus.sign hvs (c := ')') rfl trivial (by decide)).layout (c := ' ') rfl
  have hop := hright.token (Token.wellSpelled_symbol op.symbol) (divides_space _ _)
  have hleft := hts (divides_space _) (hop.layout (c := ' ') rfl)
  have hwhole := hleft.sign (c := '(') rfl trivial
  simpa [Expr.text, BinaryOp.text, Token.text] using hwhole

/-- the texts of arguments after the first one -/
def moreTexts (texts : List String) : List Char := texts.flatMap fun s => ',' :: ' ' :: s.toList

theorem toList_commaSeparated (s : String) (texts : List String) :
    (commaSeparated (s :: texts)).toList = s.toList ++ moreTexts texts := by
  induction texts generalizing s with
  | nil => simp [commaSeparated, moreTexts]
  | cons s' texts ih =>
    have hrest := ih s'
    unfold commaSeparated at hrest ⊢
    rw [String.intercalate_cons_cons, String.toList_append, String.toList_append, hrest]
    simp [moreTexts]

theorem divides_moreTexts (texts : List String) {rest : List Char} (h : Divides rest) :
    Divides (moreTexts texts ++ rest) := by
  cases texts with
  | nil => exact h
  | cons s texts => exact divides_cons rfl rfl (by decide) _

theorem shows_lastArgument : Shows (.moreArguments []) (moreTexts (Expr.texts [])) :=
  ⟨[], .lastArgument, fun _ hus => hus⟩

theorem shows_nextArgument (he : Shows (.expr callLevel e) e.text.toList)
    (hes : Shows (.moreArguments es) (moreTexts (Expr.texts es))) :
    Shows (.moreArguments (e :: es)) (moreTexts (Expr.texts (e :: es))) := by
  obtain ⟨ts, hw, hts⟩ := he
  obtain ⟨us, hws, hus⟩ := hes
  refine ⟨_, .nextArgument (hw.mono (Nat.zero_le _)) hws, ?_⟩
  intro rest vs hrest hvs
  have hvalue := hts (divides_moreTexts _ hrest) (hus hrest hvs)
  have hwhole := (hvalue.layout (c := ' ') rfl).sign (c := ',') rfl trivial
  simpa [Expr.texts, moreTexts] using hwhole

theorem shows_someArguments (he : Shows (.expr callLevel e) e.text.toList)
    (hes : Shows (.moreArguments es) (moreTexts (Expr.texts es))) :
    Shows (.arguments (e :: es)) (commaSeparated (Expr.texts (e :: es))).toList := by
  obtain ⟨ts, hw, hts⟩ := he
  obtain ⟨us, hws, hus⟩ := hes
  refine ⟨_, .someArguments (hw.mono (Nat.zero_le _)) hws, ?_⟩
  intro rest vs hrest hvs
  rw [Expr.texts, toList_commaSeparated, List.append_assoc, List.append_assoc]
  exact hts (divides_moreTexts _ hrest) (hus hrest hvs)

theorem shows_call (hf : Shows (.expr callLevel f) f.text.toList)
    (hes : Shows (.arguments es) (commaSeparated (Expr.texts es)).toList) :
    Shows (.expr callLevel (.call f es)) (Expr.call f es).text.toList := by
  obtain ⟨ts, hw, hts⟩ := hf
  obtain ⟨us, hws, hus⟩ := hes
  refine ⟨_, .call (Nat.le_refl _) hw hws, ?_⟩
  intro rest vs _ hvs
  have hargs := hus.sign hvs (c := ')') rfl trivial (by decide)
  have hwhole := hts.sign hargs (c := '(') rfl trivial (by decide)
  simpa [Expr.text] using hwhole

end Rules

mutual

/-- the text of an expression stands in brackets unless it is one token or a call, so that it can
stand anywhere -/
theorem Expr.shows_text : ∀ e : Expr, e.BlockFree → e.Spellable →
    Shows (.expr callLevel e) e.text.toList
  | .name _, _, h => ⟨_, .name h, spelledBefore_token (t := .name _) h⟩
  | .int _, _, h => ⟨_, .int h, spelledBefore_token (t := .number _) (Integer.isNumber_text h)⟩
  | .bool true, _, _ => ⟨_, .bool, spelledBefore_token (t := .keyword .trueKw) trivial⟩
  | .bool false, _, _ => ⟨_, .bool, spelledBefore_token (t := .keyword .falseKw) trivial⟩
  | .unary _ e, hb, h => shows_unary (Expr.shows_text e hb h) (Expr.exists_first e hb h)
  | .binary a _ b, hb, h => shows_binary (Expr.shows_text a hb.1 h.1) (Expr.shows_text b hb.2 h.2)
  | .call f [], hb, h =>
    shows_call (Expr.shows_text f hb.1 h.1) ⟨[], .noArguments, fun _ hus => hus⟩
  | .call f (e :: es), hb, h =>
    shows_call (Expr.shows_text f hb.1 h.1)
      (shows_someArguments (Expr.shows_text e hb.2.1 h.2.1) (Expr.shows_moreTexts es hb.2.2 h.2.2))

theorem Expr.shows_moreTexts : ∀ es : List Expr, Expr.AllBlockFree es → Expr.AllSpellable es →
    Shows (.moreArguments es) (moreTexts (Expr.texts es))
  | [], _, _ => shows_lastArgument
  | e :: es, hb, h =>
    shows_nextArgument (Expr.shows_text e hb.1 h.1) (Expr.shows_moreTexts es hb.2 h.2)

end

/-! ## statements and programs -/

/-- the text of a statement with a semicolon spells tokens that write it, whatever follows -/
def Stmt.ShownBefore (st : Stmt) : Prop :=
  ∃ ts, Written (.statement st) ts ∧
    ∀ {rest us}, Spells rest us → Spells (st.text.toList ++ rest) (ts ++ us)

theorem Stmt.shown_bind {x : String} {e : Expr} (hx : IsName x)
    (he : Shows (.expr callLevel e) e.text.toList) : (Stmt.bind x e).ShownBefore := by
  obtain ⟨ts, hw, hts⟩ := he
  refine ⟨_, .bind hx (hw.mono (Nat.zero_le _)), ?_⟩
  intro rest us hus
  have hvalue := (hts.sign hus (c := ';') rfl trivial (by decide)).layout (c := ' ') rfl
  have hsign := (hvalue.sign (c := '=') rfl (by rintro ⟨⟩)).layout (c := ' ') rfl
  have hname := (hsign.token (t := .name x) hx (divides_space _ _)).layout (c := ' ') rfl
  have hwhole := hname.token (t := .keyword .letKw) trivial (divides_space _ _)
  simpa [Stmt.text, Token.text, Keyword.text] using hwhole

theorem Stmt.shown_ret {e : Expr} (he : Shows (.expr callLevel e) e.text.toList) :
    (Stmt.ret e).ShownBefore := by
  obtain ⟨ts, hw, hts⟩ := he
  refine ⟨_, .ret (hw.mono (Nat.zero_le _)), ?_⟩
  intro rest us hus
  have hvalue := (hts.sign hus (c := ';') rfl trivial (by decide)).layout (c := ' ') rfl
  have hwhole := hvalue.token (t := .keyword .returnKw) trivial (divides_space _ _)
  simpa [Stmt.text, Token.text, Keyword.text] using hwhole

namespace Program

theorem parse_of_written_expr {e : Expr} {ts : List Token} (h : Written (.expr 0 e) ts) :
    parse ts = ⟨[.expr e], []⟩ := by
  have hends : Parser.Stops [] := Parser.stops_of_atEnd (.inl rfl)
  have hwhole := h.reads.whole hends
  rw [List.append_nil] at hwhole
  exact parse_of_readExpr hwhole

/-- the text of a program spells tokens from which the program is read -/
theorem spells_text {p : Program} (hp : p.BlockFree) (h : Block.Spellable p) :
    ∃ ts, Spells (Block.text p).toList ts ∧ parse ts = ⟨p, []⟩ := by
  have of_statement : ∀ {st : Stmt} {p : Program}, st.ShownBefore →
      (∃ ts, Spells (Block.text p).toList ts ∧ parse ts = ⟨p, []⟩) →
      ∃ ts, Spells (Block.text (st :: p)).toList ts ∧ parse ts = ⟨st :: p, []⟩ := by
    rintro st p ⟨ts, hw, hts⟩ ⟨us, hus, hparse⟩
    refine ⟨ts ++ us, ?_, ?_⟩
    · rw [Block.text, String.toList_append]
      exact hts hus
    · rw [parse_of_ok (hw.reads us), hparse]
  induction hp with
  | nil => exact ⟨[], spells_nil, parse_nil⟩
  | @last e he =>
    obtain ⟨ts, hw, hts⟩ := e.shows_text he h.1
    have hspells := hts divides_nil spells_nil
    rw [List.append_nil, List.append_nil] at hspells
    refine ⟨ts, ?_, parse_of_written_expr (hw.mono (Nat.zero_le _))⟩
    simpa [Block.text, Stmt.text] using hspells
  | @bind x e p he _ ih =>
    exact of_statement (Stmt.shown_bind h.1.1 (e.shows_text he h.1.2)) (ih h.2)
  | @ret e p he _ ih => exact of_statement (Stmt.shown_ret (e.shows_text he h.1)) (ih h.2)

/-- **A program without blocks is read back from its own text**, without an error.  Its statements
are bindings and returns with perhaps one expression at the end, its expressions hold neither a
conditional nor a function, its names are well spelled and its integers not negative. -/
theorem ofSource_text (p : Program) (hp : p.BlockFree) (h : Block.Spellable p) :
    ofSource (Block.text p) = .ok ⟨p, []⟩ := by
  obtain ⟨ts, hts, hparse⟩ := spells_text hp h
  rw [ofSource, tokenize_of_ascii hts.ascii, hts.tokens_eq]
  exact congrArg Except.ok hparse

/-- a negated name that is called, and what that gives is called again -/
theorem ofSource_text_callee :
    let callee : Expr := .call (.unary .not (.name "f")) [.int 1, .unary .neg (.name "x")]
    let p : Program :=
      [.bind "x" (.call callee []), .expr (.binary (.name "x") .notEqual (.bool true))]
    p.BlockFree ∧ Block.Spellable p ∧
      Block.text p = "let x = (!f)(1, (-x))();(x != true)" ∧
      ofSource "let x = (!f)(1, (-x))();(x != true)" = .ok ⟨p, []⟩ := by
  intro callee p
  have hf : IsName "f" := ⟨by decide, by simp [isLetter], by decide⟩
  have hx : IsName "x" := ⟨by decide, by simp [isLetter], by decide⟩
  have hone : (0 : Int) ≤ (1 : Integer).toInt := by decide
  have hp : p.BlockFree :=
    .bind ⟨⟨trivial, trivial, trivial, trivial⟩, trivial⟩ (.last ⟨trivial, trivial⟩)
  have hspell : Block.Spellable p :=
    ⟨⟨hx, ⟨hf, hone, hx, trivial⟩, trivial⟩, ⟨hx, trivial⟩, trivial⟩
  have htext : Block.text p = "let x = (!f)(1, (-x))();(x != true)" := by decide +kernel
  exact ⟨hp, hspell, htext, htext ▸ ofSource_text p hp hspell⟩

end Program

end MonkeyLang
