import MonkeyLang.Proofs.Program.Acceptance
import MonkeyLang.Proofs.Program.Lookahead

/-!
# What is kept and what is dropped of a program

* `Balanced ts`           every brace of `ts` is closed in `ts`, and no other one is;
* `Derives.balanced`      so it is with everything that the grammar derives;
* `append_resume`         the tokens of a dropped statement end outside all blocks, or where the
                          input ends;
* `Segment`, `Cuts`       a program is cut into the tokens of its statements, each of them kept,
                          with what was read, or dropped, with what was wrong;
* `exists_cuts`           every list of tokens is cut in this way.
-/

namespace MonkeyLang
open MonkeyLang.Parser

/-! ## braces -/

section Braces
variable {n : Nat} {ts us : List Token}

theorem openBlocks_cons (n : Nat) (t : Token) (ts : List Token) :
    openBlocks n (t :: ts) = openBlocks (t.depthAfter n) ts := rfl

theorem openBlocks_append (n : Nat) (ts us : List Token) :
    openBlocks n (ts ++ us) = openBlocks (openBlocks n ts) us := List.foldl_append

/-- as many blocks are open after the tokens as before them, and none of those before was closed -/
def Balanced (ts : List Token) : Prop := ∀ n, openBlocks n ts = n

theorem Balanced.append (hts : Balanced ts) (hus : Balanced us) : Balanced (ts ++ us) := by
  intro n
  rw [openBlocks_append, hts, hus]

theorem Balanced.cons {t : Token} (ht : ∀ n, t.depthAfter n = n) (hts : Balanced ts) :
    Balanced (t :: ts) := by
  intro n
  rw [openBlocks_cons, ht, hts]

theorem Balanced.braces (hts : Balanced ts) :
    Balanced (.symbol .lbrace :: (ts ++ [.symbol .rbrace])) := by
  intro n
  rw [openBlocks_cons, openBlocks_append, hts]
  rfl

theorem balanced_semicolonIf (b : Bool) : Balanced (semicolonIf b) := by
  intro n
  cases b <;> rfl

/-- an open block that is closed at the end was closed by a brace of its own -/
theorem exists_closing_brace (h : openBlocks (n + 1) ts ≤ n) :
    ∃ u v, ts = u ++ .symbol .rbrace :: v ∧ Balanced u := by
  induction hl : ts.length using Nat.strongRecOn generalizing ts n with
  | _ l ih =>
    subst hl
    cases ts with
    | nil => exact absurd h (Nat.not_succ_le_self n)
    | cons t ts =>
      by_cases hclose : t = .symbol .rbrace
      · exact ⟨[], ts, by rw [hclose]; rfl, fun n => rfl⟩
      by_cases hopen : t = .symbol .lbrace
      · subst hopen
        -- the block inside is closed first
        obtain ⟨u, v, rfl, hu⟩ := ih ts.length (Nat.lt_succ_self _) (Nat.le_succ_of_le h) rfl
        have hv : openBlocks (n + 1) v ≤ n := by
          rw [openBlocks_cons, openBlocks_append, hu] at h
          exact h
        have hlt : v.length < (Token.symbol .lbrace :: (u ++ .symbol .rbrace :: v)).length := by
          simp only [List.length_cons, List.length_append]
          omega
        obtain ⟨u', v', rfl, hu'⟩ := ih v.length hlt hv rfl
        exact ⟨_, v', by simp, hu.braces.append hu'⟩
      · have hsame : ∀ m, t.depthAfter m = m := by
          intro m
          unfold Token.depthAfter
          split
          · exact absurd rfl hopen
          · exact absurd rfl hclose
          · rfl
        rw [openBlocks_cons, hsame] at h
        obtain ⟨u, v, rfl, hu⟩ := ih ts.length (Nat.lt_succ_self _) h rfl
        exact ⟨t :: u, v, rfl, hu.cons hsame⟩

end Braces

theorem Derives.balanced {p : Phrase} {w : List Token} (h : Derives p w) : Balanced w := by
  induction h with
  | noStatement | noOperator | noParams | lastParam | noArguments | lastArgument =>
    exact fun n => rfl
  | lastStatement _ ih => exact ih
  | moreStatements _ _ ihw ihv => exact ihw.append ihv
  | @bind e ended x _ ih =>
    have hs := ih.append (balanced_semicolonIf ended)
    exact .cons (fun n => rfl) (.cons (fun n => rfl) (.cons (fun n => rfl) hs))
  | ret _ ih => exact .cons (fun n => rfl) (ih.append (balanced_semicolonIf _))
  | expr _ ih => exact ih.append (balanced_semicolonIf _)
  | block _ ih => exact ih.braces
  | expression _ _ ihw ihv => exact ihw.append ihv
  | moreOperators _ _ ihw ihv => exact ihw.append ihv
  | name | number | bool => exact fun n => rfl
  | @unary e op _ ih => exact ih.cons (depthAfter_unary op)
  | group _ ih => exact .cons (fun n => rfl) (ih.append fun n => rfl)
  | cond _ _ iht ihb =>
    exact .cons (fun n => rfl) (.cons (fun n => rfl) (iht.append (ihb.cons fun n => rfl)))
  | condElse _ _ _ iht ihb iho =>
    refine .cons (fun n => rfl) (.cons (fun n => rfl) (iht.append (.cons (fun n => rfl) ?_)))
    exact ihb.append (iho.cons fun n => rfl)
  | func _ _ ihx ihb =>
    exact .cons (fun n => rfl) (.cons (fun n => rfl) (ihx.append (ihb.cons fun n => rfl)))
  | @binary e op _ ih => exact ih.cons (depthAfter_binary op)
  | call _ ih => exact .cons (fun n => rfl) (ih.append fun n => rfl)
  | someParams _ ih => exact ih.cons fun n => rfl
  | nextParam _ ih => exact .cons (fun n => rfl) (ih.cons fun n => rfl)
  | someArguments _ _ ihe ihes => exact ihe.append ihes
  | nextArgument _ _ ihe ihes => exact (ihe.append ihes).cons fun n => rfl

/-! ## the tokens of one statement -/

theorem Parser.balanced_of_readStatement {w rest : List Token} {s : Stmt}
    (h : readStatement (w ++ rest) = .ok (s, rest)) : Balanced w := by
  obtain ⟨ended, ⟨v, hv, hderives, -⟩, -⟩ := statement_spans (after_eq_ok.mpr ⟨s, h⟩)
  obtain rfl := List.append_cancel_right hv
  exact hderives.balanced

theorem append_afterDropped (t : Token) (rest : List Token) :
    ∃ v, rest = v ++ afterDropped t rest ∧ openBlocks 0 v = 0 := by
  unfold afterDropped
  split
  case h_1 rest => exact ⟨[.symbol .semicolon], rfl, rfl⟩
  case h_2 => exact ⟨[], rfl, rfl⟩

/-- a statement is dropped as far as its blocks go, or to the end of the input -/
theorem append_resume (read n : Nat) (ts : List Token) :
    ∃ w, ts = w ++ resume read n ts ∧ (resume read n ts ≠ [] → openBlocks n w = 0) := by
  induction ts generalizing read n with
  | nil => exact ⟨[], rfl, fun h => absurd rfl h⟩
  | cons t ts ih =>
    rw [resume]
    by_cases hend : read ≤ 1 ∧ endsDropped (t.depthAfter n) t ts = true
    · have hclosed : t.depthAfter n = 0 := by
        have hand := hend.2
        rw [endsDropped, Bool.and_eq_true] at hand
        exact beq_iff_eq.mp hand.1
      obtain ⟨v, hv, hopen⟩ := append_afterDropped t ts
      rw [if_pos hend]
      exact ⟨t :: v, congrArg _ hv, fun _ => by rw [openBlocks_cons, hclosed, hopen]⟩
    · obtain ⟨w, hw, hopen⟩ := ih (read - 1) (t.depthAfter n)
      rw [if_neg hend]
      exact ⟨t :: w, congrArg _ hw, hopen⟩

/-! ## segments -/

/-- the tokens of one statement of a program, with what became of it -/
inductive Segment where
  | kept (tokens : List Token) (statement : Stmt)
  | dropped (tokens : List Token) (error : SyntaxError)

namespace Segment

def tokens : Segment → List Token
  | kept w _ => w
  | dropped w _ => w

def statement? : Segment → Option Stmt
  | kept _ s => some s
  | dropped _ _ => none

def error? : Segment → Option SyntaxError
  | kept _ _ => none
  | dropped _ e => some e

/-- where the tokens `rest` come after it, the segment is read as one statement and nothing is left
of it, so that it is a program of its own; or no statement can be read there -/
def Fits (rest : List Token) : Segment → Prop
  | kept w s => readStatement (w ++ rest) = .ok (s, rest) ∧ Program.parse w = ⟨[s], []⟩
  | dropped w e => ∃ unread, readStatement (w ++ rest) = .error ⟨e, unread⟩

end Segment

/-- the tokens `ts`, of which `parsed` was read, are cut into segments: one after the other they are
just these tokens, and each one starts outside all blocks -/
structure Cuts (ts : List Token) (parsed : ParsedProgram) (segments : List Segment) : Prop where
  tokens : segments.flatMap Segment.tokens = ts
  program : segments.filterMap Segment.statement? = parsed.program
  errors : segments.filterMap Segment.error? = parsed.errors
  each : ∀ before segment after, segments = before ++ segment :: after →
    segment.tokens ≠ [] ∧ segment.Fits (after.flatMap Segment.tokens) ∧
      openBlocks 0 (before.flatMap Segment.tokens) = 0

/-- one more segment in front -/
theorem Cuts.cons {rest : List Token} {parsed whole : ParsedProgram} {segments : List Segment}
    (h : Cuts rest parsed segments) (segment : Segment) (hne : segment.tokens ≠ [])
    (hfits : segment.Fits rest) (hopen : rest ≠ [] → openBlocks 0 segment.tokens = 0)
    (hprogram : whole.program = segment.statement?.toList ++ parsed.program)
    (herrors : whole.errors = segment.error?.toList ++ parsed.errors) :
    Cuts (segment.tokens ++ rest) whole (segment :: segments) where
  tokens := by rw [List.flatMap_cons, h.tokens]
  program := by rw [hprogram, ← h.program]; cases segment <;> rfl
  errors := by rw [herrors, ← h.errors]; cases segment <;> rfl
  each := by
    intro before seg after heq
    obtain ⟨rfl, hseg⟩ | ⟨before, rfl, hsegs⟩ := List.cons_eq_append_iff.mp heq
    · obtain ⟨rfl, rfl⟩ := List.cons.inj hseg
      exact ⟨hne, h.tokens ▸ hfits, rfl⟩
    · obtain ⟨hne', hfits', hopen'⟩ := h.each before seg after hsegs
      have hrest : rest ≠ [] := by
        rw [← h.tokens, hsegs]
        simp [hne']
      refine ⟨hne', hfits', ?_⟩
      rw [List.flatMap_cons, openBlocks_append, hopen hrest, hopen']

theorem exists_cuts (ts : List Token) : ∃ segments, Cuts ts (Program.parse ts) segments := by
  induction hn : ts.length using Nat.strongRecOn generalizing ts with
  | _ n ih =>
    subst hn
    cases ts with
    | nil =>
      rw [Program.parse_nil]
      exact ⟨[], rfl, rfl, rfl, by simp⟩
    | cons t us =>
      cases hs : readStatement (t :: us) with
      | ok p =>
        obtain ⟨s, rest⟩ := p
        have hlt := length_readStatement hs
        obtain ⟨segments, hcuts⟩ := ih _ hlt rest rfl
        obtain ⟨w, hw, hsame⟩ := (statement_looksAhead (t :: us)).of_ok hs
        rw [Program.parse_of_ok hs]
        rw [hw] at hs hlt ⊢
        have halone : readStatement w = .ok (s, []) := by
          simpa using hsame [] (.inl rfl)
        have hparse : Program.parse w = ⟨[s], []⟩ := by
          rw [Program.parse_of_ok halone, Program.parse_nil]
        have hne : w ≠ [] := by
          rintro rfl
          exact Nat.lt_irrefl _ hlt
        exact ⟨_, hcuts.cons (.kept w s) hne ⟨hs, hparse⟩
          (fun _ => balanced_of_readStatement hs 0) rfl rfl⟩
      | error failure =>
        obtain ⟨e, unread⟩ := failure
        rw [Program.parse_of_error hs]
        generalize (t :: us).length - _ = read
        have hle := length_resume_le read 0 t us
        obtain ⟨segments, hcuts⟩ := ih _ (Nat.lt_succ_of_le hle) _ rfl
        obtain ⟨w, hw, hopen⟩ := append_resume read 0 (t :: us)
        generalize resume read 0 (t :: us) = rest at hle hcuts hw hopen ⊢
        have hne : w ≠ [] := by
          rintro rfl
          obtain rfl : t :: us = rest := hw
          exact Nat.not_succ_le_self _ hle
        rw [hw] at hs ⊢
        exact ⟨_, hcuts.cons (.dropped w e) hne ⟨unread, hs⟩ hopen rfl rfl⟩

/-- every brace that was opened before a segment was closed before it -/
theorem Cuts.closed {ts outer inner : List Token} {parsed : ParsedProgram} {segment : Segment}
    {segments before after : List Segment} (h : Cuts ts parsed segments)
    (heq : segments = before ++ segment :: after)
    (hopen : before.flatMap Segment.tokens = outer ++ .symbol .lbrace :: inner) :
    ∃ u v, inner = u ++ .symbol .rbrace :: v ∧ Balanced u := by
  obtain ⟨-, -, hclosed⟩ := h.each before segment after heq
  rw [hopen, openBlocks_append, openBlocks_cons] at hclosed
  have hle := Nat.le_trans (Nat.le_of_eq hclosed) (Nat.zero_le (openBlocks 0 outer))
  exact exists_closing_brace hle

/-- with one statement and one error, there are two segments -/
theorem Cuts.two {ts : List Token} {s : Stmt} {e : SyntaxError} {segments : List Segment}
    (h : Cuts ts ⟨[s], [e]⟩ segments) :
    ∃ w w', w ++ w' = ts ∧
      (segments = [.kept w s, .dropped w' e] ∧ Program.parse w = ⟨[s], []⟩ ∨
        segments = [.dropped w e, .kept w' s] ∧ Program.parse w' = ⟨[s], []⟩) := by
  obtain ⟨htokens, hprogram, herrors, heach⟩ := h
  have hnil : ∀ others : List Segment, others.filterMap Segment.statement? = [] →
      others.filterMap Segment.error? = [] → others = [] := by
    intro others hs he
    cases others with
    | nil => rfl
    | cons segment others =>
      cases segment with
      | kept => cases hs
      | dropped => cases he
  cases segments with
  | nil => cases hprogram
  | cons first rest =>
    cases first with
    | kept w s' =>
      obtain ⟨rfl, hnone⟩ := List.cons.inj hprogram
      obtain ⟨-, ⟨-, hparse⟩, -⟩ := heach [] _ _ rfl
      cases rest with
      | nil => cases herrors
      | cons second others =>
        cases second with
        | kept => cases hnone
        | dropped w' e' =>
          obtain ⟨rfl, hnone'⟩ := List.cons.inj herrors
          obtain rfl := hnil others hnone hnone'
          exact ⟨w, w', by simpa [Segment.tokens] using htokens, .inl ⟨rfl, hparse⟩⟩
    | dropped w e' =>
      obtain ⟨rfl, hnone⟩ := List.cons.inj herrors
      cases rest with
      | nil => cases hprogram
      | cons second others =>
        cases second with
        | dropped => cases hnone
        | kept w' s' =>
          obtain ⟨rfl, hnone'⟩ := List.cons.inj hprogram
          obtain ⟨-, ⟨-, hparse⟩, -⟩ := heach [_] _ _ rfl
          obtain rfl := hnil others hnone' hnone
          exact ⟨w, w', by simpa [Segment.tokens] using htokens, .inr ⟨rfl, hparse⟩⟩

namespace Program

/-- **Whole statements are dropped, and nothing else.**  The tokens of a text are cut into segments.
Each of them was read as one statement, and these are the program, or could not be read, and there
is one error for it.  Each of them starts outside all blocks, so that no statement of the program
stands inside braces that were opened before it. -/
theorem drops_whole_statements (source : String) (hascii : ∀ c ∈ source.toList, c.toNat < 128) :
    ∃ parsed segments, ofSource source = .ok parsed ∧
      Cuts (MonkeyLang.tokens source.toList) parsed segments ∧
        ∀ before segment after, segments = before ++ segment :: after →
          ∀ outer inner, before.flatMap Segment.tokens = outer ++ .symbol .lbrace :: inner →
            ∃ u v, inner = u ++ .symbol .rbrace :: v ∧ Balanced u := by
  obtain ⟨segments, hcuts⟩ := exists_cuts (MonkeyLang.tokens source.toList)
  refine ⟨_, segments, ofSource_of_ascii hascii, hcuts, ?_⟩
  intro before segment after heq outer inner hopen
  exact hcuts.closed heq hopen

/-- an error inside a block drops the statement around it with all its blocks, up to its semicolon,
and the statement after it is kept -/
theorem drops_whole_statements_inner :
    let source := "let f = fn(x) \x7b let = x; \x7b y \x7d \x7d (1); z"
    let ts := MonkeyLang.tokens source.toList
    let e : SyntaxError := .unexpected .name (.symbol .assign)
    let z : Stmt := .expr (.name "z")
    (∀ c ∈ source.toList, c.toNat < 128) ∧ ofSource source = .ok ⟨[z], [e]⟩ ∧
      ts.drop 20 = [.name "z"] ∧
      Cuts ts ⟨[z], [e]⟩ [.dropped (ts.take 20) e, .kept [.name "z"] z] ∧
      ∀ outer inner, ts.take 20 = outer ++ .symbol .lbrace :: inner →
        ∃ u v, inner = u ++ .symbol .rbrace :: v ∧ Balanced u := by
  intro source ts e z
  have hascii : ∀ c ∈ source.toList, c.toNat < 128 := by simp [source]
  have hsource : ofSource source = .ok ⟨[z], [e]⟩ := by
    rw [ofSource_of_ascii hascii]
    exact congrArg Except.ok (by decide +kernel)
  have hdrop : ts.drop 20 = [.name "z"] := by decide +kernel
  obtain ⟨parsed, segments, hparsed, hcuts, hclosed⟩ := drops_whole_statements source hascii
  cases hsource.symm.trans hparsed
  -- where the tokens of a statement `z` can end and start
  have hend : ∀ i < 22, parse (ts.take i) ≠ ⟨[z], []⟩ := by decide +kernel
  have hstart : ∀ i < 22, parse (ts.drop i) = ⟨[z], []⟩ → i = 20 := by decide +kernel
  have hlength : ts.length = 21 := by decide +kernel
  obtain ⟨w, w', hts, htwo⟩ := hcuts.two
  change w ++ w' = ts at hts
  have hle : w.length < 22 := by
    rw [← hts, List.length_append] at hlength
    omega
  have hw : ts.take w.length = w := hts ▸ List.take_left
  have hw' : ts.drop w.length = w' := hts ▸ List.drop_left
  rcases htwo with ⟨-, hparse⟩ | ⟨hsegments, hparse⟩
  · rw [← hw] at hparse
    exact absurd hparse (hend _ hle)
  rw [← hw'] at hparse
  rw [hstart _ hle hparse] at hw hw'
  rw [hsegments, ← hw, ← hw', hdrop] at hcuts hclosed
  refine ⟨hascii, hsource, hdrop, hcuts, ?_⟩
  intro outer inner hopen
  exact hclosed [.dropped (ts.take 20) e] _ [] rfl outer inner (by simpa [Segment.tokens] using hopen)

end Program

end MonkeyLang
