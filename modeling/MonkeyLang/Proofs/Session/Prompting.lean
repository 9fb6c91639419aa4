import MonkeyLang.Proofs.Evaluation.Depth
import MonkeyLang.Proofs.Evaluation.Returns
import MonkeyLang.Proofs.Program.Seam
import MonkeyLang.Proofs.Token.Munch
import MonkeyLang.Prompt

/-!
# The prompt piece by piece

* `Prompt.Pieces`      an input cut after each line end;
* `Prompt.Turn`        what is written for one piece, and the session after it;
* `Prompt.Turns`       the turns of pieces that come one after the other, in one session;
* `Prompt.spoken`      all that is written when the turns have written this;
* `Prompt.Overruns`    the program of some piece opens more calls than may be open;
* `Prompt.RunsOn`      the program of some piece opens more calls than any number.

A line end is a byte of its own in UTF-8 and it is blank, so it does not matter that a line is run
without it (`answer_newline`).  Blank characters at the ends of a text are no tokens as long as
they are layout (`tokens_trimBlank`).  If the prompt does not end, whatever number of calls may be
open, then one piece is the reason with all these numbers (`runsOn_iff`).
-/

namespace MonkeyLang

/-! ## blank characters -/

theorem exists_trimBlank (cs : List Char) :
    ∃ before after, cs = before ++ (trimBlank cs ++ after) ∧
      (∀ c ∈ before, isBlank c = true) ∧ ∀ c ∈ after, isBlank c = true := by
  have hcut : ∀ ds : List Char, ∀ c ∈ ds.takeWhile isBlank, isBlank c = true := by
    intro ds c hc
    exact List.all_eq_true.mp List.all_takeWhile c hc
  let inner := (cs.dropWhile isBlank).reverse
  refine ⟨cs.takeWhile isBlank, (inner.takeWhile isBlank).reverse, ?_, hcut cs, ?_⟩
  · show cs = _ ++ ((inner.dropWhile isBlank).reverse ++ _)
    rw [← List.reverse_append, List.takeWhile_append_dropWhile, List.reverse_reverse,
      List.takeWhile_append_dropWhile]
  · intro c hc
    exact hcut inner c (List.mem_reverse.mp hc)

theorem trimBlank_newline (cs : List Char) : trimBlank (cs ++ ['\n']) = trimBlank cs := by
  have hblank : isBlank '\n' = true := by decide
  unfold trimBlank
  rw [List.dropWhile_append]
  split
  case isTrue hempty =>
    rw [List.isEmpty_iff.mp hempty, List.dropWhile_cons_of_pos hblank]
    rfl
  case isFalse =>
    rw [List.reverse_append, List.reverse_singleton, List.singleton_append,
      List.dropWhile_cons_of_pos hblank]

theorem isLayout_of_isBlank {c : Char} (h : isBlank c = true) (hascii : c.toNat < 128)
    (h11 : c.toNat ≠ 11) (h12 : c.toNat ≠ 12) : isLayout c = true := by
  have hranges : 9 ≤ c.toNat ∧ c.toNat ≤ 13 ∨ c.toNat = 32 ∨ 128 ≤ c.toNat := by
    simp [isBlank, blankRanges] at h
    omega
  rw [isLayout_iff]
  omega

/-- trimming takes no token away from a text in which all blank characters are layout -/
theorem tokens_trimBlank {cs : List Char}
    (h : ∀ c ∈ cs, c.toNat < 128 ∧ c.toNat ≠ 11 ∧ c.toNat ≠ 12) :
    (∀ c ∈ trimBlank cs, c.toNat < 128) ∧ tokens (trimBlank cs) = tokens cs := by
  obtain ⟨before, after, hcs, hbefore, hafter⟩ := exists_trimBlank cs
  have hgap : ∀ gap : List Char, (∀ c ∈ gap, isBlank c = true) → (∀ c ∈ gap, c ∈ cs) →
      IsGap gap := by
    intro gap hblank hmem c hc
    obtain ⟨hascii, h11, h12⟩ := h c (hmem c hc)
    exact isLayout_of_isBlank (hblank c hc) hascii h11 h12
  have hmem : ∀ c, c ∈ before ∨ c ∈ trimBlank cs ∨ c ∈ after → c ∈ cs := by
    intro c hc
    rw [hcs, List.mem_append, List.mem_append]
    exact hc
  have hascii : ∀ c ∈ trimBlank cs, c.toNat < 128 :=
    fun c hc => (h c (hmem c (.inr (.inl hc)))).1
  have hlast : IsGap after := hgap after hafter fun c hc => hmem c (.inr (.inr hc))
  have hfirst : IsGap before := hgap before hbefore fun c hc => hmem c (.inl hc)
  have hspells := ((spells_tokens hascii).gap_after hlast).gap_before hfirst
  rw [← hcs] at hspells
  exact ⟨hascii, hspells.tokens_eq.symm⟩

/-- what a run does depends on the program of the text only -/
theorem Session.run_congr {a b : String} (h : Program.ofSource a = Program.ofSource b)
    (depth : Nat) (s : Session) : s.run depth a = s.run depth b := by
  rw [run, run, h]

namespace Prompt

/-- the text of a piece as it is run -/
def trimmed (text : String) : String := String.ofList (trimBlank text.toList)

theorem run_trimmed {text : String}
    (h : ∀ c ∈ text.toList, c.toNat < 128 ∧ c.toNat ≠ 11 ∧ c.toNat ≠ 12) (depth : Nat)
    (s : Session) : s.run depth (trimmed text) = s.run depth text := by
  obtain ⟨hascii, htokens⟩ := tokens_trimBlank h
  apply Session.run_congr
  rw [Program.ofSource_of_ascii fun c hc => (h c hc).1, trimmed, Program.ofSource_of_ascii,
    String.toList_ofList, htokens]
  rwa [String.toList_ofList]

/-! ## bytes -/

/-- the text that a piece encodes, if it is UTF-8 -/
def text? (piece : List UInt8) : Option String := String.fromUTF8? ⟨piece.toArray⟩

theorem text?_eq_some_iff {piece : List UInt8} {text : String} :
    text? piece = some text ↔ text.toList.flatMap String.utf8EncodeChar = piece := by
  have hbytes : (text.toList.flatMap String.utf8EncodeChar).toByteArray = text.toByteArray :=
    String.utf8Encode_toList
  have hpiece : (⟨piece.toArray⟩ : ByteArray) = piece.toByteArray :=
    ByteArray.ext List.data_toByteArray.symm
  rw [← List.toByteArray_inj, hbytes, text?, hpiece, String.fromUTF8?]
  split
  case isTrue hvalid =>
    rw [Option.some_inj, ← String.toByteArray_inj]
    exact eq_comm
  case isFalse hinvalid =>
    have hne : text.toByteArray ≠ piece.toByteArray := fun h => hinvalid (h ▸ text.isValidUTF8)
    simp [hne]

/-- every byte after the first one is a continuation byte -/
theorem getLast?_utf8EncodeChar {c : Char} (h : 128 ≤ c.toNat) :
    (String.utf8EncodeChar c).getLast? = some (UInt8.ofNat (c.toNat % 64 + 128)) := by
  have hnot : ¬ c.val.toNat ≤ 127 := Nat.not_le_of_lt h
  unfold String.utf8EncodeChar
  simp only [if_neg hnot]
  split
  · rfl
  · split
    · rfl
    · rfl

/-- only a line end is encoded with this last byte -/
theorem eq_newline_of_getLast? {c : Char} (h : (String.utf8EncodeChar c).getLast? = some 10) :
    c = '\n' := by
  have hten : (10 : UInt8).toNat = 10 := rfl
  by_cases hascii : c.toNat < 128
  · rw [utf8EncodeChar_of_ascii hascii, List.getLast?_singleton] at h
    have hbyte := congrArg UInt8.toNat (Option.some.inj h)
    rw [UInt8.toNat_ofNat', hten] at hbyte
    apply Char.toNat_inj.mp
    show c.toNat = 10
    omega
  · rw [getLast?_utf8EncodeChar (Nat.le_of_not_lt hascii)] at h
    have hbyte := congrArg UInt8.toNat (Option.some.inj h)
    rw [UInt8.toNat_ofNat', hten] at hbyte
    omega

theorem text?_newline (line : List UInt8) :
    text? (line ++ [10]) = (text? line).map (· ++ "\n") := by
  apply Option.ext
  intro text
  rw [text?_eq_some_iff, Option.map_eq_some_iff]
  constructor
  · intro h
    obtain htext | ⟨cs, c, htext⟩ := text.toList.eq_nil_or_concat
    · rw [htext] at h
      cases line <;> cases h
    · rw [htext, List.concat_eq_append, List.flatMap_append, List.flatMap_singleton] at h
      have hc : c = '\n' := by
        have hlast := congrArg List.getLast? h
        rw [List.getLast?_append, List.getLast?_concat] at hlast
        rcases Option.or_eq_some_iff.mp hlast with hlast | ⟨hnone, -⟩
        · exact eq_newline_of_getLast? hlast
        · exact absurd (List.getLast?_eq_none_iff.mp hnone) String.utf8EncodeChar_ne_nil
      subst hc
      refine ⟨String.ofList cs, text?_eq_some_iff.mpr ?_, ?_⟩
      · rw [String.toList_ofList]
        exact List.append_cancel_right h
      · rw [← String.toList_inj, htext]
        simp
  · rintro ⟨before, hbefore, rfl⟩
    rw [text?_eq_some_iff] at hbefore
    rw [String.toList_append, List.flatMap_append, hbefore]
    rfl

theorem text?_toUTF8 (text : String) : text? text.toUTF8.data.toList = some text := by
  rw [text?, Array.toArray_toList, String.fromUTF8?]
  exact dif_pos text.isValidUTF8

theorem text?_of_ascii {piece : List UInt8} (h : ∀ b ∈ piece, b.toNat < 128) :
    text? piece = some (String.ofList (piece.map Char.ofUInt8)) := by
  rw [text?_eq_some_iff, String.toList_ofList]
  induction piece with
  | nil => rfl
  | cons b piece ih =>
    obtain ⟨hb, hpiece⟩ := List.forall_mem_cons.mp h
    rw [List.map_cons, List.flatMap_cons, ih hpiece,
      utf8EncodeChar_of_ascii (c := Char.ofUInt8 b) hb]
    show [UInt8.ofNat b.toNat] ++ piece = _
    rw [UInt8.ofNat_toNat]
    rfl

/-! ## pieces of the input -/

/-- the input is cut after each line end; what comes after the last one is a piece too, unless it
is empty -/
inductive Pieces : List UInt8 → List (List UInt8) → Prop
  | nil : Pieces [] []
  | last {piece : List UInt8} (nonempty : piece ≠ []) (whole : 10 ∉ piece) : Pieces piece [piece]
  | cons {line rest : List UInt8} {ps : List (List UInt8)} (whole : 10 ∉ line)
    (others : Pieces rest ps) : Pieces (line ++ 10 :: rest) ((line ++ [10]) :: ps)

theorem lines_of_whole {line : List UInt8} (h : 10 ∉ line) (hne : line ≠ []) :
    lines line = [line] := by
  induction line with
  | nil => exact absurd rfl hne
  | cons b line ih =>
    obtain ⟨hb, hline⟩ := List.ne_and_not_mem_of_not_mem_cons h
    rw [lines, if_neg (Ne.symm hb)]
    cases line with
    | nil => rfl
    | cons c line => rw [ih hline (List.cons_ne_nil c line)]

theorem lines_append {line : List UInt8} (h : 10 ∉ line) (rest : List UInt8) :
    lines (line ++ 10 :: rest) = line :: lines rest := by
  induction line with
  | nil => rfl
  | cons b line ih =>
    obtain ⟨hb, hline⟩ := List.ne_and_not_mem_of_not_mem_cons h
    rw [List.cons_append, lines, if_neg (Ne.symm hb), ih hline]

theorem exists_pieces (input : List UInt8) : ∃ ps, Pieces input ps := by
  induction hn : input.length using Nat.strongRecOn generalizing input with
  | _ n ih =>
    subst hn
    by_cases hend : 10 ∈ input
    · obtain ⟨line, rest, rfl, hline⟩ := List.eq_append_cons_of_mem hend
      obtain ⟨ps, hps⟩ := ih rest.length (by simp; omega) rest rfl
      exact ⟨_, .cons hline hps⟩
    · by_cases hempty : input = []
      · exact ⟨[], hempty ▸ .nil⟩
      · exact ⟨[input], .last hempty hend⟩

theorem Pieces.unique {input : List UInt8} {ps qs : List (List UInt8)} (hp : Pieces input ps)
    (hq : Pieces input qs) : qs = ps := by
  induction hp generalizing qs with
  | nil =>
    generalize hinput : ([] : List UInt8) = input at hq
    cases hq with
    | nil => rfl
    | last nonempty _ => exact absurd hinput.symm nonempty
    | cons _ _ => simp at hinput
  | last nonempty whole =>
    cases hq with
    | nil => exact absurd rfl nonempty
    | last _ _ => rfl
    | cons _ _ => simp at whole
  | @cons line rest ps whole _ ih =>
    generalize hinput : line ++ 10 :: rest = input at hq
    cases hq with
    | nil => simp at hinput
    | last _ whole' => simp [← hinput] at whole'
    | @cons line' rest' qs whole' others' =>
      -- the first line is the same one
      have hlines := congrArg lines hinput
      rw [lines_append whole, lines_append whole', List.cons.injEq] at hlines
      obtain ⟨rfl, -⟩ := hlines
      obtain rfl : rest = rest' := List.tail_eq_of_cons_eq (List.append_cancel_left hinput)
      rw [ih others']

/-! ## turns -/

inductive Turn (depth : Nat) (piece : List UInt8) (s : Session) : Transcript → Session → Prop
  | unreadable (h : text? piece = none) :
    Turn depth piece s ⟨"", "Failed read line: stream did not contain valid UTF-8\n"⟩ s
  | value {text : String} {v : Value} {s' : Session} (h : text? piece = some text)
    (hrun : s.run depth (trimmed text) = some (.ok (some v), s')) :
    Turn depth piece s ⟨v.text ++ "\n", ""⟩ s'
  | silent {text : String} {s' : Session} (h : text? piece = some text)
    (hrun : s.run depth (trimmed text) = some (.ok none, s')) : Turn depth piece s ⟨"", ""⟩ s'
  | refused {text : String} {e : RunError} {s' : Session} (h : text? piece = some text)
    (hrun : s.run depth (trimmed text) = some (.error e, s')) :
    Turn depth piece s ⟨"", e.message ++ "\n"⟩ s'

inductive Turns (depth : Nat) : List (List UInt8) → Session → List Transcript → Session → Prop
  | nil (s : Session) : Turns depth [] s [] s
  | cons {piece : List UInt8} {ps : List (List UInt8)} {s t u : Session} {w : Transcript}
    {ws : List Transcript} (first : Turn depth piece s w t) (others : Turns depth ps t ws u) :
    Turns depth (piece :: ps) s (w :: ws) u

/-- some program calls a function when no more calls may be open, and the pieces before have had
their turns -/
inductive Overruns (depth : Nat) : List (List UInt8) → Session → Prop
  | here {piece : List UInt8} {s : Session} {text : String} {p : Program}
    (h : text? piece = some text) (hp : Program.ofSource (trimmed text) = .ok ⟨p, []⟩)
    (hover : (Moment.ofProgram depth s.scope p s.store).Overflows) (ps : List (List UInt8)) :
    Overruns depth (piece :: ps) s
  | later {piece : List UInt8} {ps : List (List UInt8)} {s t : Session} {w : Transcript}
    (first : Turn depth piece s w t) (others : Overruns depth ps t) : Overruns depth (piece :: ps) s

/-- some program opens more calls than any number, and the pieces before have had their turns -/
inductive RunsOn : List (List UInt8) → Session → Prop
  | here {piece : List UInt8} {s : Session} {text : String} {p : Program}
    (h : text? piece = some text) (hp : Program.ofSource (trimmed text) = .ok ⟨p, []⟩)
    (hover : ∀ depth, (Moment.ofProgram depth s.scope p s.store).Overflows)
    (ps : List (List UInt8)) : RunsOn (piece :: ps) s
  | later {piece : List UInt8} {ps : List (List UInt8)} {s t : Session} {depth : Nat}
    {w : Transcript} (first : Turn depth piece s w t) (others : RunsOn ps t) :
    RunsOn (piece :: ps) s

/-- what is written in all, when `ws` are written for the pieces -/
def spoken (ws : List Transcript) : Transcript where
  out := String.join (ws.map fun w => ">> " ++ w.out) ++ ">> " ++ "\nExited zmonkey repl\n"
  err := String.join (ws.map Transcript.err)

theorem spoken_cons (w : Transcript) (ws : List Transcript) :
    spoken (w :: ws) = ⟨cue, ""⟩ ++ w ++ spoken ws := by
  show _ = Transcript.mk (cue ++ w.out ++ (spoken ws).out) ("" ++ w.err ++ (spoken ws).err)
  simp [spoken, cue, String.append_assoc]

section
variable {depth : Nat} {piece : List UInt8} {s s' : Session} {w : Transcript}

theorem answer_of_none (h : text? piece = none) (depth : Nat) (s : Session) :
    answer depth piece s =
      some (⟨"", "Failed read line: stream did not contain valid UTF-8\n"⟩, s) := by
  rw [text?] at h
  rw [answer, h]
  rfl

theorem answer_of_text {text : String} (h : text? piece = some text) (depth : Nat) (s : Session) :
    answer depth piece s = (s.run depth (trimmed text)).map fun r => (report r.1, r.2) := by
  rw [text?] at h
  rw [answer, h]
  show (s.run depth (trimmed text)).bind _ = _
  cases s.run depth (trimmed text) <;> rfl

theorem answer_eq_some_iff : answer depth piece s = some (w, s') ↔ Turn depth piece s w s' := by
  constructor
  · intro h
    cases htext : text? piece with
    | none =>
      rw [answer_of_none htext] at h
      cases h
      exact .unreadable htext
    | some text =>
      rw [answer_of_text htext] at h
      obtain ⟨⟨result, t⟩, hrun, hreport⟩ := Option.map_eq_some_iff.mp h
      cases hreport
      match result, hrun with
      | .ok none, hrun => exact .silent htext hrun
      | .ok (some v), hrun => exact .value htext hrun
      | .error e, hrun => exact .refused htext hrun
  · intro h
    cases h with
    | unreadable htext => exact answer_of_none htext depth s
    | value htext hrun =>
      rw [answer_of_text htext, hrun]
      rfl
    | silent htext hrun =>
      rw [answer_of_text htext, hrun]
      rfl
    | refused htext hrun =>
      rw [answer_of_text htext, hrun]
      rfl

theorem answer_eq_none_iff : answer depth piece s = none ↔
    ∃ text p, text? piece = some text ∧ Program.ofSource (trimmed text) = .ok ⟨p, []⟩ ∧
      (Moment.ofProgram depth s.scope p s.store).Overflows := by
  cases htext : text? piece with
  | none => simp [answer_of_none htext]
  | some text =>
    rw [answer_of_text htext, Option.map_eq_none_iff, Session.run_eq_none_iff]
    constructor
    · rintro ⟨p, hp, hover⟩
      exact ⟨text, p, rfl, hp, hover⟩
    · rintro ⟨_, p, ⟨rfl⟩, hp, hover⟩
      exact ⟨p, hp, hover⟩

theorem Turn.unchanged (h : Turn depth piece s w s')
    (hbroken : ∀ text p, text? piece = some text → Program.ofSource (trimmed text) ≠ .ok ⟨p, []⟩) :
    s' = s := by
  have hsame : ∀ {text : String} {result : Except RunError (Option Value)},
      text? piece = some text → s.run depth (trimmed text) = some (result, s') → s' = s := by
    intro text result htext hrun
    rcases Session.run_cases hrun with ⟨-, -, hs⟩ | ⟨p, -, hp, -⟩
    · exact hs
    · exact absurd hp (hbroken text p htext)
  cases h with
  | unreadable _ => rfl
  | value htext hrun => exact hsame htext hrun
  | silent htext hrun => exact hsame htext hrun
  | refused htext hrun => exact hsame htext hrun

theorem Turn.mono (h : Turn depth piece s w s') {depth' : Nat} (hd : depth ≤ depth') :
    Turn depth' piece s w s' := by
  cases h with
  | unreadable h => exact .unreadable h
  | value h hrun => exact .value h (Session.run_mono hd hrun)
  | silent h hrun => exact .silent h (Session.run_mono hd hrun)
  | refused h hrun => exact .refused h (Session.run_mono hd hrun)

/-- a bound on the open calls decides whether there is a turn, but not what happens in it -/
theorem Turn.unique (h : Turn depth piece s w s') {depth' : Nat} {w' : Transcript} {t : Session}
    (h' : Turn depth' piece s w' t) : t = s' := by
  have hsame := answer_eq_some_iff.mpr (h.mono (Nat.le_max_left depth depth'))
  have hother := answer_eq_some_iff.mpr (h'.mono (Nat.le_max_right depth depth'))
  cases hsame.symm.trans hother
  rfl

end

section
variable {depth : Nat} {ps : List (List UInt8)} {s s' : Session}

theorem Turns.mono {ws : List Transcript} (h : Turns depth ps s ws s') {depth' : Nat}
    (hd : depth ≤ depth') : Turns depth' ps s ws s' := by
  induction h with
  | nil s => exact .nil s
  | cons first _ ih => exact .cons (first.mono hd) ih

theorem runLines_eq_some_iff {written : Transcript} : runLines depth ps s = some written ↔
    ∃ ws s', Turns depth ps s ws s' ∧ written = spoken ws := by
  induction ps generalizing s written with
  | nil =>
    constructor
    · intro h
      cases h
      exact ⟨[], s, .nil s, rfl⟩
    · rintro ⟨ws, s', hturns, rfl⟩
      cases hturns
      rfl
  | cons piece ps ih =>
    rw [runLines]
    constructor
    · intro h
      obtain ⟨⟨w, t⟩, hfirst, h⟩ := Option.bind_eq_some_iff.mp h
      obtain ⟨others, hothers, hwritten⟩ := Option.bind_eq_some_iff.mp h
      obtain ⟨ws, u, hturns, rfl⟩ := ih.mp hothers
      refine ⟨w :: ws, u, .cons (answer_eq_some_iff.mp hfirst) hturns, ?_⟩
      rw [spoken_cons]
      exact (Option.some.inj hwritten).symm
    · rintro ⟨ws, s', hturns, rfl⟩
      cases hturns with
      | cons first others =>
        apply Option.bind_eq_some_iff.mpr
        refine ⟨_, answer_eq_some_iff.mpr first, Option.bind_eq_some_iff.mpr ?_⟩
        refine ⟨_, ih.mpr ⟨_, _, others, rfl⟩, ?_⟩
        rw [spoken_cons]
        rfl

theorem runLines_eq_none_iff : runLines depth ps s = none ↔ Overruns depth ps s := by
  induction ps generalizing s with
  | nil =>
    constructor
    · intro h
      cases h
    · intro h
      cases h
  | cons piece ps ih =>
    rw [runLines]
    constructor
    · intro h
      cases hfirst : answer depth piece s with
      | none =>
        obtain ⟨text, p, htext, hp, hover⟩ := answer_eq_none_iff.mp hfirst
        exact .here htext hp hover ps
      | some r =>
        obtain ⟨w, t⟩ := r
        refine .later (answer_eq_some_iff.mp hfirst) (ih.mp ?_)
        cases hothers : runLines depth ps t with
        | none => rfl
        | some others => simp [hfirst, hothers] at h
    · intro h
      cases h with
      | here htext hp hover =>
        have hnone := answer_eq_none_iff.mpr ⟨_, _, htext, hp, hover⟩
        rw [hnone]
        rfl
      | later first others =>
        rw [answer_eq_some_iff.mpr first]
        show (runLines depth ps _).bind _ = none
        rw [ih.mpr others]
        rfl

/-- with a smaller bound there are all the more calls beyond it -/
theorem Overruns.anti (h : Overruns depth ps s) {depth' : Nat} (hd : depth' ≤ depth) :
    Overruns depth' ps s := by
  rw [← runLines_eq_none_iff] at h ⊢
  refine Option.eq_none_iff_forall_ne_some.mpr fun written hwritten => ?_
  obtain ⟨ws, s', hturns, hspoken⟩ := runLines_eq_some_iff.mp hwritten
  rw [runLines_eq_some_iff.mpr ⟨ws, s', hturns.mono hd, hspoken⟩] at h
  cases h

theorem RunsOn.overruns (h : RunsOn ps s) (depth : Nat) : Overruns depth ps s := by
  induction h with
  | here h hp hover ps => exact .here h hp (hover depth) ps
  | @later piece ps s t _ _ first _ ih =>
    cases hanswer : answer depth piece s with
    | none =>
      obtain ⟨text, p, htext, hp, hover⟩ := answer_eq_none_iff.mp hanswer
      exact .here htext hp hover ps
    | some r =>
      have hturn := answer_eq_some_iff.mp hanswer
      rw [first.unique hturn] at hturn
      exact .later hturn ih

/-- if there is a piece at fault for each bound, then one piece is at fault for all of them -/
theorem runsOn_iff : RunsOn ps s ↔ ∀ depth, Overruns depth ps s := by
  refine ⟨RunsOn.overruns, fun h => ?_⟩
  induction ps generalizing s with
  | nil => cases h 0
  | cons piece ps ih =>
    by_cases hturn : ∃ depth w t, Turn depth piece s w t
    · obtain ⟨depth, w, t, first⟩ := hturn
      refine .later first (ih fun depth' => ?_)
      -- with both bounds the first piece has its turn, so the fault is with a later one
      have hmax := first.mono (Nat.le_max_left depth depth')
      cases h (max depth depth') with
      | here htext hp hover =>
        have hnone := answer_eq_none_iff.mpr ⟨_, _, htext, hp, hover⟩
        rw [answer_eq_some_iff.mpr hmax] at hnone
        cases hnone
      | later first' others =>
        rw [hmax.unique first'] at others
        exact others.anti (Nat.le_max_right depth depth')
    · have hnone : ∀ depth, answer depth piece s = none := fun depth =>
        Option.eq_none_iff_forall_ne_some.mpr fun r hr =>
          hturn ⟨depth, r.1, r.2, answer_eq_some_iff.mp hr⟩
      obtain ⟨text, p, htext, hp, -⟩ := answer_eq_none_iff.mp (hnone 0)
      refine .here htext hp (fun depth => ?_) ps
      obtain ⟨_, _, htext', hp', hover⟩ := answer_eq_none_iff.mp (hnone depth)
      obtain rfl := Option.some.inj (htext.symm.trans htext')
      cases hp.symm.trans hp'
      exact hover

end

/-! ## the whole input -/

theorem answer_newline (depth : Nat) (line : List UInt8) (s : Session) :
    answer depth (line ++ [10]) s = answer depth line s := by
  have hpiece := text?_newline line
  cases htext : text? line with
  | none =>
    rw [htext, Option.map_none] at hpiece
    rw [answer_of_none hpiece, answer_of_none htext]
  | some text =>
    rw [htext, Option.map_some] at hpiece
    have htrim : trimmed (text ++ "\n") = trimmed text := by
      rw [trimmed, String.toList_append]
      exact congrArg String.ofList (trimBlank_newline text.toList)
    rw [answer_of_text hpiece, answer_of_text htext, htrim]

theorem Pieces.runLines_eq {input : List UInt8} {ps : List (List UInt8)} (h : Pieces input ps)
    (depth : Nat) (s : Session) : runLines depth (lines input) s = runLines depth ps s := by
  induction h generalizing s with
  | nil => rfl
  | last nonempty whole => rw [lines_of_whole whole nonempty]
  | cons whole _ ih =>
    rw [lines_append whole, runLines, runLines, answer_newline]
    simp only [ih]

/-- **The prompt runs the pieces of its input one after the other in one session.**  The input is
cut into pieces in one way.  For each piece the cue is written, and then its value if it gives one;
the farewell comes after a last cue.  A piece that is not UTF-8 or whose run fails has its message
in the error output.

Not every input is read to its end: with a bound on the calls that may be open, the prompt ends
unless the program of some piece opens more, and with a larger bound the same is written.  There is
a bound with which it ends, unless the program of one of the pieces, after the turns of those before
it, opens more calls than any number.

A piece without a program leaves the session as it is, and trimming an ASCII piece without vertical
tab and form feed does not change what its run gives. -/
theorem runs_piece_by_piece (input : List UInt8) :
    ∃ ps, (∀ qs, Pieces input qs ↔ qs = ps) ∧
      (∀ depth written, run depth input = some written ↔
        ∃ ws s, Turns depth ps Session.start ws s ∧ written = spoken ws) ∧
      (∀ depth, run depth input = none ↔ Overruns depth ps Session.start) ∧
      (∀ depth depth' written, depth ≤ depth' → run depth input = some written →
        run depth' input = some written) ∧
      ((¬ ∃ depth written, run depth input = some written) ↔ RunsOn ps Session.start) ∧
      (∀ depth piece s w s', Turn depth piece s w s' →
        (∀ text p, text? piece = some text →
          Program.ofSource (trimmed text) ≠ .ok ⟨p, []⟩) → s' = s) ∧
      ∀ piece : List UInt8, (∀ b ∈ piece, b < 128 ∧ b ≠ 11 ∧ b ≠ 12) →
        ∃ text, text? piece = some text ∧
          ∀ depth s, Session.run depth (trimmed text) s = Session.run depth text s := by
  obtain ⟨ps, hps⟩ := exists_pieces input
  have hturns : ∀ depth written, run depth input = some written ↔
      ∃ ws s, Turns depth ps Session.start ws s ∧ written = spoken ws := by
    intro depth written
    rw [run, hps.runLines_eq, runLines_eq_some_iff]
  have hover : ∀ depth, run depth input = none ↔ Overruns depth ps Session.start := by
    intro depth
    rw [run, hps.runLines_eq, runLines_eq_none_iff]
  refine ⟨ps, ?_, hturns, hover, ?_, ?_, ?_, ?_⟩
  · intro qs
    constructor
    · intro hqs
      exact hps.unique hqs
    · intro h
      exact h ▸ hps
  · intro depth depth' written hd hrun
    obtain ⟨ws, s, h, hwritten⟩ := (hturns depth written).mp hrun
    exact (hturns depth' written).mpr ⟨ws, s, h.mono hd, hwritten⟩
  · rw [runsOn_iff, not_exists]
    refine forall_congr' fun depth => ?_
    rw [← hover, Option.eq_none_iff_forall_ne_some, not_exists]
  · intro depth piece s w s' hturn hbroken
    exact hturn.unchanged hbroken
  · intro piece hpiece
    refine ⟨_, text?_of_ascii fun b hb => (hpiece b hb).1, fun depth s => run_trimmed ?_ depth s⟩
    intro c hc
    rw [String.toList_ofList] at hc
    obtain ⟨b, hb, rfl⟩ := List.mem_map.mp hc
    obtain ⟨hascii, h11, h12⟩ := hpiece b hb
    exact ⟨hascii, fun h => h11 (UInt8.toNat_inj.mp h), fun h => h12 (UInt8.toNat_inj.mp h)⟩

/-- a function that calls itself is called: the prompt does not end, however many calls may be
open -/
theorem self_call_never_ends :
    let source := "let f = fn() \x7b f() \x7d; f()\n"
    ¬ ∃ depth written, run depth source.toUTF8.data.toList = some written := by
  intro source
  let call : Stmt := .expr (.call (.name "f") [])
  let f : Closure := ⟨0, [], [call], 0⟩
  let t : Store := ⟨#[⟨[("f", .func f)], none⟩], 1⟩
  have hwhole : 10 ∉ "let f = fn() \x7b f() \x7d; f()".toUTF8.data.toList := by decide +kernel
  have hpieces : Pieces source.toUTF8.data.toList [source.toUTF8.data.toList] := .cons hwhole .nil
  have hprogram : Program.ofSource (trimmed source) =
      .ok ⟨[.bind "f" (.func [] [call]), call], []⟩ := by decide +kernel
  rintro ⟨depth, written, hrun⟩
  have hcall : Moment.Overflows ⟨depth, 0, .call f [], t⟩ :=
    Closure.overflows_of_self_call rfl rfl depth 0 (by decide) (by decide +kernel)
  have hover : (Moment.ofProgram depth Session.start.scope [.bind "f" (.func [] [call]), call]
      Session.start.store).Overflows := by
    have hlet : (Stmt.bind "f" (.func [] [call])).eval (Closure.call depth) 0
        Session.start.store = .ok none t := rfl
    have hname : (Expr.name "f").eval (Closure.call depth) 0 t = .ok (.func f) t := by
      rw [Expr.eval, Evaluation.get, Store.get?]
      rfl
    exact Moment.Part.overflows (.rest none hlet (by simp)) (Moment.Part.overflows (.first none)
      (Moment.Part.overflows .value (Moment.Part.overflows (.call hname rfl) hcall)))
  have hnone := runLines_eq_none_iff.mpr (.here (text?_toUTF8 source) hprogram hover [])
  rw [run, hpieces.runLines_eq, hnone] at hrun
  cases hrun

/-- a line with a `let`, one with a value and layout around it, one that is refused, one that is not
UTF-8, and a last one without a line end, which finds the binding of the first one -/
theorem runs_piece_by_piece_mixed :
    let input := "let a = 2;\n\ta + 3 \nlet 3\n".toUTF8.data.toList ++ [255, 10, 97]
    run 0 input = some ⟨">> >> 5\n>> >> >> 2\n>> \nExited zmonkey repl\n",
      "Parser errors:\n\texpected next token to be IDENT, got INT instead\n" ++
        "Failed read line: stream did not contain valid UTF-8\n"⟩ := by
  intro input
  obtain ⟨ps, hps, hrun, -, -, -, -, htrim⟩ := runs_piece_by_piece input
  have hfirst : 10 ∉ "let a = 2;".toUTF8.data.toList := by decide +kernel
  have hsecond : 10 ∉ "\ta + 3 ".toUTF8.data.toList := by decide +kernel
  have hthird : 10 ∉ "let 3".toUTF8.data.toList := by decide +kernel
  have hfourth : 10 ∉ [(255 : UInt8)] := by decide
  obtain rfl : ["let a = 2;\n".toUTF8.data.toList, "\ta + 3 \n".toUTF8.data.toList,
      "let 3\n".toUTF8.data.toList, [255, 10], [97]] = ps := by
    refine (hps _).mp (.cons hfirst (.cons hsecond (.cons hthird (.cons hfourth ?_))))
    exact .last (by decide) (by decide)
  let s : Session := ⟨⟨#[⟨[("a", .int 2)], none⟩], 0⟩, 0⟩
  have hlet : Session.start.run 0 (trimmed "let a = 2;\n") = some (.ok none, s) := by
    decide +kernel
  have hsum : s.run 0 (trimmed "\ta + 3 \n") = some (.ok (some (.int 5)), s) := by
    obtain ⟨text, htext, hsame⟩ := htrim "\ta + 3 \n".toUTF8.data.toList (by decide +kernel)
    obtain rfl := Option.some.inj ((text?_toUTF8 _).symm.trans htext)
    rw [hsame]
    decide +kernel
  have hrefused : s.run 0 (trimmed "let 3\n") =
      some (.error (.parse [.unexpected .name .number]), s) := by
    decide +kernel
  have hname : s.run 0 (trimmed "a") = some (.ok (some (.int 2)), s) := by decide +kernel
  have hnone : text? [255, 10] = none := by decide +kernel
  have hturns := Turns.cons (.silent (text?_toUTF8 _) hlet) (.cons (.value (text?_toUTF8 _) hsum)
    (.cons (.refused (text?_toUTF8 _) hrefused) (.cons (.unreadable hnone)
      (.cons (.value (text?_toUTF8 "a") hname) (.nil s)))))
  exact (hrun 0 _).mpr ⟨_, _, hturns, by decide +kernel⟩

end Prompt

end MonkeyLang
