import MonkeyLang.Proofs.Token.Munch

/-!
# A cursor over the bytes of a text

A scanner knows the text that is left.  A `Cursor` reads the same tokens with less: it has the bytes
of the text, the current byte with its place, and the place of the byte to be read next.  It moves
on by one byte at a time (`readByte`), and the text of a token is a piece of the bytes (`slice?`),
which is there only if its ends are in order and in range.

* `Cursor.skip p`      moves on over the bytes of a class; it ends because 0 is in no class and the
                       byte at the end is 0;
* `Cursor.seek n`      the cursor on byte `n`, with everything as it should be there;
* `Cursor.Consistent`  the cursor is on some byte in this way, or at the end;
* `Cursor.scanner`     the scanner that is at the same place;
* `Cursor.Consistent.nextToken`   a cursor in order takes a piece of the text that is there, and reads
                       what the scanner reads.
-/

namespace MonkeyLang

structure Cursor where
  bytes : List UInt8
  position : Nat
  /-- the place of the byte that is read next -/
  readPosition : Nat
  /-- the byte at `position`, 0 at the end -/
  current : UInt8
  /-- the end has been reported as an item -/
  finished : Bool

namespace Cursor

/-! ## moving on -/

def byteAt (c : Cursor) (i : Nat) : UInt8 := c.bytes[i]?.getD 0

/-- moves on by one byte, and stays at the end -/
def readByte (c : Cursor) : Cursor :=
  let position := min c.readPosition c.bytes.length
  { c with current := c.byteAt c.readPosition, position, readPosition := position + 1 }

def ofSource? (source : String) : Except LexError Cursor :=
  match firstUnsupported 0 source.toList with
  | some e => .error e
  | none => .ok (readByte ⟨source.toByteArray.data.toList, 0, 0, 0, false⟩)

def character (c : Cursor) : Char := Char.ofUInt8 c.current

def peek (c : Cursor) : Char := Char.ofUInt8 (c.byteAt c.readPosition)

/-- how far a loop can go that stops at the end -/
def room (c : Cursor) : Nat :=
  if c.current = 0 then 0 else c.bytes.length - c.readPosition + 1

theorem room_readByte_lt {c : Cursor} (h : c.current ≠ 0) : c.readByte.room < c.room := by
  by_cases hread : c.readPosition < c.bytes.length
  · have hmin : min c.readPosition c.bytes.length = c.readPosition := Nat.min_eq_left (by omega)
    rw [room, room, if_neg h]
    split
    · omega
    · simp only [readByte, hmin]
      omega
  · have hzero : c.readByte.current = 0 := by
      simp only [readByte, byteAt, List.getElem?_eq_none (Nat.le_of_not_lt hread)]
      rfl
    rw [room, room, if_neg h, if_pos hzero]
    omega

/-- moves on over the bytes of a class, to which 0 does not belong -/
def skip (p : Char → Bool) (hp : p '\x00' = false) (c : Cursor) : Cursor :=
  if h : p c.character = true then
    have : c.current ≠ 0 := fun h0 => by
      rw [character, h0] at h
      exact absurd (h.symm.trans hp) (by decide)
    skip p hp c.readByte
  else c
termination_by c.room
decreasing_by exact room_readByte_lt this

section
variable {p : Char → Bool} (hp : p '\x00' = false) {c : Cursor}

theorem skip_of_pos (h : p c.character = true) : c.skip p hp = c.readByte.skip p hp := by
  rw [skip, dif_pos h]

theorem skip_of_neg (h : p c.character = false) : c.skip p hp = c := by
  rw [skip, dif_neg (by rw [h]; decide)]

end

/-! ## reading a token -/

/-- the piece of the text from `start` up to the current byte -/
def slice? (c : Cursor) (start : Nat) : Option String :=
  if start ≤ c.position ∧ c.position ≤ c.bytes.length then
    some (String.ofList (((c.bytes.take c.position).drop start).map Char.ofUInt8))
  else none

/-- the token from `start` up to the current byte, whose kind its text may tell -/
def lexemeFrom (start : Nat) (kind : String → Kind) (c : Cursor) :
    Option ((Kind × String) × Cursor) := do
  let text ← c.slice? start
  return ((kind text, text), c)

/-- whether the next byte is the expected one; if so, moves on to it -/
def matchNext (expected : Char) (c : Cursor) : Bool × Cursor :=
  if c.peek = expected then (true, c.readByte) else (false, c)

/-- the symbol that starts here, and the cursor on its last byte -/
def symbol? (c : Cursor) : Option (Symbol × Cursor) :=
  match c.character with
  | '=' =>
    let (long, c) := c.matchNext '='
    some (if long then .equal else .assign, c)
  | '!' =>
    let (long, c) := c.matchNext '='
    some (if long then .notEqual else .bang, c)
  | ch => (Symbol.ofChar? ch).map fun s => (s, c)

/-- the token that starts with the current byte, which is not layout -/
def tokenHere (c : Cursor) : Option ((Kind × String) × Cursor) :=
  match c.symbol? with
  | some (s, last) => last.readByte.lexemeFrom c.position fun _ => .symbol s
  | none =>
    if c.current = 0 ∧ c.bytes.length ≤ c.position then some ((.eof, ""), c)
    else if isLetter c.character then
      (c.skip isLetter rfl).lexemeFrom c.position fun text => (Token.ofWord text).kind
    else if c.character.isDigit then
      (c.skip Char.isDigit rfl).lexemeFrom c.position fun _ => .number
    else c.readByte.lexemeFrom c.position fun _ => .illegal

/-- reads a token, or the end as often as one likes; nothing if a piece of the text is not there -/
def nextToken (c : Cursor) : Option ((Kind × String) × Cursor) := (c.skip isLayout rfl).tokenHere

def nextItem (c : Cursor) : Option (Option (Kind × String) × Cursor) :=
  if c.finished then some (none, c)
  else do
    let (token, c) ← c.nextToken
    return (some token, { c with finished := token.1 = .eof })

/-! ## places of the cursor -/

section
variable (c : Cursor)

/-- the characters that the bytes stand for -/
def text : List Char := c.bytes.map Char.ofUInt8

/-- the cursor on byte `n` -/
def seek (n : Nat) : Cursor :=
  { c with position := n, readPosition := n + 1, current := c.byteAt n }

/-- the scanner at the same place -/
def scanner : Scanner := ⟨c.text, c.position, c.finished⟩

theorem length_text : c.text.length = c.bytes.length := List.length_map _

theorem character_byteAt (n : Nat) : Char.ofUInt8 (c.byteAt n) = c.text[n]?.getD '\x00' := by
  rw [byteAt, text, List.getElem?_map]
  cases c.bytes[n]? <;> rfl

theorem readByte_seek {n : Nat} (h : n < c.bytes.length) : (c.seek n).readByte = c.seek (n + 1) := by
  have hmin : min (n + 1) c.bytes.length = n + 1 := Nat.min_eq_left h
  simp only [seek, readByte, byteAt, hmin]

end

section
variable {c : Cursor} {n : Nat} {ch : Char} {cs : List Char}

theorem lt_of_drop (h : c.text.drop n = ch :: cs) : n < c.bytes.length := by
  have hlength := congrArg List.length h
  rw [List.length_drop, length_text, List.length_cons] at hlength
  omega

theorem drop_succ (h : c.text.drop n = ch :: cs) : c.text.drop (n + 1) = cs := by
  rw [← List.drop_drop, h]
  rfl

theorem character_seek (h : c.text.drop n = ch :: cs) : (c.seek n).character = ch := by
  show Char.ofUInt8 (c.byteAt n) = ch
  rw [character_byteAt, ← List.head?_drop, h]
  rfl

theorem character_seek_end (h : c.text.drop n = []) : (c.seek n).character = '\x00' := by
  show Char.ofUInt8 (c.byteAt n) = '\x00'
  rw [character_byteAt, ← List.head?_drop, h]
  rfl

theorem peek_seek (h : c.text.drop n = ch :: cs) :
    (c.seek n).peek = cs.head?.getD '\x00' := by
  show Char.ofUInt8 (c.byteAt (n + 1)) = _
  rw [character_byteAt, ← List.head?_drop, drop_succ h]

/-- a loop stops behind the longest run of its class -/
theorem skip_seek {p : Char → Bool} (hp : p '\x00' = false) (n : Nat) :
    (c.seek n).skip p hp = c.seek (n + ((c.text.drop n).takeWhile p).length) := by
  induction hcs : c.text.drop n generalizing n with
  | nil =>
    rw [skip_of_neg hp (by rw [character_seek_end hcs, hp])]
    rfl
  | cons ch cs ih =>
    rw [List.takeWhile_cons]
    cases hch : p ch with
    | true =>
      rw [skip_of_pos hp (by rw [character_seek hcs, hch]), readByte_seek c (lt_of_drop hcs),
        ih (n + 1) (drop_succ hcs), if_pos rfl, List.length_cons]
      congr 1
      omega
    | false =>
      rw [skip_of_neg hp (by rw [character_seek hcs, hch])]
      rfl

theorem drop_takeWhile (p : Char → Bool) (n : Nat) :
    c.text.drop (n + ((c.text.drop n).takeWhile p).length) = (c.text.drop n).dropWhile p := by
  have hsplit := List.takeWhile_append_dropWhile (p := p) (l := c.text.drop n)
  calc c.text.drop (n + ((c.text.drop n).takeWhile p).length)
      = (c.text.drop n).drop ((c.text.drop n).takeWhile p).length := (List.drop_drop ..).symm
    _ = ((c.text.drop n).takeWhile p ++ (c.text.drop n).dropWhile p).drop
          ((c.text.drop n).takeWhile p).length := by rw [hsplit]
    _ = (c.text.drop n).dropWhile p := List.drop_left

/-- what is spelled up to the cursor is the piece that it takes -/
theorem lexemeFrom_seek (hn : n ≤ c.bytes.length) {word : String} {rest : List Char}
    (h : c.text.drop n = word.toList ++ rest) (kind : String → Kind) :
    (c.seek (n + word.toList.length)).lexemeFrom n kind =
      some ((kind word, word), c.seek (n + word.toList.length)) := by
  have hlength := congrArg List.length h
  rw [List.length_drop, length_text, List.length_append] at hlength
  have hrange : n ≤ n + word.toList.length ∧ n + word.toList.length ≤ c.bytes.length := by omega
  have hpiece : ((c.bytes.take (n + word.toList.length)).drop n).map Char.ofUInt8 = word.toList := by
    rw [List.map_drop, List.map_take]
    show (c.text.take (n + word.toList.length)).drop n = word.toList
    rw [List.drop_take, Nat.add_sub_cancel_left, h, List.take_left]
  have hslice : (c.seek (n + word.toList.length)).slice? n = some word := by
    refine (if_pos hrange).trans ?_
    show some (String.ofList (((c.bytes.take (n + word.toList.length)).drop n).map _)) = _
    rw [hpiece, String.ofList_toList]
  rw [lexemeFrom, hslice]
  rfl

/-! ## symbols -/

theorem symbol?_pair {s : Symbol} (h : c.text.drop n = ch :: '=' :: cs)
    (hs : ch = '=' ∧ s = .equal ∨ ch = '!' ∧ s = .notEqual) :
    (c.seek n).symbol? = some (s, c.seek (n + 1)) := by
  have hpeek : (c.seek n).peek = '=' := peek_seek h
  have hnext : (c.seek n).matchNext '=' = (true, c.seek (n + 1)) := by
    rw [matchNext, if_pos hpeek, readByte_seek c (lt_of_drop h)]
  rcases hs with ⟨rfl, rfl⟩ | ⟨rfl, rfl⟩
  · simp only [symbol?, character_seek h, hnext, if_pos]
  · simp only [symbol?, character_seek h, hnext, if_pos]

theorem symbol?_single {s : Symbol} (h : c.text.drop n = ch :: cs)
    (hs : Symbol.ofChar? ch = some s) (hpair : ch = '=' ∨ ch = '!' → cs.head? ≠ some '=') :
    (c.seek n).symbol? = some (s, c.seek n) := by
  have hnext : ch = '=' ∨ ch = '!' → (c.seek n).matchNext '=' = (false, c.seek n) := by
    intro hch
    have hpeek : (c.seek n).peek ≠ '=' := by
      rw [peek_seek h]
      intro heq
      apply hpair hch
      cases hcs : cs.head? with
      | none =>
        rw [hcs] at heq
        cases heq
      | some d =>
        rw [hcs] at heq
        exact congrArg some heq
    rw [matchNext, if_neg hpeek]
  unfold symbol?
  rw [character_seek h]
  split
  case h_1 =>
    rw [hnext (.inl rfl)]
    cases hs
    rfl
  case h_2 =>
    rw [hnext (.inr rfl)]
    cases hs
    rfl
  case h_3 =>
    rw [hs]
    rfl

theorem symbol?_none (h : Symbol.ofChar? c.character = none) : c.symbol? = none := by
  unfold symbol?
  split
  case h_1 heq =>
    rw [heq] at h
    cases h
  case h_2 heq =>
    rw [heq] at h
    cases h
  case h_3 =>
    rw [h]
    rfl

/-! ## tokens -/

/-- a cursor in front of a token reads it, and stops behind it -/
theorem tokenHere_seek {t : Token} {rest : List Char} (h : c.text.drop n = ch :: cs)
    (hread : lexeme ch cs = (t, rest)) :
    (c.seek n).tokenHere = some ((t.kind, t.text), c.seek (n + t.text.toList.length)) := by
  have hlt := lt_of_drop h
  have htext : c.text.drop n = t.text.toList ++ rest := h.trans (lexeme_spells hread).1
  have hfrom := lexemeFrom_seek (Nat.le_of_lt hlt) htext
  by_cases hpair : (ch = '=' ∨ ch = '!') ∧ cs.head? = some '='
  · obtain ⟨hch, hcs⟩ := hpair
    obtain ⟨cs, rfl⟩ := List.head?_eq_some_iff.mp hcs
    have hnext := readByte_seek c (lt_of_drop (drop_succ h))
    rcases hch with rfl | rfl
    · cases hread
      rw [tokenHere, symbol?_pair h (.inl ⟨rfl, rfl⟩)]
      dsimp only
      rw [hnext]
      exact hfrom _
    · cases hread
      rw [tokenHere, symbol?_pair h (.inr ⟨rfl, rfl⟩)]
      dsimp only
      rw [hnext]
      exact hfrom _
  cases hs : Symbol.ofChar? ch with
  | some s =>
    have hone : ch = '=' ∨ ch = '!' → cs.head? ≠ some '=' := fun hch hcs => hpair ⟨hch, hcs⟩
    rw [lexeme_of_symbol hs hone] at hread
    cases hread
    rw [tokenHere, symbol?_single h hs hone]
    dsimp only
    rw [readByte_seek c hlt]
    have hlength : (Token.symbol s).text.toList.length = 1 :=
      congrArg List.length (Symbol.text_of_ofChar? hs)
    rw [hlength] at hfrom ⊢
    exact hfrom _
  | none =>
    have hnone : (c.seek n).symbol? = none := symbol?_none (by rw [character_seek h, hs])
    have hinside : ¬ ((c.seek n).current = 0 ∧ (c.seek n).bytes.length ≤ (c.seek n).position) :=
      fun hend => Nat.not_lt_of_le hend.2 hlt
    rw [tokenHere, hnone]
    dsimp only
    rw [if_neg hinside, character_seek h]
    -- a class to which the first character belongs: the loop stops where the token ends
    have hrun : ∀ {p : Char → Bool} (hp : p '\x00' = false), p ch = true →
        (c.seek n).skip p hp =
          c.seek (n + (String.ofList (ch :: cs.takeWhile p)).toList.length) := by
      intro p hp hch
      rw [skip_seek hp, h, List.takeWhile_cons, if_pos hch, String.toList_ofList]
    cases hl : isLetter ch with
    | true =>
      rw [lexeme_of_letter hl] at hread
      cases hread
      rw [Token.text_ofWord] at hfrom ⊢
      rw [if_pos rfl, hrun rfl hl]
      exact hfrom _
    | false =>
      rw [if_neg Bool.false_ne_true]
      cases hd : ch.isDigit with
      | true =>
        rw [lexeme_of_digit hd] at hread
        cases hread
        rw [if_pos rfl, hrun rfl hd]
        exact hfrom _
      | false =>
        rw [lexeme_of_other hs hl hd] at hread
        cases hread
        have hlength : (Token.illegal ch).text.toList.length = 1 := by
          simp [Token.text]
        rw [hlength] at hfrom ⊢
        rw [if_neg Bool.false_ne_true, readByte_seek c hlt]
        exact hfrom _

theorem tokenHere_end (h : c.text.drop n = []) :
    (c.seek n).tokenHere = some ((.eof, ""), c.seek n) := by
  have hlength := congrArg List.length h
  rw [List.length_drop, length_text, List.length_nil] at hlength
  have hnone : (c.seek n).symbol? = none := symbol?_none (by rw [character_seek_end h]; rfl)
  have hzero : (c.seek n).current = 0 := by
    show c.bytes[n]?.getD 0 = 0
    rw [List.getElem?_eq_none (by omega)]
    rfl
  have hend : (c.seek n).bytes.length ≤ (c.seek n).position := by
    show c.bytes.length ≤ n
    omega
  rw [tokenHere, hnone]
  exact if_pos ⟨hzero, hend⟩

end

/-! ## cursors and scanners -/

/-- position, place to be read next and current byte belong together -/
structure Consistent (c : Cursor) : Prop where
  position_le : c.position ≤ c.bytes.length
  readPosition : c.readPosition = c.position + 1
  current : c.current = c.byteAt c.position

section
variable {c : Cursor}

theorem consistent_seek {n : Nat} (h : n ≤ c.bytes.length) : (c.seek n).Consistent := ⟨h, rfl, rfl⟩

theorem Consistent.eq_seek (h : c.Consistent) : c = c.seek c.position := by
  obtain ⟨bytes, position, readPosition, current, finished⟩ := c
  obtain ⟨-, hread, hcurrent⟩ := h
  simp only at hread hcurrent
  rw [hread, hcurrent]
  rfl

theorem Consistent.skip_layout (h : c.Consistent) :
    ∃ n ≤ c.bytes.length, c.skip isLayout rfl = c.seek n ∧
      nextLexeme (c.text.drop n) = nextLexeme c.scanner.rest ∧
      ∀ ch ∈ (c.text.drop n).head?, isLayout ch = false := by
  have hplace := skip_seek (c := c) (p := isLayout) rfl c.position
  have hdrop := drop_takeWhile (c := c) isLayout c.position
  rw [← h.eq_seek] at hplace
  refine ⟨_, ?_, hplace, ?_, ?_⟩
  · have hspan := (List.takeWhile_sublist isLayout (l := c.text.drop c.position)).length_le
    rw [List.length_drop, length_text] at hspan
    have hle := h.position_le
    omega
  · have hgap : IsGap ((c.text.drop c.position).takeWhile isLayout) :=
      fun d hd => List.all_eq_true.mp List.all_takeWhile d hd
    rw [hdrop, ← nextLexeme_gap hgap, List.takeWhile_append_dropWhile]
    rfl
  · rw [hdrop]
    exact head?_dropWhile _

/-- reading a token is one step of the scanner at the same place -/
theorem Consistent.nextToken (h : c.Consistent) :
    ∃ n ≤ c.bytes.length, c.nextToken = some (Scanner.report c.scanner.advance.1, c.seek n) ∧
      c.scanner.advance.2 = (c.seek n).scanner := by
  obtain ⟨n, hn, hplace, hlexeme, hfirst⟩ := h.skip_layout
  rw [Cursor.nextToken, hplace, Scanner.advance, ← hlexeme]
  cases hrest : c.text.drop n with
  | nil =>
    have hlength := congrArg List.length hrest
    rw [List.length_drop, length_text, List.length_nil] at hlength
    obtain rfl : n = c.bytes.length := by omega
    refine ⟨_, hn, tokenHere_end hrest, ?_⟩
    show (⟨c.text, c.text.length, c.finished⟩ : Scanner) = ⟨c.text, c.bytes.length, c.finished⟩
    rw [length_text]
  | cons ch cs =>
    have hch : isLayout ch = false := hfirst ch (by rw [hrest]; rfl)
    have hnext : nextLexeme (ch :: cs) = some (lexeme ch cs) := by
      rw [nextLexeme, if_neg (by rw [hch]; decide)]
    cases hread : lexeme ch cs with
    | mk t rest =>
      have hlength := congrArg List.length (hrest.trans (lexeme_spells hread).1)
      rw [List.length_drop, length_text, List.length_append] at hlength
      have hlt := lt_of_drop hrest
      rw [hnext, hread]
      refine ⟨_, ?_, tokenHere_seek hrest hread, ?_⟩
      · omega
      · show (⟨c.text, c.text.length - rest.length, c.finished⟩ : Scanner) =
          ⟨c.text, n + t.text.toList.length, c.finished⟩
        rw [length_text]
        congr 1
        omega

end

end Cursor

end MonkeyLang
