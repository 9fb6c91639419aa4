import MonkeyLang.Token

/-!
# Reading tokens off a text

* `lexeme c cs`   the token that starts with `c`, taken as long as possible, and the text after it;
* `nextLexeme`    the same after skipping layout, nothing when only layout is left;
* `tokens`        all tokens of a text;
* `tokenize`      `tokens`, for a text of ASCII characters only; otherwise the first character
                  outside ASCII with its place.
-/

namespace MonkeyLang

/-! ## classes of characters -/

/-- layout separates tokens and is no part of one -/
def isLayout (c : Char) : Bool := c == ' ' || c == '\t' || c == '\r' || c == '\n'

/-- the characters of names and keywords; digits are not among them -/
def isLetter (c : Char) : Bool := c.isAlpha || c == '_'

/-! ## one token -/

/-- the longest token that starts with `c`, and the text after it -/
def lexeme (c : Char) (cs : List Char) : Token × List Char :=
  match c, cs with
  | '=', '=' :: rest => (.symbol .equal, rest)
  | '!', '=' :: rest => (.symbol .notEqual, rest)
  | _, _ =>
    match Symbol.ofChar? c with
    | some s => (.symbol s, cs)
    | none =>
      if isLetter c then
        (.ofWord (String.ofList (c :: cs.takeWhile isLetter)), cs.dropWhile isLetter)
      else if c.isDigit then
        (.number (String.ofList (c :: cs.takeWhile Char.isDigit)), cs.dropWhile Char.isDigit)
      else (.illegal c, cs)

theorem length_lexeme_le (c : Char) (cs : List Char) : (lexeme c cs).2.length ≤ cs.length := by
  unfold lexeme
  split
  · simp
  · simp
  · split
    · simp
    · split
      · exact (List.dropWhile_suffix _).length_le
      · split
        · exact (List.dropWhile_suffix _).length_le
        · simp

/-- the first token after any layout, and the text after it -/
def nextLexeme : List Char → Option (Token × List Char)
  | [] => none
  | c :: cs => if isLayout c then nextLexeme cs else some (lexeme c cs)

theorem length_of_nextLexeme {cs rest : List Char} {t : Token}
    (h : nextLexeme cs = some (t, rest)) : rest.length < cs.length := by
  induction cs with
  | nil => simp [nextLexeme] at h
  | cons c cs ih =>
    rw [nextLexeme] at h
    split at h
    · exact Nat.lt_succ_of_lt (ih h)
    · have hle := length_lexeme_le c cs
      rw [Option.some.inj h] at hle
      exact Nat.lt_succ_of_le hle

/-! ## all tokens -/

def tokens (cs : List Char) : List Token :=
  match h : nextLexeme cs with
  | none => []
  | some (t, rest) =>
    have := length_of_nextLexeme h
    t :: tokens rest
termination_by cs.length

theorem tokens_of_none {cs : List Char} (h : nextLexeme cs = none) : tokens cs = [] := by
  rw [tokens]
  split <;> simp_all

theorem tokens_of_some {cs rest : List Char} {t : Token} (h : nextLexeme cs = some (t, rest)) :
    tokens cs = t :: tokens rest := by
  rw [tokens]
  split <;> simp_all

/-! ## texts that are refused -/

/-- a character outside ASCII, with its place in bytes of the encoded text -/
structure LexError where
  position : Nat
  character : Char
  deriving DecidableEq

def LexError.message (e : LexError) : String :=
  s!"unsupported character '{e.character}' at byte {e.position}"

/-- the first character outside ASCII of a text that starts at byte `position` -/
def firstUnsupported (position : Nat) : List Char → Option LexError
  | [] => none
  | c :: cs =>
    if c.toNat < 128 then firstUnsupported (position + c.utf8Size) cs
    else some ⟨position, c⟩

def tokenize (source : String) : Except LexError (List Token) :=
  match firstUnsupported 0 source.toList with
  | some e => .error e
  | none => .ok (tokens source.toList)

end MonkeyLang
