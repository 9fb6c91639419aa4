import MonkeyLang.Token.Lexer

/-!
# Reading tokens one at a time

A `Scanner` holds a text and a place in it.  `advance` reads one token and gives `none` at the
end, as often as it is asked.  `next?` reads through the end once: after it has reported the end
there is nothing more to report.  Only `next?` looks at that mark and sets it.
-/

namespace MonkeyLang

structure Scanner where
  source : List Char
  /-- how many characters have been read -/
  position : Nat
  /-- the end has been reported by `next?` -/
  ended : Bool

namespace Scanner

def ofSource? (source : String) : Except LexError Scanner :=
  match firstUnsupported 0 source.toList with
  | some e => .error e
  | none => .ok ⟨source.toList, 0, false⟩

/-- what has not been read -/
def rest (s : Scanner) : List Char := s.source.drop s.position

def advance (s : Scanner) : Option Token × Scanner :=
  match nextLexeme s.rest with
  | none => (none, { s with position := s.source.length })
  | some (t, rest) => (some t, { s with position := s.source.length - rest.length })

def next? (s : Scanner) : Option (Option Token) × Scanner :=
  if s.ended then (none, s)
  else
    let (t, s) := s.advance
    (some t, { s with ended := t.isNone })

end Scanner

end MonkeyLang
