/-!
# Tokens of the Monkey language

* `Symbol`, `Keyword`  the fixed spellings, each with its `text`;
* `Token`              one token with what its spelling adds to its kind: a name, the digits of a
                       number, a character that starts no token;
* `Kind`               what a diagnostic says about a token, `eof` standing for the end of the input.

A list of tokens holds no end marker: the end of the list is the end of the input.
-/

namespace MonkeyLang

/-! ## symbols -/

/-- operators and delimiters -/
inductive Symbol where
  | assign | plus | minus | bang | star | slash | equal | notEqual | less | greater
  | comma | semicolon | lparen | rparen | lbrace | rbrace
  deriving DecidableEq

namespace Symbol

def text : Symbol → String
  | assign => "="
  | plus => "+"
  | minus => "-"
  | bang => "!"
  | star => "*"
  | slash => "/"
  | equal => "=="
  | notEqual => "!="
  | less => "<"
  | greater => ">"
  | comma => ","
  | semicolon => ";"
  | lparen => "("
  | rparen => ")"
  | lbrace => "\x7b"
  | rbrace => "\x7d"

/-- the symbol that one character spells -/
def ofChar? : Char → Option Symbol
  | '=' => some assign
  | '+' => some plus
  | '-' => some minus
  | '!' => some bang
  | '*' => some star
  | '/' => some slash
  | '<' => some less
  | '>' => some greater
  | ',' => some comma
  | ';' => some semicolon
  | '(' => some lparen
  | ')' => some rparen
  | '\x7b' => some lbrace
  | '\x7d' => some rbrace
  | _ => none

end Symbol

/-! ## keywords -/

inductive Keyword where
  | fnKw | letKw | trueKw | falseKw | ifKw | elseKw | returnKw
  deriving DecidableEq

namespace Keyword

def text : Keyword → String
  | fnKw => "fn"
  | letKw => "let"
  | trueKw => "true"
  | falseKw => "false"
  | ifKw => "if"
  | elseKw => "else"
  | returnKw => "return"

/-- the name of a keyword in diagnostics -/
def title : Keyword → String
  | fnKw => "FUNCTION"
  | letKw => "LET"
  | trueKw => "TRUE"
  | falseKw => "FALSE"
  | ifKw => "IF"
  | elseKw => "ELSE"
  | returnKw => "RETURN"

def all : List Keyword := [fnKw, letKw, trueKw, falseKw, ifKw, elseKw, returnKw]

theorem mem_all (k : Keyword) : k ∈ all := by cases k <;> decide

/-- the keyword spelled by a word, if it is one -/
def ofText? (word : String) : Option Keyword := all.find? fun k => k.text == word

theorem ofText?_text (k : Keyword) : ofText? k.text = some k := by cases k <;> decide

theorem text_of_ofText? {word : String} {k : Keyword} (h : ofText? word = some k) :
    k.text = word := by
  simpa using List.find?_some h

end Keyword

/-! ## kinds and tokens -/

inductive Kind where
  | eof
  | illegal
  | name
  | number
  | symbol (s : Symbol)
  | keyword (k : Keyword)
  deriving DecidableEq

/-- the name of a kind in diagnostics -/
def Kind.title : Kind → String
  | eof => "EOF"
  | illegal => "ILLEGAL"
  | name => "IDENT"
  | number => "INT"
  | symbol s => s.text
  | keyword k => k.title

inductive Token where
  | name (text : String)
  | number (digits : String)
  | illegal (c : Char)
  | symbol (s : Symbol)
  | keyword (k : Keyword)
  deriving DecidableEq

namespace Token

def kind : Token → Kind
  | name _ => .name
  | number _ => .number
  | illegal _ => .illegal
  | symbol s => .symbol s
  | keyword k => .keyword k

/-- the piece of source that the token stands for -/
def text : Token → String
  | name x => x
  | number digits => digits
  | illegal c => String.singleton c
  | symbol s => s.text
  | keyword k => k.text

/-- a word is a keyword or a name -/
def ofWord (word : String) : Token :=
  match Keyword.ofText? word with
  | some k => keyword k
  | none => name word

theorem text_ofWord (word : String) : (ofWord word).text = word := by
  unfold ofWord
  split
  case h_1 k h => exact Keyword.text_of_ofText? h
  case h_2 => rfl

end Token

/-- the kind of the first token, `eof` at the end of the input -/
def Kind.ofFirst : List Token → Kind
  | [] => .eof
  | t :: _ => t.kind

theorem Kind.ofFirst_nil : Kind.ofFirst [] = .eof := rfl
theorem Kind.ofFirst_cons (t : Token) (ts : List Token) : Kind.ofFirst (t :: ts) = t.kind := rfl

end MonkeyLang
