import MonkeyLang.Token

/-!
# Operators

`level` says how tightly an operator binds; a larger level binds tighter.  A unary operator binds
tighter than every binary one (`unaryLevel`), and a call tighter still.
-/

namespace MonkeyLang

inductive UnaryOp where
  | not | neg
  deriving DecidableEq

def UnaryOp.text : UnaryOp → String
  | not => "!"
  | neg => "-"

inductive BinaryOp where
  | add | sub | mul | div | less | greater | equal | notEqual
  deriving DecidableEq

namespace BinaryOp

def symbol : BinaryOp → Symbol
  | add => .plus
  | sub => .minus
  | mul => .star
  | div => .slash
  | less => .less
  | greater => .greater
  | equal => .equal
  | notEqual => .notEqual

def text (op : BinaryOp) : String := op.symbol.text

def ofSymbol? : Symbol → Option BinaryOp
  | .plus => some add
  | .minus => some sub
  | .star => some mul
  | .slash => some div
  | .less => some less
  | .greater => some greater
  | .equal => some equal
  | .notEqual => some notEqual
  | _ => none

theorem ofSymbol?_symbol (op : BinaryOp) : ofSymbol? op.symbol = some op := by cases op <;> rfl

theorem symbol_of_ofSymbol? {s : Symbol} {op : BinaryOp} (h : ofSymbol? s = some op) :
    op.symbol = s := by
  cases s <;> simp [ofSymbol?] at h <;> subst h <;> rfl

def level : BinaryOp → Nat
  | equal | notEqual => 1
  | less | greater => 2
  | add | sub => 3
  | mul | div => 4

end BinaryOp

def unaryLevel : Nat := 5

theorem BinaryOp.level_pos (op : BinaryOp) : 0 < op.level := by cases op <;> decide
theorem BinaryOp.level_lt_unaryLevel (op : BinaryOp) : op.level < unaryLevel := by
  cases op <;> decide

end MonkeyLang
