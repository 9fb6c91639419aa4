import MonkeyLang.Value

/-!
# Operators on values

Arithmetic is exact: a result that does not fit into 64 bits is an error that shows the
calculation.  Quotients are rounded towards zero.  Operators that mean nothing for their operands
are errors, of one sort for operands of different types and of another for operands of one type.
-/

namespace MonkeyLang.Value

def unary : UnaryOp → Value → Except RuntimeError Value
  | .not, v => .ok (bool (!v.truthy))
  | .neg, int n =>
    match Integer.ofInt? (-n.toInt) with
    | some m => .ok (int m)
    | none => .error (.overflow s!"-{n.text}")
  | .neg, v => .error (.unknownOperator s!"-{v.type.title}")

/-- the result of `l op r`, which is `n` if 64 bits hold it -/
def exactResult (l : Integer) (op : BinaryOp) (r : Integer) (n : Int) :
    Except RuntimeError Value :=
  match Integer.ofInt? n with
  | some m => .ok (int m)
  | none => .error (.overflow s!"{l.text} {op.text} {r.text}")

def integerBinary (l : Integer) (op : BinaryOp) (r : Integer) : Except RuntimeError Value :=
  match op with
  | .add => exactResult l op r (l.toInt + r.toInt)
  | .sub => exactResult l op r (l.toInt - r.toInt)
  | .mul => exactResult l op r (l.toInt * r.toInt)
  | .div =>
    if r.toInt = 0 then .error (.divisionByZero l)
    else exactResult l op r (l.toInt.tdiv r.toInt)
  | .less => .ok (bool (l.toInt < r.toInt))
  | .greater => .ok (bool (r.toInt < l.toInt))
  | .equal => .ok (bool (l = r))
  | .notEqual => .ok (bool (l ≠ r))

/-- the error for an operator that means nothing for its operands -/
def noMeaning (l : Value) (op : BinaryOp) (r : Value) : RuntimeError :=
  if l.type = r.type then
    .unknownOperator s!"{l.type.title} {op.text} {r.type.title}"
  else .typeMismatch l.type.title op.text r.type.title

def binary (l : Value) (op : BinaryOp) (r : Value) : Except RuntimeError Value :=
  match l, op, r with
  | int m, op, int n => integerBinary m op n
  | bool a, .equal, bool b => .ok (bool (a == b))
  | bool a, .notEqual, bool b => .ok (bool (a != b))
  | l, op, r => .error (noMeaning l op r)

end MonkeyLang.Value
