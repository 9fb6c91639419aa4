import MonkeyLang.Program

/-!
# Programs in constructor form

The tree of a program with the name of every node and field, for looking at it.  Names that were
read from a text consist of letters and `_`, so nothing in them has to be escaped.
-/

namespace MonkeyLang

/-- a node with its fields -/
def dumpNode (title : String) (fields : List (String × String)) : String :=
  title ++ " \x7b " ++ ", ".intercalate (fields.map fun (field, value) => field ++ ": " ++ value)
    ++ " \x7d"

def dumpList (items : List String) : String := "[" ++ ", ".intercalate items ++ "]"

def dumpText (s : String) : String := "\"" ++ s ++ "\""

def dumpBool (b : Bool) : String := if b then "true" else "false"

/-- a block, its statements being dumped already -/
def dumpBlock (statements : List String) : String :=
  dumpNode "BlockStatement" [("statements", dumpList statements)]

def UnaryOp.dump : UnaryOp → String
  | not => "Bang"
  | neg => "Minus"

def BinaryOp.dump : BinaryOp → String
  | add => "Plus"
  | sub => "Minus"
  | mul => "Asterisk"
  | div => "Slash"
  | less => "Less"
  | greater => "Greater"
  | equal => "Equal"
  | notEqual => "NotEqual"

mutual

def Expr.dump : Expr → String
  | .name x => s!"Identifier({dumpText x})"
  | .int n => s!"IntegerLiteral({n.text})"
  | .bool b => s!"Boolean({dumpBool b})"
  | .unary op e => dumpNode "Prefix" [("operator", op.dump), ("right", e.dump)]
  | .binary l op r =>
    dumpNode "Infix" [("left", l.dump), ("operator", op.dump), ("right", r.dump)]
  | .cond test body none =>
    dumpNode "If" [("condition", test.dump), ("consequence", dumpBlock (Stmt.dumps body)),
      ("alternative", "None")]
  | .cond test body (some other) =>
    dumpNode "If" [("condition", test.dump), ("consequence", dumpBlock (Stmt.dumps body)),
      ("alternative", s!"Some({dumpBlock (Stmt.dumps other)})")]
  | .func params body =>
    dumpNode "FunctionLiteral" [("parameters", dumpList (params.map dumpText)),
      ("body", dumpBlock (Stmt.dumps body))]
  | .call callee args =>
    dumpNode "Call" [("function", callee.dump), ("arguments", dumpList (Expr.dumps args))]

def Expr.dumps : List Expr → List String
  | [] => []
  | e :: es => e.dump :: Expr.dumps es

def Stmt.dump : Stmt → String
  | .bind x e => dumpNode "Let" [("name", dumpText x), ("value", e.dump)]
  | .ret e => s!"Return({e.dump})"
  | .expr e => s!"Expression({e.dump})"

def Stmt.dumps : List Stmt → List String
  | [] => []
  | s :: ss => s.dump :: Stmt.dumps ss

end

def Block.dump (b : Block) : String := dumpBlock (Stmt.dumps b)

end MonkeyLang
