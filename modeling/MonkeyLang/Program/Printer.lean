import MonkeyLang.Program

/-!
# The text of a program

Every operator is written with brackets of its own, blocks are the texts of their statements one
after the other, and nothing is broken over lines.
-/

namespace MonkeyLang

/-- names or arguments, divided by commas -/
def commaSeparated (texts : List String) : String := ", ".intercalate texts

mutual

def Expr.text : Expr → String
  | .name x => x
  | .int n => n.text
  | .bool b => if b then "true" else "false"
  | .unary op e => "(" ++ op.text ++ e.text ++ ")"
  | .binary l op r => "(" ++ l.text ++ " " ++ op.text ++ " " ++ r.text ++ ")"
  | .cond test body none => "if " ++ test.text ++ " " ++ Block.text body
  | .cond test body (some alternative) =>
    "if " ++ test.text ++ " " ++ Block.text body ++ " else " ++ Block.text alternative
  | .func params body => "fn(" ++ commaSeparated params ++ ") " ++ Block.text body
  | .call callee args => callee.text ++ "(" ++ commaSeparated (Expr.texts args) ++ ")"

def Expr.texts : List Expr → List String
  | [] => []
  | e :: es => e.text :: Expr.texts es

def Stmt.text : Stmt → String
  | .bind x e => "let " ++ x ++ " = " ++ e.text ++ ";"
  | .ret e => "return " ++ e.text ++ ";"
  | .expr e => e.text

def Block.text : List Stmt → String
  | [] => ""
  | s :: ss => s.text ++ Block.text ss

end

end MonkeyLang
