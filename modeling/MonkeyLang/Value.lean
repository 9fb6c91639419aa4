import MonkeyLang.Program.Printer

/-!
# Values

* `RuntimeError`  why an evaluation stopped;
* `Closure`       a function with the scope it was made in and a stamp of its own, so that a
                  function equals itself and no other;
* `Value`         what expressions evaluate to.  `returning v` is the value of a `return` on its
                  way out of a block, and `error` an error that has been handed out as a value.
-/

namespace MonkeyLang

/-! ## runtime errors -/

inductive RuntimeError where
  | unknownOperator (usage : String)
  | typeMismatch (left operator right : String)
  | unboundName (x : String)
  | notAFunction (type : String)
  | wrongArgumentCount (want got : Nat)
  | divisionByZero (dividend : Integer)
  | overflow (calculation : String)
  deriving DecidableEq

def RuntimeError.message : RuntimeError → String
  | unknownOperator usage => s!"unknown operator: {usage}"
  | typeMismatch left operator right => s!"type mismatch: {left} {operator} {right}"
  | unboundName x => s!"identifier not found: {x}"
  | notAFunction type => s!"not a function: {type}"
  | wrongArgumentCount want got => s!"wrong number of arguments: want={want}, got={got}"
  | divisionByZero dividend => s!"division by zero: {dividend.text} / 0"
  | overflow calculation => s!"integer overflow: {calculation}"

/-! ## values -/

/-- scopes are numbered in the order in which they are made -/
abbrev ScopeId := Nat

structure Closure where
  stamp : Nat
  params : List String
  body : Block
  scope : ScopeId
  deriving DecidableEq

def Closure.text (f : Closure) : String :=
  "fn(" ++ commaSeparated f.params ++ ") \x7b\n" ++ Block.text f.body ++ "\n\x7d"

inductive Value where
  | int (n : Integer)
  | bool (b : Bool)
  | null
  | returning (v : Value)
  | error (e : RuntimeError)
  | func (f : Closure)
  deriving DecidableEq

inductive ValueType where
  | int | bool | null | returning | error | func
  deriving DecidableEq

def ValueType.title : ValueType → String
  | int => "INTEGER"
  | bool => "BOOLEAN"
  | null => "NULL"
  | returning => "RETURN_VALUE"
  | error => "ERROR"
  | func => "FUNCTION"

namespace Value

def type : Value → ValueType
  | int _ => .int
  | bool _ => .bool
  | null => .null
  | returning _ => .returning
  | error _ => .error
  | func _ => .func

/-- everything but `false` and `null` counts as true -/
def truthy : Value → Bool
  | bool b => b
  | null => false
  | _ => true

def isError : Value → Bool
  | error _ => true
  | _ => false

/-- a value that was returned, without the mark of being returned; one mark is taken off -/
def unwrap : Value → Value
  | returning v => v
  | v => v

def text : Value → String
  | int n => n.text
  | bool b => if b then "true" else "false"
  | null => "null"
  | returning v => v.text
  | error e => "ERROR: " ++ e.message
  | func f => f.text

end Value

end MonkeyLang
