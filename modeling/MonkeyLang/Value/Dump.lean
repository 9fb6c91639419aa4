import MonkeyLang.Program.Dump
import MonkeyLang.Value

/-!
# Values in constructor form

The scope of a function is not shown.
-/

namespace MonkeyLang

def RuntimeError.dump : RuntimeError → String
  | unknownOperator usage => s!"UnknownOperator({dumpText usage})"
  | typeMismatch left operator right =>
    dumpNode "TypeMismatch" [("left", dumpText left), ("operator", dumpText operator),
      ("right", dumpText right)]
  | unboundName x => s!"IdentifierNotFound({dumpText x})"
  | notAFunction type => s!"NotAFunction({dumpText type})"
  | wrongArgumentCount want got =>
    dumpNode "WrongArgumentCount" [("want", toString want), ("got", toString got)]
  | divisionByZero dividend => s!"DivisionByZero({dividend.text})"
  | overflow calculation => s!"IntegerOverflow({dumpText calculation})"

def Closure.dump (f : Closure) : String :=
  "FunctionValue \x7b parameters: " ++ dumpList (f.params.map dumpText) ++ ", body: "
    ++ Block.dump f.body ++ ", .. \x7d"

def Value.dump : Value → String
  | int n => s!"Integer({n.text})"
  | bool b => s!"Boolean({dumpBool b})"
  | null => "Null"
  | returning v => s!"Return({v.dump})"
  | error e => s!"Error({e.dump})"
  | func f => s!"Function({f.dump})"

end MonkeyLang
