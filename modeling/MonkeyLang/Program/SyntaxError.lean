import MonkeyLang.Token

/-!
# What can be wrong with the tokens of a statement
-/

namespace MonkeyLang

inductive SyntaxError where
  /-- one kind of token had to come next and another one came -/
  | unexpected (expected actual : Kind)
  /-- an expression had to start here, and none starts with this kind of token -/
  | noExpression (found : Kind)
  /-- the number does not fit into 64 bits with a sign -/
  | tooLarge (digits : String)
  deriving DecidableEq

def SyntaxError.message : SyntaxError → String
  | unexpected expected actual =>
    s!"expected next token to be {expected.title}, got {actual.title} instead"
  | noExpression found => s!"no prefix parse function for {found.title} found"
  | tooLarge digits => s!"could not parse {digits} as integer"

end MonkeyLang
