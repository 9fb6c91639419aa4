import MonkeyLang.Store
import MonkeyLang.Value.Operators

/-!
# Evaluation

* `Outcome`      how an evaluation ends: with a result or with an error, and in both cases with
                 the store as it is then, or not at all because calls nest too deep;
* `Evaluation`   a step that reads and changes the store and ends in an outcome;
* `Expr.eval`, `Stmt.eval`, `Block.eval`   follow the tree; how a function is called is a
                 parameter of theirs;
* `Closure.call`, `Program.eval`  calls that nest at most a given depth, and whole programs;
* `Node.eval`    any of these trees, evaluated on its own.

Operands are evaluated from left to right, the first error stops everything, and a value that is
being returned ends the blocks it comes through.  A statement gives a value or, as a `let` does,
none.
-/

namespace MonkeyLang

/-! ## outcomes -/

inductive Outcome (α : Type) where
  | ok (a : α) (store : Store)
  | error (e : RuntimeError) (store : Store)
  | tooDeep
  deriving DecidableEq

/-- hands an error out as a value; nothing if the evaluation did not end -/
def Outcome.settle : Outcome (Option Value) → Option (Option Value × Store)
  | ok result s => some (result, s)
  | error e s => some (some (.error e), s)
  | tooDeep => none

def Evaluation (α : Type) := Store → Outcome α

namespace Evaluation

instance : Monad Evaluation where
  pure a := fun s => .ok a s
  bind x f := fun s =>
    match x s with
    | .ok a s => f a s
    | .error e s => .error e s
    | .tooDeep => .tooDeep

section
variable {α β : Type}

theorem pure_apply (a : α) (s : Store) : (pure a : Evaluation α) s = .ok a s := rfl

theorem bind_of_ok {x : Evaluation α} {s t : Store} {a : α} (f : α → Evaluation β)
    (h : x s = .ok a t) : (x >>= f) s = f a t := by
  show (match x s with | .ok a s => f a s | .error e s => .error e s | .tooDeep => .tooDeep) = _
  rw [h]

theorem bind_of_error {x : Evaluation α} {s t : Store} {e : RuntimeError} (f : α → Evaluation β)
    (h : x s = .error e t) : (x >>= f) s = .error e t := by
  show (match x s with | .ok a s => f a s | .error e s => .error e s | .tooDeep => .tooDeep) = _
  rw [h]

theorem bind_of_tooDeep {x : Evaluation α} {s : Store} (f : α → Evaluation β)
    (h : x s = .tooDeep) : (x >>= f) s = .tooDeep := by
  show (match x s with | .ok a s => f a s | .error e s => .error e s | .tooDeep => .tooDeep) = _
  rw [h]

end

def fail {α : Type} (e : RuntimeError) : Evaluation α := fun s => .error e s

def tooDeep {α : Type} : Evaluation α := fun _ => .tooDeep

def ofExcept {α : Type} : Except RuntimeError α → Evaluation α
  | .ok a => pure a
  | .error e => fail e

/-- changes the store and gives what the change gives -/
def update {α : Type} (change : Store → α × Store) : Evaluation α := fun s =>
  let (a, s) := change s
  .ok a s

def get (scope : ScopeId) (x : String) : Evaluation Value := fun s =>
  match s.get? scope x with
  | some v => .ok v s
  | none => .error (.unboundName x) s

def set (scope : ScopeId) (x : String) (v : Value) : Evaluation Unit :=
  update fun s => ((), s.set scope x v)

end Evaluation

/-! ## trees -/

section
variable (call : Closure → List Value → Evaluation Value)

mutual

def Expr.eval (scope : ScopeId) : Expr → Evaluation Value
  | .name x => .get scope x
  | .int n => pure (.int n)
  | .bool b => pure (.bool b)
  | .unary op e => do
    let v ← e.eval scope
    .ofExcept (v.unary op)
  | .binary l op r => do
    let v ← l.eval scope
    let w ← r.eval scope
    .ofExcept (v.binary op w)
  | .cond test body alternative => do
    let t ← test.eval scope
    if t.truthy then
      let result ← Block.eval scope none body
      return result.getD .null
    else
      match alternative with
      | none => return .null
      | some other =>
        let result ← Block.eval scope none other
        return result.getD .null
  | .func params body => do
    let f ← .update (Store.newClosure params body scope)
    return .func f
  | .call callee args => do
    let f ← callee.eval scope
    let vs ← Expr.evalAll scope args
    match f with
    | .func f => call f vs
    | v => .fail (.notAFunction v.type.title)

/-- the values of several expressions, from left to right -/
def Expr.evalAll (scope : ScopeId) : List Expr → Evaluation (List Value)
  | [] => pure []
  | e :: es => do
    let v ← e.eval scope
    let vs ← Expr.evalAll scope es
    return v :: vs

def Stmt.eval (scope : ScopeId) : Stmt → Evaluation (Option Value)
  | .bind x e => do
    let v ← e.eval scope
    .set scope x v
    return none
  | .ret e => do
    let v ← e.eval scope
    return some (.returning v)
  | .expr e => do
    let v ← e.eval scope
    return some v

/-- what the last statement gives, or the first one that returns; `last` if there is none -/
def Block.eval (scope : ScopeId) (last : Option Value) : List Stmt → Evaluation (Option Value)
  | [] => pure last
  | s :: ss => do
    match ← s.eval scope with
    | some (.returning v) => return some (.returning v)
    | result => Block.eval scope result ss

end

end

/-! ## calls and programs -/

/-- calls a function, with at most `depth` calls open at a time -/
def Closure.call : (depth : Nat) → Closure → List Value → Evaluation Value
  | 0, _, _ => .tooDeep
  | depth + 1, f, args => do
    if f.params.length = args.length then
      let scope ← .update (Store.newScope (some f.scope))
      .update fun s => ((), s.setAll scope (f.params.zip args))
      let result ← Block.eval (Closure.call depth) scope none f.body
      return (result.getD .null).unwrap
    else .fail (.wrongArgumentCount f.params.length args.length)

/-- a depth of calls that no memory holds -/
def unlimitedDepth : Nat := 1000000000000

/-- what a program gives; a value that it returns ends it -/
def Program.eval (depth : Nat) (scope : ScopeId) (program : Program) :
    Evaluation (Option Value) := do
  let result ← Block.eval (Closure.call depth) scope none program
  return result.map Value.unwrap

/-! ## nodes -/

/-- what can be evaluated on its own -/
inductive Node where
  | program (p : Program)
  | block (b : Block)
  | stmt (s : Stmt)
  | expr (e : Expr)

def Node.eval (depth : Nat) (scope : ScopeId) : Node → Evaluation (Option Value)
  | program p => p.eval depth scope
  | block b => Block.eval (Closure.call depth) scope none b
  | stmt s => s.eval (Closure.call depth) scope
  | expr e => do
    let v ← e.eval (Closure.call depth) scope
    return some v

end MonkeyLang
