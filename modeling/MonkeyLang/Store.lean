import MonkeyLang.Value

/-!
# Scopes

* `Scope`   names bound to values, inside an outer scope or not;
* `Store`   all scopes made so far.  A scope is known by its number, so several functions can
            share one, and a binding made through one of them is seen by the others.

A name is looked up in a scope, then in the scope around it, and so on outwards (`Store.get?`); a
binding is made in the one scope given (`Store.set`).  A scope is always made later than the one
around it, and `Store.get?` goes outwards only to scopes made earlier.
-/

namespace MonkeyLang

/-! ## bindings -/

/-- binds `x` to `v`, in place of what `x` was bound to -/
def assign (x : String) (v : Value) : List (String × Value) → List (String × Value)
  | [] => [(x, v)]
  | (y, w) :: rest => if x = y then (x, v) :: rest else (y, w) :: assign x v rest

theorem lookup_assign_self (x : String) (v : Value) (bs : List (String × Value)) :
    (assign x v bs).lookup x = some v := by
  induction bs with
  | nil => simp [assign]
  | cons b bs ih =>
    obtain ⟨y, w⟩ := b
    by_cases h : x = y
    · simp [assign, h]
    · have hb : (x == y) = false := beq_false_of_ne h
      simp [assign, List.lookup_cons, h, hb, ih]

theorem lookup_assign_of_ne {x y : String} (h : y ≠ x) (v : Value) (bs : List (String × Value)) :
    (assign x v bs).lookup y = bs.lookup y := by
  have hb : (y == x) = false := beq_false_of_ne h
  induction bs with
  | nil => simp [assign, List.lookup_cons, hb]
  | cons b bs ih =>
    obtain ⟨z, w⟩ := b
    by_cases hz : x = z
    · subst hz
      simp [assign, List.lookup_cons, hb]
    · simp [assign, List.lookup_cons, hz, ih]

/-! ## scopes and stores -/

structure Scope where
  bindings : List (String × Value)
  outer : Option ScopeId
  deriving DecidableEq

def Scope.get? (s : Scope) (x : String) : Option Value := s.bindings.lookup x

def Scope.set (s : Scope) (x : String) (v : Value) : Scope :=
  { s with bindings := assign x v s.bindings }

theorem Scope.get?_set_self (s : Scope) (x : String) (v : Value) :
    (s.set x v).get? x = some v := lookup_assign_self x v s.bindings

theorem Scope.get?_set_of_ne (s : Scope) {x y : String} (h : y ≠ x) (v : Value) :
    (s.set x v).get? y = s.get? y := lookup_assign_of_ne h v s.bindings

theorem Scope.outer_set (s : Scope) (x : String) (v : Value) : (s.set x v).outer = s.outer := rfl

structure Store where
  scopes : Array Scope
  /-- how many functions have been made -/
  closures : Nat
  deriving DecidableEq

namespace Store

def empty : Store := ⟨#[], 0⟩

/-- makes a scope without bindings -/
def newScope (outer : Option ScopeId) (s : Store) : ScopeId × Store :=
  (s.scopes.size, { s with scopes := s.scopes.push ⟨[], outer⟩ })

/-- makes a function, different from all that have been made -/
def newClosure (params : List String) (body : Block) (scope : ScopeId) (s : Store) :
    Closure × Store :=
  (⟨s.closures, params, body, scope⟩, { s with closures := s.closures + 1 })

def set (s : Store) (scope : ScopeId) (x : String) (v : Value) : Store :=
  { s with scopes := s.scopes.modify scope fun sc => sc.set x v }

/-- binds names in order, so of a name that comes twice the last value stays -/
def setAll (s : Store) (scope : ScopeId) : List (String × Value) → Store
  | [] => s
  | (x, v) :: bs => (s.set scope x v).setAll scope bs

theorem size_set (s : Store) (scope : ScopeId) (x : String) (v : Value) :
    (s.set scope x v).scopes.size = s.scopes.size := by
  show (s.scopes.modify scope _).size = _
  rw [Array.size_modify]

def outer? (s : Store) (scope : ScopeId) : Option ScopeId := do
  (← s.scopes[scope]?).outer

/-- the value of a name in the innermost scope that binds it -/
def get? (s : Store) (scope : ScopeId) (x : String) : Option Value :=
  match s.scopes[scope]? with
  | none => none
  | some sc =>
    match sc.get? x, sc.outer with
    | some v, _ => some v
    | none, none => none
    | none, some outer => if outer < scope then s.get? outer x else none
termination_by scope

end Store

end MonkeyLang
