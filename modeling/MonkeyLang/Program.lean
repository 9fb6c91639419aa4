import MonkeyLang.Integer
import MonkeyLang.Program.Operator

/-!
# Programs

Expressions, statements and programs as trees.  Brackets leave no node of their own, and an
integer may be any 64-bit number, also a negative one that no literal spells.  Equality of trees
is decidable (`Expr.same`, `Stmt.same` decide it).
-/

namespace MonkeyLang

mutual

inductive Expr where
  | name (x : String)
  | int (n : Integer)
  | bool (b : Bool)
  | unary (op : UnaryOp) (operand : Expr)
  | binary (left : Expr) (op : BinaryOp) (right : Expr)
  | cond (test : Expr) (body : List Stmt) (alternative : Option (List Stmt))
  | func (params : List String) (body : List Stmt)
  | call (callee : Expr) (args : List Expr)

inductive Stmt where
  | bind (x : String) (value : Expr)
  | ret (value : Expr)
  | expr (value : Expr)

end

abbrev Block := List Stmt

abbrev Program := List Stmt

/-! ## equality -/

mutual

def Expr.same : Expr → Expr → Bool
  | .name x, .name y => x == y
  | .int m, .int n => m == n
  | .bool a, .bool b => a == b
  | .unary o a, .unary p b => o == p && a.same b
  | .binary a o c, .binary b p d => o == p && a.same b && c.same d
  | .cond a s none, .cond b t none => a.same b && Stmt.allSame s t
  | .cond a s (some u), .cond b t (some v) =>
    a.same b && Stmt.allSame s t && Stmt.allSame u v
  | .func xs s, .func ys t => xs == ys && Stmt.allSame s t
  | .call a as, .call b bs => a.same b && Expr.allSame as bs
  | _, _ => false

def Expr.allSame : List Expr → List Expr → Bool
  | [], [] => true
  | a :: as, b :: bs => a.same b && Expr.allSame as bs
  | _, _ => false

def Stmt.same : Stmt → Stmt → Bool
  | .bind x a, .bind y b => x == y && a.same b
  | .ret a, .ret b => a.same b
  | .expr a, .expr b => a.same b
  | _, _ => false

def Stmt.allSame : List Stmt → List Stmt → Bool
  | [], [] => true
  | s :: ss, t :: ts => s.same t && Stmt.allSame ss ts
  | _, _ => false

end

mutual

theorem Expr.same_iff : ∀ a b : Expr, a.same b = true ↔ a = b
  | .name _, b => by cases b <;> simp [Expr.same]
  | .int _, b => by cases b <;> simp [Expr.same]
  | .bool _, b => by cases b <;> simp [Expr.same]
  | .unary _ a, b => by cases b <;> simp [Expr.same, Expr.same_iff a]
  | .binary a _ c, b => by
    cases b <;> simp [Expr.same, Expr.same_iff a, Expr.same_iff c]
    grind
  | .cond a s none, b => by
    cases b with
    | cond b t alternative =>
      cases alternative <;> simp [Expr.same, Expr.same_iff a, Stmt.allSame_iff s]
    | _ => simp [Expr.same]
  | .cond a s (some u), b => by
    cases b with
    | cond b t alternative =>
      cases alternative <;>
        simp [Expr.same, Expr.same_iff a, Stmt.allSame_iff s, Stmt.allSame_iff u, and_assoc]
    | _ => simp [Expr.same]
  | .func _ s, b => by cases b <;> simp [Expr.same, Stmt.allSame_iff s]
  | .call a as, b => by cases b <;> simp [Expr.same, Expr.same_iff a, Expr.allSame_iff as]

theorem Expr.allSame_iff : ∀ as bs : List Expr, Expr.allSame as bs = true ↔ as = bs
  | [], bs => by cases bs <;> simp [Expr.allSame]
  | a :: as, bs => by cases bs <;> simp [Expr.allSame, Expr.same_iff a, Expr.allSame_iff as]

theorem Stmt.same_iff : ∀ s t : Stmt, s.same t = true ↔ s = t
  | .bind _ a, t => by cases t <;> simp [Stmt.same, Expr.same_iff a]
  | .ret a, t => by cases t <;> simp [Stmt.same, Expr.same_iff a]
  | .expr a, t => by cases t <;> simp [Stmt.same, Expr.same_iff a]

theorem Stmt.allSame_iff : ∀ ss ts : List Stmt, Stmt.allSame ss ts = true ↔ ss = ts
  | [], ts => by cases ts <;> simp [Stmt.allSame]
  | s :: ss, ts => by cases ts <;> simp [Stmt.allSame, Stmt.same_iff s, Stmt.allSame_iff ss]

end

instance : DecidableEq Expr := fun a b => decidable_of_iff _ (Expr.same_iff a b)

instance : DecidableEq Stmt := fun s t => decidable_of_iff _ (Stmt.same_iff s t)

end MonkeyLang
