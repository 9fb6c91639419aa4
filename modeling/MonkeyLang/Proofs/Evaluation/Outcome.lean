import MonkeyLang.Evaluation

/-!
# How evaluations end

* `Outcome.store?`   the store at the end, if there is an end;
* `Outcome.Meets`    an invariant holds of the store at the end, and a postcondition of the result.

The other lemmas say that operators give integers and booleans only (`Value.Plain`), which part of
a block or a conditional goes on after the one before it, and what a call is: a body that runs in a
new scope (`Closure.entry`).
-/

namespace MonkeyLang

section
variable {α β : Type}

/-- the store at the end of an evaluation that ends -/
def Outcome.store? : Outcome α → Option Store
  | ok _ s => some s
  | error _ s => some s
  | tooDeep => none

theorem Outcome.store?_of_settle {o : Outcome (Option Value)} {r : Option Value} {t : Store}
    (h : o.settle = some (r, t)) : o.store? = some t := by
  cases o with
  | ok a s => exact congrArg (Option.map Prod.snd) h
  | error e s => exact congrArg (Option.map Prod.snd) h
  | tooDeep => exact absurd h (by simp [Outcome.settle])

/-- `inv` holds of the store at the end, and `post` of the result if there is one; nothing is asked
of an evaluation that does not end -/
def Outcome.Meets (inv : Store → Prop) (post : α → Prop) : Outcome α → Prop
  | ok a s => inv s ∧ post a
  | error _ s => inv s
  | tooDeep => True

theorem Evaluation.bind_congr {x y : Evaluation α} {s t : Store} (h : x s = y t)
    (f : α → Evaluation β) : (x >>= f) s = (y >>= f) t := by
  cases hy : y t with
  | ok a u => rw [bind_of_ok f (h.trans hy), bind_of_ok f hy]
  | error e u => rw [bind_of_error f (h.trans hy), bind_of_error f hy]
  | tooDeep => rw [bind_of_tooDeep f (h.trans hy), bind_of_tooDeep f hy]

instance : LawfulMonad Evaluation := by
  refine LawfulMonad.mk' Evaluation ?_ ?_ ?_
  · intro α x
    funext s
    show (x >>= fun a => pure a) s = x s
    cases h : x s with
    | ok a t => exact Evaluation.bind_of_ok _ h
    | error e t => exact Evaluation.bind_of_error _ h
    | tooDeep => exact Evaluation.bind_of_tooDeep _ h
  · intro α β a f
    rfl
  · intro α β γ x f g
    funext s
    cases h : x s with
    | ok a t =>
      have hxf : (x >>= f) s = f a t := Evaluation.bind_of_ok f h
      rw [Evaluation.bind_congr hxf g, Evaluation.bind_of_ok _ h]
    | error e t =>
      rw [Evaluation.bind_of_error _ h, Evaluation.bind_of_error _ (Evaluation.bind_of_error _ h)]
    | tooDeep =>
      rw [Evaluation.bind_of_tooDeep _ h,
        Evaluation.bind_of_tooDeep _ (Evaluation.bind_of_tooDeep _ h)]

end

/-! ## operators -/

namespace Value

def Plain : Value → Prop
  | int _ => True
  | bool _ => True
  | _ => False

theorem plain_of_unary {op : UnaryOp} {v w : Value} (h : v.unary op = .ok w) : w.Plain := by
  unfold unary at h
  split at h
  · cases h
    exact trivial
  · split at h
    · cases h
      exact trivial
    · cases h
  · cases h

theorem plain_of_exactResult {l r : Integer} {op : BinaryOp} {n : Int} {w : Value}
    (h : exactResult l op r n = .ok w) : w.Plain := by
  unfold exactResult at h
  split at h
  · cases h
    exact trivial
  · cases h

theorem plain_of_integerBinary {l r : Integer} {op : BinaryOp} {w : Value}
    (h : integerBinary l op r = .ok w) : w.Plain := by
  cases op with
  | add => exact plain_of_exactResult h
  | sub => exact plain_of_exactResult h
  | mul => exact plain_of_exactResult h
  | div =>
    simp only [integerBinary] at h
    split at h
    · cases h
    · exact plain_of_exactResult h
  | less | greater | equal | notEqual =>
    cases h
    exact trivial

theorem plain_of_binary {l r : Value} {op : BinaryOp} {w : Value} (h : l.binary op r = .ok w) :
    w.Plain := by
  unfold binary at h
  split at h
  · exact plain_of_integerBinary h
  · cases h
    exact trivial
  · cases h
    exact trivial
  · cases h

end Value

/-! ## blocks and conditionals -/

/-- the outcome of a statement after which no other one of its block is evaluated -/
def Outcome.Breaks : Outcome (Option Value) → Prop
  | ok r _ => ∃ w, r = some (.returning w)
  | error _ _ => True
  | tooDeep => True

section
variable {call : Closure → List Value → Evaluation Value} {k : ScopeId} {s t : Store} {v : Value}
  {st : Stmt} {test : Expr}

theorem Block.eval_cons_of_breaks {o : Outcome (Option Value)} (h : st.eval call k s = o)
    (ho : o.Breaks) (last : Option Value) (ss : List Stmt) :
    Block.eval call k last (st :: ss) s = o := by
  rw [Block.eval]
  cases o with
  | ok r t =>
    obtain ⟨w, rfl⟩ := ho
    rw [Evaluation.bind_of_ok _ h]
    rfl
  | error e t => rw [Evaluation.bind_of_error _ h]
  | tooDeep => rw [Evaluation.bind_of_tooDeep _ h]

theorem Block.eval_cons_of_ok {r : Option Value} (h : st.eval call k s = .ok r t)
    (hr : ∀ w, r ≠ some (.returning w)) (last : Option Value) (ss : List Stmt) :
    Block.eval call k last (st :: ss) s = Block.eval call k r ss t := by
  rw [Block.eval, Evaluation.bind_of_ok _ h]
  split
  case h_1 w => exact absurd rfl (hr w)
  case h_2 => rfl

/-- a branch of a conditional that is a statement, seen from outside -/
theorem Block.eval_branch_of_breaks {x : Evaluation (Option Value)} {o : Outcome (Option Value)}
    (h : x s = o) (ho : o.Breaks) :
    (do let v ← (do let r ← x; return r.getD .null); return some v :
      Evaluation (Option Value)) s = o := by
  cases o with
  | ok r t =>
    obtain ⟨w, rfl⟩ := ho
    exact Evaluation.bind_of_ok _ (Evaluation.bind_of_ok _ h)
  | error e t => exact Evaluation.bind_of_error _ (Evaluation.bind_of_error _ h)
  | tooDeep => exact Evaluation.bind_of_tooDeep _ (Evaluation.bind_of_tooDeep _ h)

theorem Expr.eval_cond_of_truthy (h : test.eval call k s = .ok v t) (hv : v.truthy = true)
    (body : Block) (alternative : Option Block) :
    (Expr.cond test body alternative).eval call k s = (do
      let r ← Block.eval call k none body
      return r.getD .null : Evaluation Value) t := by
  cases alternative with
  | none => rw [Expr.eval, Evaluation.bind_of_ok _ h, if_pos hv]
  | some other => rw [Expr.eval, Evaluation.bind_of_ok _ h, if_pos hv]

theorem Expr.eval_cond_of_falsy (h : test.eval call k s = .ok v t) (hv : v.truthy = false)
    (body other : Block) :
    (Expr.cond test body (some other)).eval call k s = (do
      let r ← Block.eval call k none other
      return r.getD .null : Evaluation Value) t := by
  rw [Expr.eval, Evaluation.bind_of_ok _ h, hv]
  rfl

end

/-! ## calls -/

/-- the store in which the body of a call starts: a new scope holds the arguments -/
def Closure.entry (f : Closure) (args : List Value) (s : Store) : Store :=
  (s.newScope (some f.scope)).2.setAll s.scopes.size (f.params.zip args)

theorem Closure.call_zero (f : Closure) (args : List Value) (s : Store) :
    f.call 0 args s = .tooDeep := rfl

theorem Closure.call_of_length {f : Closure} {args : List Value}
    (h : f.params.length = args.length) (depth : Nat) (s : Store) :
    f.call (depth + 1) args s = (do
      let result ← Block.eval (Closure.call depth) s.scopes.size none f.body
      return (result.getD .null).unwrap : Evaluation Value) (f.entry args s) := by
  rw [Closure.call, if_pos h]
  rfl

theorem Closure.call_of_length_ne {f : Closure} {args : List Value}
    (h : f.params.length ≠ args.length) (depth : Nat) (s : Store) :
    f.call (depth + 1) args s =
      .error (.wrongArgumentCount f.params.length args.length) s := by
  rw [Closure.call, if_neg h]
  rfl

end MonkeyLang
