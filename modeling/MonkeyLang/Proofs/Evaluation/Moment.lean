import MonkeyLang.Proofs.Evaluation.Frame
import Mathlib.Logic.Relation

/-!
# The moments of an evaluation

* `Moment`        an evaluation about to start: what is evaluated (`Task`), in which scope and
                  store, and how many calls may be open in it;
* `Moment.Part`   one evaluation starts another one as a part of itself.  The rules say which
                  parts are evaluated at all, in which order, and in which store each one starts;
* `Moment.Reaches`  any number of such steps;
* `Moment.Leads`  the steps that follow statements only: through the statements of a block, into
                  the expression of a statement, and into the branch of a conditional.  What ends
                  such a part early ends the whole in the same way (`Leads.ends`).
-/

namespace MonkeyLang

inductive Task where
  | expr (e : Expr)
  | args (es : List Expr)
  | stmt (st : Stmt)
  /-- the rest of a block, when the statements before it gave `last` -/
  | block (last : Option Value) (ss : List Stmt)
  | call (f : Closure) (args : List Value)

structure Moment where
  depth : Nat
  scope : ScopeId
  task : Task
  store : Store

namespace Moment

/-- the store in which the evaluation ends, if it ends -/
def final? (m : Moment) : Option Store :=
  match m.task with
  | .expr e => (e.eval (Closure.call m.depth) m.scope m.store).store?
  | .args es => (Expr.evalAll (Closure.call m.depth) m.scope es m.store).store?
  | .stmt st => (st.eval (Closure.call m.depth) m.scope m.store).store?
  | .block last ss => (Block.eval (Closure.call m.depth) m.scope last ss m.store).store?
  | .call f args => (f.call m.depth args m.store).store?

/-- a program that starts -/
def ofProgram (depth : Nat) (scope : ScopeId) (p : Program) (s : Store) : Moment :=
  ⟨depth, scope, .block none p, s⟩

/-- the body of a call that starts -/
def ofCall (depth : Nat) (f : Closure) (args : List Value) (s : Store) : Moment :=
  ⟨depth, s.scopes.size, .block none f.body, f.entry args s⟩

/-! ## parts -/

set_option autoImplicit true in
inductive Part : Moment → Moment → Prop
  | operand (op : UnaryOp) : Part ⟨d, k, .expr (.unary op e), s⟩ ⟨d, k, .expr e, s⟩
  | left (op : BinaryOp) : Part ⟨d, k, .expr (.binary l op r), s⟩ ⟨d, k, .expr l, s⟩
  | right (op : BinaryOp) (hl : l.eval (Closure.call d) k s = .ok v t) :
    Part ⟨d, k, .expr (.binary l op r), s⟩ ⟨d, k, .expr r, t⟩
  | test (alternative : Option Block) :
    Part ⟨d, k, .expr (.cond test b alternative), s⟩ ⟨d, k, .expr test, s⟩
  | body (alternative : Option Block) (ht : test.eval (Closure.call d) k s = .ok v t)
    (hv : v.truthy = true) :
    Part ⟨d, k, .expr (.cond test b alternative), s⟩ ⟨d, k, .block none b, t⟩
  | alternative (ht : test.eval (Closure.call d) k s = .ok v t) (hv : v.truthy = false) :
    Part ⟨d, k, .expr (.cond test b (some o)), s⟩ ⟨d, k, .block none o, t⟩
  | callee : Part ⟨d, k, .expr (.call e es), s⟩ ⟨d, k, .expr e, s⟩
  | args (he : e.eval (Closure.call d) k s = .ok v t) :
    Part ⟨d, k, .expr (.call e es), s⟩ ⟨d, k, .args es, t⟩
  | call (he : e.eval (Closure.call d) k s = .ok (.func f) t)
    (hes : Expr.evalAll (Closure.call d) k es t = .ok vs u) :
    Part ⟨d, k, .expr (.call e es), s⟩ ⟨d, k, .call f vs, u⟩
  | firstArg : Part ⟨d, k, .args (e :: es), s⟩ ⟨d, k, .expr e, s⟩
  | moreArgs (he : e.eval (Closure.call d) k s = .ok v t) :
    Part ⟨d, k, .args (e :: es), s⟩ ⟨d, k, .args es, t⟩
  | bind (x : String) : Part ⟨d, k, .stmt (.bind x e), s⟩ ⟨d, k, .expr e, s⟩
  | ret : Part ⟨d, k, .stmt (.ret e), s⟩ ⟨d, k, .expr e, s⟩
  | value : Part ⟨d, k, .stmt (.expr e), s⟩ ⟨d, k, .expr e, s⟩
  | first (last : Option Value) : Part ⟨d, k, .block last (st :: ss), s⟩ ⟨d, k, .stmt st, s⟩
  | rest (last : Option Value) {result : Option Value}
    (hst : st.eval (Closure.call d) k s = .ok result t)
    (hr : ∀ w, result ≠ some (.returning w)) :
    Part ⟨d, k, .block last (st :: ss), s⟩ ⟨d, k, .block result ss, t⟩
  | enter (hf : f.params.length = vs.length) :
    Part ⟨d + 1, k, .call f vs, s⟩ (ofCall d f vs s)

def Reaches : Moment → Moment → Prop := Relation.ReflTransGen Part

set_option autoImplicit true in
/-- the parts whose value is the value of the whole -/
inductive Lead : Moment → Moment → Prop
  | value : Lead ⟨d, k, .stmt (.expr e), s⟩ ⟨d, k, .expr e, s⟩
  | first (last : Option Value) : Lead ⟨d, k, .block last (st :: ss), s⟩ ⟨d, k, .stmt st, s⟩
  | rest (last : Option Value) {result : Option Value}
    (hst : st.eval (Closure.call d) k s = .ok result t)
    (hr : ∀ w, result ≠ some (.returning w)) :
    Lead ⟨d, k, .block last (st :: ss), s⟩ ⟨d, k, .block result ss, t⟩
  | body (alternative : Option Block) (ht : test.eval (Closure.call d) k s = .ok v t)
    (hv : v.truthy = true) :
    Lead ⟨d, k, .expr (.cond test b alternative), s⟩ ⟨d, k, .block none b, t⟩
  | alternative (ht : test.eval (Closure.call d) k s = .ok v t) (hv : v.truthy = false) :
    Lead ⟨d, k, .expr (.cond test b (some o)), s⟩ ⟨d, k, .block none o, t⟩

def Leads : Moment → Moment → Prop := Relation.ReflTransGen Lead

/-! ## what leads ends the whole -/

/-- statements, or the expression of one, have the outcome `o` -/
def Ends (m : Moment) (o : Outcome (Option Value)) : Prop :=
  match m.task with
  | .expr e => (Stmt.expr e).eval (Closure.call m.depth) m.scope m.store = o
  | .stmt st => st.eval (Closure.call m.depth) m.scope m.store = o
  | .block last ss => Block.eval (Closure.call m.depth) m.scope last ss m.store = o
  | _ => False

theorem Lead.ends {m n : Moment} (h : m.Lead n) {o : Outcome (Option Value)} (hn : n.Ends o)
    (ho : o.Breaks) : m.Ends o := by
  cases h with
  | value => exact hn
  | first last => exact Block.eval_cons_of_breaks hn ho last _
  | rest last hst hr => exact (Block.eval_cons_of_ok hst hr last _).trans hn
  | body alternative ht hv =>
    exact (Evaluation.bind_congr (Expr.eval_cond_of_truthy ht hv _ alternative) _).trans
      (Block.eval_branch_of_breaks hn ho)
  | alternative ht hv =>
    exact (Evaluation.bind_congr (Expr.eval_cond_of_falsy ht hv _ _) _).trans
      (Block.eval_branch_of_breaks hn ho)

theorem Leads.ends {m n : Moment} (h : m.Leads n) {o : Outcome (Option Value)} (hn : n.Ends o)
    (ho : o.Breaks) : m.Ends o := by
  induction h with
  | refl => exact hn
  | tail _ hlead ih => exact ih (hlead.ends hn ho)

/-! ## scopes -/

theorem size_le_of_final? {m : Moment} {t : Store} (h : m.final? = some t) :
    m.store.scopes.size ≤ t.scopes.size := by
  obtain ⟨d, k, task, s⟩ := m
  have hcall : ∀ (f : Closure) vs,
      (f.call d vs).Keeps fun s t => s.scopes.size ≤ t.scopes.size :=
    fun f vs s t ht => (Closure.call_keeps_unchanged d f vs s t ht).size_le
  cases task with
  | expr e => exact Expr.eval_keeps (allows_grows k e.lets) hcall e (fun _ hx => hx) s t h
  | args es =>
    exact Expr.evalAll_keeps (allows_grows k (Expr.allLets es)) hcall es (fun _ hx => hx) s t h
  | stmt st => exact Stmt.eval_keeps (allows_grows k st.lets) hcall st (fun _ hx => hx) s t h
  | block last ss =>
    exact Block.eval_keeps (allows_grows k (Block.lets ss)) hcall ss last (fun _ hx => hx) s t h
  | call f args => exact hcall f args s t h

section
variable {d : Nat} {k : ScopeId} {s t : Store}

theorem final?_expr {e : Expr} {v : Value} (h : e.eval (Closure.call d) k s = .ok v t) :
    final? ⟨d, k, .expr e, s⟩ = some t := by
  show (e.eval (Closure.call d) k s).store? = some t
  rw [h]
  rfl

theorem final?_args {es : List Expr} {vs : List Value}
    (h : Expr.evalAll (Closure.call d) k es s = .ok vs t) : final? ⟨d, k, .args es, s⟩ = some t := by
  show (Expr.evalAll (Closure.call d) k es s).store? = some t
  rw [h]
  rfl

theorem final?_stmt {st : Stmt} {r : Option Value} (h : st.eval (Closure.call d) k s = .ok r t) :
    final? ⟨d, k, .stmt st, s⟩ = some t := by
  show (st.eval (Closure.call d) k s).store? = some t
  rw [h]
  rfl

end

/-- a property of scopes and stores that every start of a part inherits.  Each part starts in the
store of the whole or where an earlier part has ended, except for the body of a call -/
theorem Part.inherit {P : ScopeId → Store → Prop} {m n : Moment} (h : m.Part n)
    (hm : P m.scope m.store)
    (hend : ∀ p t, m.Part p → p.scope = m.scope → P p.scope p.store → p.final? = some t →
      P m.scope t)
    (hcall : ∀ d k f args s, m = ⟨d + 1, k, .call f args, s⟩ → f.params.length = args.length →
      P s.scopes.size (f.entry args s)) :
    P n.scope n.store := by
  cases h with
  | operand op => exact hm
  | left op => exact hm
  | right op hl => exact hend _ _ (.left op) rfl hm (final?_expr hl)
  | test alternative => exact hm
  | body alternative ht hv => exact hend _ _ (.test alternative) rfl hm (final?_expr ht)
  | alternative ht hv => exact hend _ _ (.test _) rfl hm (final?_expr ht)
  | callee => exact hm
  | args he => exact hend _ _ .callee rfl hm (final?_expr he)
  | call he hes =>
    have ht := hend _ _ .callee rfl hm (final?_expr he)
    exact hend _ _ (.args he) rfl ht (final?_args hes)
  | firstArg => exact hm
  | moreArgs he => exact hend _ _ .firstArg rfl hm (final?_expr he)
  | bind x => exact hm
  | ret => exact hm
  | value => exact hm
  | first last => exact hm
  | rest last hst hr => exact hend _ _ (.first last) rfl hm (final?_stmt hst)
  | enter hf => exact hcall _ _ _ _ _ rfl hf

theorem Reaches.scope_lt {start m : Moment} (h : start.Reaches m)
    (hstart : start.scope < start.store.scopes.size) : m.scope < m.store.scopes.size := by
  induction h with
  | refl => exact hstart
  | tail _ hpart ih =>
    refine hpart.inherit (P := fun k s => k < s.scopes.size) ih ?_ ?_
    · intro p t _ hk hp ht
      exact hk ▸ Nat.lt_of_lt_of_le hp (size_le_of_final? ht)
    · intro d k f args s _ _
      rw [Closure.size_entry]
      exact Nat.lt_succ_self _

end Moment

end MonkeyLang
