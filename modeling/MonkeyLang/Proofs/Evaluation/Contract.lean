import MonkeyLang.Proofs.Evaluation.Moment

/-!
# Contracts of evaluation

A contract says what holds of a moment when it starts, and of the values that it gives when it ends.
Whether all evaluation keeps to it is a question about single steps.

* `Outcome.Within`     the store has grown, an invariant holds of it, and a postcondition of the
                       result there;
* `Moment.part_induction`  what holds of a moment as soon as it holds of all its parts holds of
                       every moment;
* `Moment.Passes m n`  a value that the part `n` gives is one that `m` gives;
* `Contract inv pre post`  the single steps: `pre` comes down from a moment to its parts, `post`
                       goes up from the parts whose values are handed on, and `inv` survives what
                       is done to the store;
* `Contract.meets`, `Contract.program_within`   every moment meets its postcondition, and so does
                       a program;
* `Contract.reaches`   and every moment that is reached starts as it should.
-/

namespace MonkeyLang

/-! ## outcomes -/

section
variable {α β : Type} {inv : Store → Prop} {post : Store → α → Prop} {post' : Store → β → Prop}

/-- an evaluation that started in `s` ends in a store that has grown and keeps `inv`, and with a
result for which `post` holds there -/
def Outcome.Within (inv : Store → Prop) (post : Store → α → Prop) (s : Store) : Outcome α → Prop
  | ok a t => s.scopes.size ≤ t.scopes.size ∧ inv t ∧ post t a
  | error _ t => s.scopes.size ≤ t.scopes.size ∧ inv t
  | tooDeep => True

theorem Outcome.Within.of_ok {s t : Store} {o : Outcome α} {a : α} (h : o.Within inv post s)
    (ho : o = .ok a t) : s.scopes.size ≤ t.scopes.size ∧ inv t ∧ post t a := by
  rw [ho] at h
  exact h

theorem Outcome.Within.of_store? {s t : Store} {o : Outcome α} (h : o.Within inv post s)
    (ho : o.store? = some t) : inv t := by
  cases o with
  | ok a u => exact Option.some.inj ho ▸ h.2.1
  | error e u => exact Option.some.inj ho ▸ h.2
  | tooDeep => exact absurd ho (by simp [Outcome.store?])

/-- the store has grown all the more since an earlier time -/
theorem Outcome.Within.since {s t : Store} {o : Outcome α} (h : o.Within inv post t)
    (hle : s.scopes.size ≤ t.scopes.size) : o.Within inv post s := by
  cases o with
  | ok a u => exact ⟨Nat.le_trans hle h.1, h.2⟩
  | error e u => exact ⟨Nat.le_trans hle h.1, h.2⟩
  | tooDeep => exact trivial

theorem Outcome.Within.mono {s : Store} {o : Outcome α} (h : o.Within inv post s)
    {post' : Store → α → Prop} (hpost : ∀ t a, post t a → post' t a) : o.Within inv post' s := by
  cases o with
  | ok a t => exact ⟨h.1, h.2.1, hpost t a h.2.2⟩
  | error e t => exact h
  | tooDeep => exact trivial

theorem Outcome.Within.meets {s : Store} {o : Outcome α} (h : o.Within inv post s)
    {post' : α → Prop} (hpost : ∀ t a, post t a → post' a) : o.Meets inv post' := by
  cases o with
  | ok a t => exact ⟨h.2.1, hpost t a h.2.2⟩
  | error e t => exact h.2
  | tooDeep => exact trivial

/-- the second step starts where the first one ended -/
theorem Evaluation.within_bind {x : Evaluation α} {f : α → Evaluation β} {s : Store}
    (hx : (x s).Within inv post s)
    (hf : ∀ a t, x s = .ok a t → s.scopes.size ≤ t.scopes.size → inv t → post t a →
      (f a t).Within inv post' t) :
    ((x >>= f) s).Within inv post' s := by
  cases hs : x s with
  | ok a t =>
    rw [bind_of_ok f hs]
    obtain ⟨hle, ht, ha⟩ := hx.of_ok hs
    exact (hf a t hs hle ht ha).since hle
  | error e t =>
    rw [hs] at hx
    rw [bind_of_error f hs]
    exact hx
  | tooDeep =>
    rw [bind_of_tooDeep f hs]
    exact trivial

end

/-! ## from the parts to the whole -/

/-- how much of a tree is to be evaluated; what a call evaluates is in no tree at hand -/
noncomputable def Task.size : Task → Nat
  | expr e => sizeOf e
  | args es => sizeOf es
  | stmt st => sizeOf st
  | block _ ss => sizeOf ss
  | call _ _ => 0

namespace Moment

/-- a part has less to evaluate, or fewer calls may be open in it -/
theorem Part.lt {m n : Moment} (h : m.Part n) :
    Prod.Lex (· < ·) (· < ·) (n.depth, n.task.size) (m.depth, m.task.size) := by
  cases h with
  | enter => exact .left _ _ (Nat.lt_succ_self _)
  | alternative =>
    refine .right _ ?_
    simp only [Task.size, Expr.cond.sizeOf_spec, Option.some.sizeOf_spec]
    omega
  | _ =>
    refine .right _ ?_
    simp only [Task.size, Expr.unary.sizeOf_spec, Expr.binary.sizeOf_spec, Expr.cond.sizeOf_spec,
      Expr.call.sizeOf_spec, Stmt.bind.sizeOf_spec, Stmt.ret.sizeOf_spec, Stmt.expr.sizeOf_spec,
      List.cons.sizeOf_spec]
    omega

theorem part_induction {motive : Moment → Prop}
    (step : ∀ m, (∀ n, m.Part n → motive n) → motive m) (m : Moment) : motive m :=
  step m fun n _ => part_induction step n
termination_by (m.depth, m.task.size)
decreasing_by exact Part.lt ‹_›

/-- the evaluation keeps `inv`, and `post` holds of all values that it gives -/
def Meets (inv : Store → Prop) (post : Moment → Store → Value → Prop) (m : Moment) : Prop :=
  match m.task with
  | .expr e => (e.eval (Closure.call m.depth) m.scope m.store).Within inv (post m) m.store
  | .args es => (Expr.evalAll (Closure.call m.depth) m.scope es m.store).Within inv
      (fun t vs => ∀ v ∈ vs, post m t v) m.store
  | .stmt st => (st.eval (Closure.call m.depth) m.scope m.store).Within inv
      (fun t r => ∀ v ∈ r, post m t v) m.store
  | .block last ss => (Block.eval (Closure.call m.depth) m.scope last ss m.store).Within inv
      (fun t r => ∀ v ∈ r, post m t v) m.store
  | .call f vs => (f.call m.depth vs m.store).Within inv (post m) m.store

theorem Meets.final {inv : Store → Prop} {post : Moment → Store → Value → Prop} {m : Moment}
    (h : m.Meets inv post) {t : Store} (ht : m.final? = some t) : inv t := by
  obtain ⟨d, k, task, s⟩ := m
  cases task with
  | expr e => exact Outcome.Within.of_store? h ht
  | args es => exact Outcome.Within.of_store? h ht
  | stmt st => exact Outcome.Within.of_store? h ht
  | block last ss => exact Outcome.Within.of_store? h ht
  | call f vs => exact Outcome.Within.of_store? h ht

set_option autoImplicit true in
/-- the parts whose values are among those of the whole -/
inductive Passes : Moment → Moment → Prop
  | lead (h : Lead m n) : Passes m n
  | call (he : e.eval (Closure.call d) k s = .ok (.func f) t)
    (hes : Expr.evalAll (Closure.call d) k es t = .ok vs u) :
    Passes ⟨d, k, .expr (.call e es), s⟩ ⟨d, k, .call f vs, u⟩
  | firstArg : Passes ⟨d, k, .args (e :: es), s⟩ ⟨d, k, .expr e, s⟩
  | moreArgs (he : e.eval (Closure.call d) k s = .ok v t) :
    Passes ⟨d, k, .args (e :: es), s⟩ ⟨d, k, .args es, t⟩

end Moment

/-! ## contracts -/

section
variable (inv : Store → Prop) (pre : Moment → Prop) (post : Moment → Store → Value → Prop)

open Moment

/-- the single steps of an evaluation keep to `inv`, `pre` and `post` -/
structure Contract : Prop where
  /-- a part starts as it should, if the parts before it have kept to the contract -/
  part : ∀ {m n}, m.Part n → pre m → inv m.store →
    (∀ p, m.Part p → pre p → inv p.store → p.Meets inv post) → pre n
  entry : ∀ {d k f vs s}, pre ⟨d + 1, k, .call f vs, s⟩ → inv s →
    f.params.length = vs.length → inv (f.entry vs s)
  plain : ∀ {m t v}, v.Plain → post m t v
  null : ∀ {m t}, post m t .null
  name : ∀ {d k x s v}, inv s → s.get? k x = some v → post ⟨d, k, .expr (.name x), s⟩ s v
  func : ∀ {d k params body s}, pre ⟨d, k, .expr (.func params body), s⟩ → inv s →
    inv (s.newClosure params body k).2 ∧
      post ⟨d, k, .expr (.func params body), s⟩ (s.newClosure params body k).2
        (.func (s.newClosure params body k).1)
  last : ∀ {d k last s}, pre ⟨d, k, .block last [], s⟩ →
    ∀ v ∈ last, post ⟨d, k, .block last [], s⟩ s v
  bind : ∀ {d k x e s v t}, pre ⟨d, k, .stmt (.bind x e), s⟩ →
    e.eval (Closure.call d) k s = .ok v t → inv t → post ⟨d, k, .expr e, s⟩ t v →
    inv (t.set k x v)
  ret : ∀ {d k e s v t}, pre ⟨d, k, .stmt (.ret e), s⟩ →
    e.eval (Closure.call d) k s = .ok v t → post ⟨d, k, .expr e, s⟩ t v →
    post ⟨d, k, .stmt (.ret e), s⟩ t (.returning v)
  /-- the store may have grown since the part ended -/
  pass : ∀ {m n t u v}, m.Passes n → t.scopes.size ≤ u.scopes.size → post n t v → post m u v
  body : ∀ {d k f vs s t v}, pre ⟨d + 1, k, .call f vs, s⟩ → f.params.length = vs.length →
    post (ofCall d f vs s) t v → post ⟨d + 1, k, .call f vs, s⟩ t v.unwrap

end

namespace Contract
variable {inv : Store → Prop} {pre : Moment → Prop} {post : Moment → Store → Value → Prop}
  (hC : Contract inv pre post)
include hC

open Evaluation Moment

theorem within_ofExcept {m : Moment} {s : Store} (hs : inv s) {r : Except RuntimeError Value}
    (hr : ∀ v, r = .ok v → v.Plain) : (ofExcept r s).Within inv (post m) s := by
  cases r with
  | ok v => exact ⟨Nat.le_refl _, hs, hC.plain (hr v rfl)⟩
  | error e => exact ⟨Nat.le_refl _, hs⟩

section
variable {d : Nat} {k : ScopeId} {s : Store}

/-- a branch of a conditional hands on what its block gives -/
theorem within_branch {m : Moment} {b : Block} {t : Store} (hl : m.Lead ⟨d, k, .block none b, t⟩)
    (h : Meets inv post ⟨d, k, .block none b, t⟩) :
    ((do let r ← Block.eval (Closure.call d) k none b; return r.getD .null :
      Evaluation Value) t).Within inv (post m) t := by
  refine within_bind h fun r u _ _ hu hr => ⟨Nat.le_refl _, hu, ?_⟩
  cases r with
  | none => exact hC.null
  | some v => exact hC.pass (.lead hl) (Nat.le_refl _) (hr v rfl)

theorem meets_expr {e : Expr} (hm : pre ⟨d, k, .expr e, s⟩) (hs : inv s)
    (hparts : ∀ {n}, Part ⟨d, k, .expr e, s⟩ n → n.Meets inv post) :
    Meets inv post ⟨d, k, .expr e, s⟩ := by
  cases e with
  | name x =>
    show (Evaluation.get k x s).Within _ _ _
    unfold Evaluation.get
    split
    case h_1 v hv => exact ⟨Nat.le_refl _, hs, hC.name hs hv⟩
    case h_2 => exact ⟨Nat.le_refl _, hs⟩
  | int n => exact ⟨Nat.le_refl _, hs, hC.plain trivial⟩
  | bool b => exact ⟨Nat.le_refl _, hs, hC.plain trivial⟩
  | unary op e =>
    refine within_bind (hparts (.operand op)) fun v t _ _ ht _ => ?_
    exact hC.within_ofExcept ht fun _ => Value.plain_of_unary
  | binary l op r =>
    refine within_bind (hparts (.left op)) fun v t hl _ _ _ => ?_
    refine within_bind (hparts (.right op hl)) fun w u _ _ hu _ => ?_
    exact hC.within_ofExcept hu fun _ => Value.plain_of_binary
  | cond test body alternative =>
    have htest := hparts (.test alternative)
    cases alternative with
    | none =>
      refine within_bind htest fun v t ht _ hst _ => ?_
      cases hv : v.truthy with
      | true => exact hC.within_branch (.body none ht hv) (hparts (.body none ht hv))
      | false => exact ⟨Nat.le_refl _, hst, hC.null⟩
    | some other =>
      refine within_bind htest fun v t ht _ _ _ => ?_
      cases hv : v.truthy with
      | true => exact hC.within_branch (.body _ ht hv) (hparts (.body _ ht hv))
      | false => exact hC.within_branch (.alternative ht hv) (hparts (.alternative ht hv))
  | func params body => exact ⟨Nat.le_refl _, hC.func hm hs⟩
  | call callee args =>
    refine within_bind (hparts .callee) fun f t hf _ _ _ => ?_
    refine within_bind (hparts (.args hf)) fun vs u hvs _ hu _ => ?_
    cases f with
    | func f =>
      have hcall : (f.call d vs u).Within inv (post ⟨d, k, .call f vs, u⟩) u :=
        hparts (.call hf hvs)
      refine hcall.mono fun w v hv => ?_
      exact hC.pass (.call hf hvs) (Nat.le_refl _) hv
    | int n => exact ⟨Nat.le_refl _, hu⟩
    | bool b => exact ⟨Nat.le_refl _, hu⟩
    | null => exact ⟨Nat.le_refl _, hu⟩
    | returning v => exact ⟨Nat.le_refl _, hu⟩
    | error e => exact ⟨Nat.le_refl _, hu⟩

theorem meets_args {es : List Expr} (hs : inv s)
    (hparts : ∀ {n}, Part ⟨d, k, .args es, s⟩ n → n.Meets inv post) :
    Meets inv post ⟨d, k, .args es, s⟩ := by
  cases es with
  | nil => exact ⟨Nat.le_refl _, hs, by simp⟩
  | cons e es =>
    refine within_bind (hparts .firstArg) fun v t he _ _ hv => ?_
    refine within_bind (hparts (.moreArgs he)) fun vs u _ hle hu hvs => ⟨Nat.le_refl _, hu, ?_⟩
    refine List.forall_mem_cons.mpr ⟨hC.pass .firstArg hle hv, fun w hw => ?_⟩
    exact hC.pass (.moreArgs he) (Nat.le_refl _) (hvs w hw)

theorem meets_stmt {st : Stmt} (hm : pre ⟨d, k, .stmt st, s⟩)
    (hparts : ∀ {n}, Part ⟨d, k, .stmt st, s⟩ n → n.Meets inv post) :
    Meets inv post ⟨d, k, .stmt st, s⟩ := by
  cases st with
  | bind x e =>
    refine within_bind (hparts (.bind x)) fun v t he _ ht hv => ?_
    exact ⟨Nat.le_of_eq (Store.size_set t k x v).symm, hC.bind hm he ht hv, by simp⟩
  | ret e =>
    refine within_bind (hparts .ret) fun v t he _ ht hv => ⟨Nat.le_refl _, ht, ?_⟩
    rintro w ⟨rfl⟩
    exact hC.ret hm he hv
  | expr e =>
    refine within_bind (hparts .value) fun v t _ _ ht hv => ⟨Nat.le_refl _, ht, ?_⟩
    rintro w ⟨rfl⟩
    exact hC.pass (.lead .value) (Nat.le_refl _) hv

theorem meets_block {last : Option Value} {ss : List Stmt} (hm : pre ⟨d, k, .block last ss, s⟩)
    (hs : inv s) (hparts : ∀ {n}, Part ⟨d, k, .block last ss, s⟩ n → n.Meets inv post) :
    Meets inv post ⟨d, k, .block last ss, s⟩ := by
  cases ss with
  | nil => exact ⟨Nat.le_refl _, hs, hC.last hm⟩
  | cons st ss =>
    refine within_bind (hparts (.first last)) fun r t hst _ ht hr => ?_
    split
    case h_1 v =>
      refine ⟨Nat.le_refl _, ht, fun w hw => ?_⟩
      exact hC.pass (.lead (.first last)) (Nat.le_refl _) (hr w hw)
    case h_2 hne =>
      have hrest : (Block.eval (Closure.call d) k r ss t).Within inv _ t :=
        hparts (.rest last hst hne)
      refine hrest.mono fun u r' hr' w hw => ?_
      exact hC.pass (.lead (.rest last hst hne)) (Nat.le_refl _) (hr' w hw)

theorem meets_call {f : Closure} {vs : List Value} (hm : pre ⟨d, k, .call f vs, s⟩) (hs : inv s)
    (hparts : ∀ {n}, Part ⟨d, k, .call f vs, s⟩ n → n.Meets inv post) :
    Meets inv post ⟨d, k, .call f vs, s⟩ := by
  cases d with
  | zero => exact trivial
  | succ d =>
    show (f.call (d + 1) vs s).Within _ _ _
    by_cases hf : f.params.length = vs.length
    · rw [Closure.call_of_length hf]
      have hsize : s.scopes.size ≤ (f.entry vs s).scopes.size := by
        rw [Closure.size_entry]
        exact Nat.le_succ _
      -- the body starts in a store that is larger by the scope of the call
      refine Outcome.Within.since (t := f.entry vs s) ?_ hsize
      refine within_bind (hparts (.enter hf)) fun r t _ _ ht hr => ⟨Nat.le_refl _, ht, ?_⟩
      cases r with
      | none => exact hC.null
      | some v => exact hC.body hm hf (hr v rfl)
    · rw [Closure.call_of_length_ne hf]
      exact ⟨Nat.le_refl _, hs⟩

end

/-- the store in which a part starts is that of the whole, that in which an earlier part has ended,
or that of a call that is entered -/
theorem store_of_part {m n : Moment} (h : m.Part n) (hm : pre m) (hs : inv m.store)
    (hparts : ∀ p, m.Part p → pre p → inv p.store → p.Meets inv post) : inv n.store := by
  refine h.inherit (P := fun _ s => inv s) hs ?_ ?_
  · intro p t hp _ hps ht
    exact (hparts p hp (hC.part hp hm hs hparts) hps).final ht
  · rintro d k f vs s rfl hf
    exact hC.entry hm hs hf

/-- every moment keeps to the contract -/
theorem meets {m : Moment} (hm : pre m) (hs : inv m.store) : m.Meets inv post := by
  induction m using part_induction with
  | step m ih =>
    have hparts : ∀ {n}, m.Part n → n.Meets inv post := fun h =>
      ih _ h (hC.part h hm hs ih) (hC.store_of_part h hm hs ih)
    obtain ⟨d, k, task, s⟩ := m
    cases task with
    | expr e => exact hC.meets_expr hm hs hparts
    | args es => exact hC.meets_args hs hparts
    | stmt st => exact hC.meets_stmt hm hparts
    | block last ss => exact hC.meets_block hm hs hparts
    | call f vs => exact hC.meets_call hm hs hparts

/-- a program takes a mark off what its statements give -/
theorem program_within {depth : Nat} {scope : ScopeId} {p : Program} {s : Store}
    (hm : pre (ofProgram depth scope p s)) (hs : inv s) {post' : Store → Value → Prop}
    (hpost : ∀ t v, post (ofProgram depth scope p s) t v → post' t v.unwrap) :
    (p.eval depth scope s).Within inv (fun t r => ∀ v ∈ r, post' t v) s := by
  have hblock : Meets inv post (ofProgram depth scope p s) := hC.meets hm hs
  refine within_bind hblock fun r t _ _ ht hr => ⟨Nat.le_refl _, ht, fun v hv => ?_⟩
  obtain ⟨u, hu, rfl⟩ := Option.map_eq_some_iff.mp hv
  exact hpost t u (hr u hu)

theorem reaches {m n : Moment} (h : m.Reaches n) (hm : pre m) (hs : inv m.store) :
    pre n ∧ inv n.store := by
  induction h with
  | refl => exact ⟨hm, hs⟩
  | @tail b c _ hpart ih =>
    have hparts : ∀ p, b.Part p → pre p → inv p.store → p.Meets inv post :=
      fun p _ hp hps => hC.meets hp hps
    exact ⟨hC.part hpart ih.1 ih.2 hparts, hC.store_of_part hpart ih.1 ih.2 hparts⟩

end Contract

end MonkeyLang
