import MonkeyLang.Proofs.Evaluation.Alike
import MonkeyLang.Proofs.Evaluation.Moment
import MonkeyLang.Session

/-!
# How deep calls may nest

* `Evaluation.Below x y`   wherever `x` ends, `y` ends in the same way;
* `Evaluation.below_bind`  a sequence of two steps is below another one if its steps are;
* `Expr.eval_below`        a tree evaluates below itself when calls do;
* `Closure.call_below`     and so do calls that may nest deeper.

A larger depth therefore changes no answer that has been given (`Program.settle_mono`,
`Session.run_mono`).

* `Moment.Overflows`       a call is reached when no more calls may be open.

This is the one reason for which an evaluation does not end (`Moment.endless_iff`,
`Session.run_eq_none_iff`).  A function that does nothing but call itself does so at every depth
(`Closure.overflows_of_self_call`).
-/

set_option linter.unusedSectionVars false

namespace MonkeyLang

namespace Evaluation

section
variable {α β : Type}

/-- wherever the first evaluation ends, the second one ends in the same way -/
def Below (x y : Evaluation α) : Prop := ∀ s, x s = .tooDeep ∨ x s = y s

theorem below_refl (x : Evaluation α) : x.Below x := fun _ => .inr rfl

theorem below_bind {x y : Evaluation α} {f g : α → Evaluation β} (hx : x.Below y)
    (hf : ∀ a, (f a).Below (g a)) : (x >>= f).Below (y >>= g) := by
  intro s
  rcases hx s with h | h
  · exact .inl (bind_of_tooDeep f h)
  · cases hy : y s with
    | ok a t =>
      rw [bind_of_ok f (h.trans hy), bind_of_ok g hy]
      exact hf a t
    | error e t =>
      rw [bind_of_error f (h.trans hy), bind_of_error g hy]
      exact .inr rfl
    | tooDeep => exact .inl (bind_of_tooDeep f (h.trans hy))

/-- the second step is the same one -/
theorem Below.bind_right {x y : Evaluation α} (h : x.Below y) (f : α → Evaluation β) :
    (x >>= f).Below (y >>= f) :=
  below_bind h fun a => below_refl (f a)

end

end Evaluation

/-! ## trees -/

section
variable {call call' : Closure → List Value → Evaluation Value}
  (hcall : ∀ f vs, (call f vs).Below (call' f vs)) (k : ScopeId)
include hcall

open Evaluation

mutual

theorem Expr.eval_below : ∀ e : Expr, (e.eval call k).Below (e.eval call' k)
  | .name x => below_refl _
  | .int n => below_refl _
  | .bool b => below_refl _
  | .unary op e => (Expr.eval_below e).bind_right _
  | .binary l op r => by
    apply below_bind (Expr.eval_below l)
    intro v
    exact (Expr.eval_below r).bind_right _
  | .cond test body none => by
    apply below_bind (Expr.eval_below test)
    intro v
    split
    · exact (Block.eval_below none body).bind_right _
    · exact below_refl _
  | .cond test body (some other) => by
    apply below_bind (Expr.eval_below test)
    intro v
    split
    · exact (Block.eval_below none body).bind_right _
    · exact (Block.eval_below none other).bind_right _
  | .func params body => below_refl _
  | .call callee args => by
    apply below_bind (Expr.eval_below callee)
    intro f
    apply below_bind (Expr.evalAll_below args)
    intro vs
    split
    · exact hcall _ vs
    · exact below_refl _

theorem Expr.evalAll_below :
    ∀ es : List Expr, (Expr.evalAll call k es).Below (Expr.evalAll call' k es)
  | [] => below_refl _
  | e :: es => by
    apply below_bind (Expr.eval_below e)
    intro v
    exact (Expr.evalAll_below es).bind_right _

theorem Stmt.eval_below : ∀ st : Stmt, (st.eval call k).Below (st.eval call' k)
  | .bind _ e => (Expr.eval_below e).bind_right _
  | .ret e => (Expr.eval_below e).bind_right _
  | .expr e => (Expr.eval_below e).bind_right _

theorem Block.eval_below : ∀ (last : Option Value) (ss : List Stmt),
    (Block.eval call k last ss).Below (Block.eval call' k last ss)
  | last, [] => below_refl _
  | last, st :: ss => by
    apply below_bind (Stmt.eval_below st)
    intro r
    split
    · exact below_refl _
    · exact Block.eval_below r ss

end

end

/-! ## calls, programs and texts -/

section
variable {d d' : Nat} (hd : d ≤ d')
include hd

theorem Closure.call_below (f : Closure) (vs : List Value) :
    (f.call d vs).Below (f.call d' vs) := by
  induction d generalizing d' f vs with
  | zero => exact fun _ => .inl rfl
  | succ d ih =>
    obtain ⟨d', rfl⟩ : ∃ n, d' = n + 1 := ⟨d' - 1, by omega⟩
    have hcall := ih (Nat.le_of_succ_le_succ hd)
    intro s
    by_cases hlen : f.params.length = vs.length
    · rw [call_of_length hlen, call_of_length hlen]
      exact (Block.eval_below hcall s.scopes.size none f.body).bind_right _ _
    · rw [call_of_length_ne hlen, call_of_length_ne hlen]
      exact .inr rfl

theorem Program.settle_mono {scope : ScopeId} {p : Program} {s : Store}
    {r : Option Value × Store} (h : (p.eval d scope s).settle = some r) :
    (p.eval d' scope s).settle = some r := by
  have hbelow : (p.eval d scope).Below (p.eval d' scope) :=
    (Block.eval_below (Closure.call_below hd) scope none p).bind_right _
  rcases hbelow s with hs | hs
  · rw [hs] at h
    cases h
  · rwa [← hs]

theorem Session.run_mono {source : String} {s : Session}
    {r : Except RunError (Option Value) × Session} (h : s.run d source = some r) :
    s.run d' source = some r := by
  unfold run at h ⊢
  split at h
  case h_1 => exact h
  case h_2 p _ =>
    obtain ⟨settled, hsettled, hr⟩ := Option.bind_eq_some_iff.mp h
    exact Option.bind_eq_some_iff.mpr ⟨settled, Program.settle_mono hd hsettled, hr⟩
  case h_3 => exact h

end

/-! ## evaluations that do not end -/

namespace Evaluation

theorem bind_eq_tooDeep {α β : Type} {x : Evaluation α} {f : α → Evaluation β} {s : Store}
    (h : (x >>= f) s = .tooDeep) :
    x s = .tooDeep ∨ ∃ a t, x s = .ok a t ∧ f a t = .tooDeep := by
  cases hx : x s with
  | ok a t =>
    rw [bind_of_ok f hx] at h
    exact .inr ⟨a, t, rfl, h⟩
  | error e t =>
    rw [bind_of_error f hx] at h
    cases h
  | tooDeep => exact .inl rfl

/-- nothing can go on for ever after the last step of a sequence that ends with a value -/
theorem eq_tooDeep_of_bind_pure {α β : Type} {x : Evaluation α} {g : α → β} {s : Store}
    (h : (x >>= fun a => pure (g a)) s = .tooDeep) : x s = .tooDeep := by
  rcases bind_eq_tooDeep h with hx | ⟨a, t, -, ha⟩
  · exact hx
  · cases ha

theorem ofExcept_ne_tooDeep {α : Type} (r : Except RuntimeError α) (s : Store) :
    ofExcept r s ≠ .tooDeep := by
  intro h
  cases r with
  | ok a => cases h
  | error e => cases h

end Evaluation

namespace Moment

/-- the evaluation does not end -/
def Endless (m : Moment) : Prop :=
  match m.task with
  | .expr e => e.eval (Closure.call m.depth) m.scope m.store = .tooDeep
  | .args es => Expr.evalAll (Closure.call m.depth) m.scope es m.store = .tooDeep
  | .stmt st => st.eval (Closure.call m.depth) m.scope m.store = .tooDeep
  | .block last ss => Block.eval (Closure.call m.depth) m.scope last ss m.store = .tooDeep
  | .call f args => f.call m.depth args m.store = .tooDeep

/-- a call is reached when no more calls may be open -/
def Overflows (m : Moment) : Prop := ∃ f vs k s, m.Reaches ⟨0, k, .call f vs, s⟩

theorem Part.overflows {m n : Moment} (h : m.Part n) (hn : n.Overflows) : m.Overflows := by
  obtain ⟨f, vs, k, s, hreach⟩ := hn
  exact ⟨f, vs, k, s, .head h hreach⟩

end Moment

section
variable {d : Nat} {k : ScopeId}
  (hcall : ∀ f vs s, Closure.call d f vs s = .tooDeep → Moment.Overflows ⟨d, k, .call f vs, s⟩)
include hcall

open Evaluation Moment

mutual

theorem Expr.overflows_of_eval : ∀ (e : Expr) (s : Store), e.eval (Closure.call d) k s = .tooDeep →
    Overflows ⟨d, k, .expr e, s⟩
  | .name x, s, h => by
    change Evaluation.get k x s = _ at h
    unfold Evaluation.get at h
    split at h <;> cases h
  | .int n, s, h => by cases h
  | .bool b, s, h => by cases h
  | .unary op e, s, h => by
    rcases bind_eq_tooDeep h with he | ⟨v, t, -, hop⟩
    · exact Part.overflows (.operand op) (Expr.overflows_of_eval e s he)
    · exact absurd hop (ofExcept_ne_tooDeep _ t)
  | .binary l op r, s, h => by
    rcases bind_eq_tooDeep h with hl | ⟨v, t, hl, h⟩
    · exact Part.overflows (.left op) (Expr.overflows_of_eval l s hl)
    · rcases bind_eq_tooDeep h with hr | ⟨w, u, -, hop⟩
      · exact Part.overflows (.right op hl) (Expr.overflows_of_eval r t hr)
      · exact absurd hop (ofExcept_ne_tooDeep _ u)
  | .cond test body none, s, h => by
    rcases bind_eq_tooDeep h with ht | ⟨v, t, ht, h⟩
    · exact Part.overflows (.test none) (Expr.overflows_of_eval test s ht)
    · split at h
      case isTrue hv =>
        have hbody := eq_tooDeep_of_bind_pure h
        exact Part.overflows (.body none ht hv) (Block.overflows_of_eval body none t hbody)
      case isFalse => cases h
  | .cond test body (some other), s, h => by
    rcases bind_eq_tooDeep h with ht | ⟨v, t, ht, h⟩
    · exact Part.overflows (.test _) (Expr.overflows_of_eval test s ht)
    · split at h
      case isTrue hv =>
        have hbody := eq_tooDeep_of_bind_pure h
        exact Part.overflows (.body _ ht hv) (Block.overflows_of_eval body none t hbody)
      case isFalse hv =>
        have hother := eq_tooDeep_of_bind_pure h
        exact Part.overflows (.alternative ht (Bool.eq_false_iff.mpr hv))
          (Block.overflows_of_eval other none t hother)
  | .func params body, s, h => by cases h
  | .call callee args, s, h => by
    rcases bind_eq_tooDeep h with hf | ⟨v, t, hf, h⟩
    · exact Part.overflows .callee (Expr.overflows_of_eval callee s hf)
    · rcases bind_eq_tooDeep h with hvs | ⟨vs, u, hvs, h⟩
      · exact Part.overflows (.args hf) (Expr.overflows_of_evalAll args t hvs)
      · cases v with
        | func f => exact Part.overflows (.call hf hvs) (hcall f vs u h)
        | int | bool | null | returning | error => cases h

theorem Expr.overflows_of_evalAll : ∀ (es : List Expr) (s : Store),
    Expr.evalAll (Closure.call d) k es s = .tooDeep → Overflows ⟨d, k, .args es, s⟩
  | [], s, h => by cases h
  | e :: es, s, h => by
    rcases bind_eq_tooDeep h with he | ⟨v, t, he, h⟩
    · exact Part.overflows .firstArg (Expr.overflows_of_eval e s he)
    · have hes := eq_tooDeep_of_bind_pure h
      exact Part.overflows (.moreArgs he) (Expr.overflows_of_evalAll es t hes)

theorem Stmt.overflows_of_eval : ∀ (st : Stmt) (s : Store),
    st.eval (Closure.call d) k s = .tooDeep → Overflows ⟨d, k, .stmt st, s⟩
  | .bind x e, s, h => by
    rcases bind_eq_tooDeep h with he | ⟨v, t, -, h⟩
    · exact Part.overflows (.bind x) (Expr.overflows_of_eval e s he)
    · cases h
  | .ret e, s, h =>
    Part.overflows .ret (Expr.overflows_of_eval e s (eq_tooDeep_of_bind_pure h))
  | .expr e, s, h =>
    Part.overflows .value (Expr.overflows_of_eval e s (eq_tooDeep_of_bind_pure h))

theorem Block.overflows_of_eval : ∀ (ss : List Stmt) (last : Option Value) (s : Store),
    Block.eval (Closure.call d) k last ss s = .tooDeep → Overflows ⟨d, k, .block last ss, s⟩
  | [], last, s, h => by cases h
  | st :: ss, last, s, h => by
    rcases bind_eq_tooDeep h with hst | ⟨r, t, hst, h⟩
    · exact Part.overflows (.first last) (Stmt.overflows_of_eval st s hst)
    · split at h
      case h_1 => cases h
      case h_2 hr =>
        exact Part.overflows (.rest last hst hr) (Block.overflows_of_eval ss r t h)

end

end

theorem Closure.overflows_of_call (d : Nat) (k : ScopeId) (f : Closure) (vs : List Value)
    (s : Store) (h : f.call d vs s = .tooDeep) : Moment.Overflows ⟨d, k, .call f vs, s⟩ := by
  induction d generalizing k f vs s with
  | zero => exact ⟨f, vs, k, s, .refl⟩
  | succ d ih =>
    by_cases hlen : f.params.length = vs.length
    · rw [call_of_length hlen] at h
      have hbody := Evaluation.eq_tooDeep_of_bind_pure h
      exact Moment.Part.overflows (.enter hlen)
        (Block.overflows_of_eval (ih s.scopes.size) f.body none _ hbody)
    · rw [call_of_length_ne hlen] at h
      cases h

namespace Moment

/-- a part that does not end keeps the whole from ending -/
theorem Part.endless {m n : Moment} (h : m.Part n) (hn : n.Endless) : m.Endless := by
  cases h with
  | operand op => exact Evaluation.bind_of_tooDeep _ hn
  | left op => exact Evaluation.bind_of_tooDeep _ hn
  | right op hl => exact (Evaluation.bind_of_ok _ hl).trans (Evaluation.bind_of_tooDeep _ hn)
  | test alternative => cases alternative <;> exact Evaluation.bind_of_tooDeep _ hn
  | body alternative ht hv =>
    exact (Expr.eval_cond_of_truthy ht hv _ alternative).trans (Evaluation.bind_of_tooDeep _ hn)
  | alternative ht hv =>
    exact (Expr.eval_cond_of_falsy ht hv _ _).trans (Evaluation.bind_of_tooDeep _ hn)
  | callee => exact Evaluation.bind_of_tooDeep _ hn
  | args he => exact (Evaluation.bind_of_ok _ he).trans (Evaluation.bind_of_tooDeep _ hn)
  | call he hes =>
    exact (Evaluation.bind_of_ok _ he).trans ((Evaluation.bind_of_ok _ hes).trans hn)
  | firstArg => exact Evaluation.bind_of_tooDeep _ hn
  | moreArgs he => exact (Evaluation.bind_of_ok _ he).trans (Evaluation.bind_of_tooDeep _ hn)
  | bind x => exact Evaluation.bind_of_tooDeep _ hn
  | ret => exact Evaluation.bind_of_tooDeep _ hn
  | value => exact Evaluation.bind_of_tooDeep _ hn
  | first last => exact Evaluation.bind_of_tooDeep _ hn
  | rest last hst hr => exact (Block.eval_cons_of_ok hst hr last _).trans hn
  | enter hf => exact (Closure.call_of_length hf _ _).trans (Evaluation.bind_of_tooDeep _ hn)

/-- an evaluation ends unless it reaches a call when no more calls may be open -/
theorem endless_iff {m : Moment} : m.Endless ↔ m.Overflows := by
  constructor
  · intro h
    obtain ⟨d, k, task, s⟩ := m
    have hcall := Closure.overflows_of_call d k
    cases task with
    | expr e => exact Expr.overflows_of_eval hcall e s h
    | args es => exact Expr.overflows_of_evalAll hcall es s h
    | stmt st => exact Stmt.overflows_of_eval hcall st s h
    | block last ss => exact Block.overflows_of_eval hcall ss last s h
    | call f vs => exact hcall f vs s h
  · rintro ⟨f, vs, k, s, hreach⟩
    induction hreach using Relation.ReflTransGen.head_induction_on with
    | refl => exact f.call_zero vs s
    | head hpart _ ih => exact hpart.endless ih

end Moment

theorem Closure.overflows_of_self_call {f : Closure} {x : String} (hparams : f.params = [])
    (hbody : f.body = [.expr (.call (.name x) [])]) (d : Nat) (k : ScopeId) {s : Store}
    (hf : f.scope < s.scopes.size) (hself : s.get? f.scope x = some (.func f)) :
    Moment.Overflows ⟨d, k, .call f [], s⟩ := by
  induction d generalizing k s with
  | zero => exact ⟨f, [], k, s, .refl⟩
  | succ d ih =>
    have hgrown : f.scope < (f.entry [] s).scopes.size := by
      rw [size_entry]
      exact Nat.lt_succ_of_lt hf
    -- the name still stands for the function, where the function was made and in the new scope
    have hstill : (f.entry [] s).get? f.scope x = some (.func f) := by
      rw [(f.unchanged_entry [] s).get? hf, hself]
    have hname : (Expr.name x).eval (Closure.call d) s.scopes.size (f.entry [] s) =
        .ok (.func f) (f.entry [] s) := by
      have hget := f.get?_entry_self [] hf (x := x) (by simp)
      rw [hself] at hget
      show Evaluation.get s.scopes.size x (f.entry [] s) = _
      rw [Evaluation.get, hget]
    have hcall := ih s.scopes.size hgrown hstill
    have hblock : Moment.Overflows ⟨d, s.scopes.size, .block none f.body, f.entry [] s⟩ := by
      rw [hbody]
      exact Moment.Part.overflows (.first none)
        (Moment.Part.overflows .value (Moment.Part.overflows (.call hname rfl) hcall))
    exact Moment.Part.overflows (.enter (by simp [hparams])) hblock

theorem Program.settle_eq_none_iff {depth : Nat} {scope : ScopeId} {p : Program} {s : Store} :
    (p.eval depth scope s).settle = none ↔ (Moment.ofProgram depth scope p s).Overflows := by
  rw [← Moment.endless_iff]
  show _ ↔ Block.eval (Closure.call depth) scope none p s = .tooDeep
  cases hblock : Block.eval (Closure.call depth) scope none p s with
  | ok r t =>
    rw [Program.eval, Evaluation.bind_of_ok _ hblock]
    simp [Evaluation.pure_apply, Outcome.settle]
  | error e t =>
    rw [Program.eval, Evaluation.bind_of_error _ hblock]
    simp [Outcome.settle]
  | tooDeep =>
    rw [Program.eval, Evaluation.bind_of_tooDeep _ hblock]
    simp [Outcome.settle]

/-- a text is answered, unless its program reaches a call when no more calls may be open -/
theorem Session.run_eq_none_iff {depth : Nat} {source : String} {s : Session} :
    s.run depth source = none ↔ ∃ p, Program.ofSource source = .ok ⟨p, []⟩ ∧
      (Moment.ofProgram depth s.scope p s.store).Overflows := by
  unfold run
  split
  case h_1 e he => simp [he]
  case h_2 p hp =>
    simp only [hp, ← Program.settle_eq_none_iff]
    cases hsettle : (p.eval depth s.scope s.store).settle <;> simp [hsettle]
  case h_3 p errors hne hp =>
    have herrors : errors ≠ [] := fun h => hne (by rw [h])
    simp [hp, herrors]

end MonkeyLang
