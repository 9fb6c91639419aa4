import MonkeyLang.Proofs.Evaluation.Frame
import Mathlib.Data.List.Forall2
import Mathlib.Order.Basic

/-!
# Evaluation in stores that are alike

* `Pairing`        which scope of one store stands for which scope of another, one to one;
* `Value.Alike`    values that differ only in the numbers of scopes and the stamps of functions;
* `Store.Alike`    paired scopes bind the same names to values that are alike, and the scopes
                   around them are paired;
* `Outcome.Alike`  outcomes that are alike after a larger pairing: both evaluations may have made
                   scopes.

`Expr.eval_alike` takes this through all evaluation: in paired scopes of stores that are alike, a
tree evaluates alike, as long as calls do; and they do (`Closure.call_alike`).
-/

set_option linter.unusedSectionVars false

namespace MonkeyLang

/-! ## the scope around a scope -/

namespace Store

/-- the scope in which the search for a name goes on; a scope is always made later than its outer
scope -/
def around? (s : Store) (scope : ScopeId) : Option ScopeId := (s.outer? scope).filter (· < scope)

theorem get?_eq (s : Store) (scope : ScopeId) (x : String) :
    s.get? scope x = (s.bound? scope x).or ((s.around? scope).bind fun o => s.get? o x) := by
  rw [get?, around?, outer?, bound?]
  cases s.scopes[scope]? with
  | none => rfl
  | some sc =>
    obtain ⟨bindings, outer⟩ := sc
    simp only [Option.bind_eq_bind, Option.bind_some, Scope.get?]
    cases bindings.lookup x with
    | some v => rfl
    | none =>
      cases outer with
      | none => rfl
      | some o => by_cases hlt : o < scope <;> simp [Option.filter, hlt]

theorem lt_of_around? {s : Store} {scope o : ScopeId} (h : s.around? scope = some o) :
    o < scope := by
  have hlt := (Option.filter_eq_some_iff.mp h).2
  exact of_decide_eq_true hlt

theorem outer?_congr {s t : Store} {scope : ScopeId} (h : t.scopes[scope]? = s.scopes[scope]?) :
    t.outer? scope = s.outer? scope := by
  rw [outer?, outer?, h]

theorem outer?_set (s : Store) (k : ScopeId) (x : String) (v : Value) (i : ScopeId) :
    (s.set k x v).outer? i = s.outer? i := by
  by_cases hi : i = k
  · subst hi
    rw [outer?, outer?, scopes_set_self]
    cases s.scopes[i]? <;> rfl
  · exact outer?_congr (scopes_set_of_ne s hi x v)

theorem outer?_newScope_self (s : Store) (outer : Option ScopeId) :
    (s.newScope outer).2.outer? s.scopes.size = outer := by
  show ((s.scopes.push ⟨[], outer⟩)[s.scopes.size]?).bind Scope.outer = outer
  rw [Array.getElem?_push_size]
  rfl

theorem around?_congr {s t : Store} {scope : ScopeId}
    (h : t.scopes[scope]? = s.scopes[scope]?) : t.around? scope = s.around? scope := by
  rw [around?, around?, outer?_congr h]

theorem around?_set (s : Store) (k : ScopeId) (x : String) (v : Value) (i : ScopeId) :
    (s.set k x v).around? i = s.around? i := by
  rw [around?, around?, outer?_set]

theorem around?_setAll (s : Store) (k : ScopeId) (bs : List (String × Value)) (i : ScopeId) :
    (s.setAll k bs).around? i = s.around? i := by
  induction bs generalizing s with
  | nil => rfl
  | cons b bs ih =>
    show ((s.set k b.1 b.2).setAll k bs).around? i = _
    rw [ih, around?_set]

theorem around?_newScope_of_lt {s : Store} {i : ScopeId} (h : i < s.scopes.size)
    (outer : Option ScopeId) : (s.newScope outer).2.around? i = s.around? i :=
  around?_congr (scopes_newScope_of_lt h outer)

theorem around?_newScope_self {s : Store} {outer : Option ScopeId}
    (h : ∀ o ∈ outer, o < s.scopes.size) :
    (s.newScope outer).2.around? s.scopes.size = outer := by
  rw [around?, outer?_newScope_self]
  cases outer with
  | none => rfl
  | some o => exact Option.filter_eq_some_iff.mpr ⟨rfl, decide_eq_true (h o rfl)⟩

/-- a look-up sees only scopes made before the one in which it starts -/
theorem Unchanged.get? {s t : Store} (h : s.Unchanged t) {k : ScopeId} (hk : k < s.scopes.size)
    (x : String) : t.get? k x = s.get? k x := by
  induction k using Nat.strongRecOn with
  | ind k ih =>
    have ha := Array.getElem?_eq_getElem hk
    have hscope : t.scopes[k]? = s.scopes[k]? := (h k _ ha).trans ha.symm
    rw [get?_eq, get?_eq s, around?_congr hscope, bound?, bound?, hscope]
    congr 1
    refine Option.bind_congr fun o ho => ?_
    have hlt := lt_of_around? ho
    exact ih o hlt (Nat.lt_trans hlt hk)

end Store

theorem Closure.around?_entry_self (f : Closure) (args : List Value) {s : Store}
    (hf : f.scope < s.scopes.size) :
    (f.entry args s).around? s.scopes.size = some f.scope := by
  rw [Closure.entry, Store.around?_setAll]
  exact Store.around?_newScope_self (by simpa using hf)

theorem Closure.around?_entry_of_lt (f : Closure) (args : List Value) {s : Store} {i : ScopeId}
    (hi : i < s.scopes.size) : (f.entry args s).around? i = s.around? i := by
  have ha := Array.getElem?_eq_getElem hi
  exact Store.around?_congr ((f.unchanged_entry args s i _ ha).trans ha.symm)

/-- what is no parameter is looked up where the function was made -/
theorem Closure.get?_entry_self (f : Closure) (args : List Value) {s : Store}
    (hf : f.scope < s.scopes.size) {x : String}
    (hx : (f.params.zip args).reverse.lookup x = none) :
    (f.entry args s).get? s.scopes.size x = s.get? f.scope x := by
  rw [Store.get?_eq, bound?_entry_self, hx, around?_entry_self f args hf, Option.none_or,
    Option.bind_some, (f.unchanged_entry args s).get? hf]

/-! ## pairings -/

structure Pairing where
  pairs : ScopeId → ScopeId → Prop
  right_unique : ∀ {i j k}, pairs i j → pairs i k → j = k
  left_unique : ∀ {i j k}, pairs i k → pairs j k → i = j

namespace Pairing

instance : Preorder Pairing where
  le P Q := ∀ i j, P.pairs i j → Q.pairs i j
  le_refl _ _ _ h := h
  le_trans _ _ _ hPQ hQR i j h := hQR i j (hPQ i j h)

/-- pairs two scopes that have not been paired -/
def insert (P : Pairing) (i j : ScopeId) (hi : ∀ k, ¬ P.pairs i k) (hj : ∀ k, ¬ P.pairs k j) :
    Pairing where
  pairs a b := P.pairs a b ∨ a = i ∧ b = j
  right_unique := by
    rintro a b c (hb | ⟨rfl, rfl⟩) (hc | ⟨ha, rfl⟩)
    · exact P.right_unique hb hc
    · exact absurd (ha ▸ hb) (hi b)
    · exact absurd hc (hi c)
    · rfl
  left_unique := by
    rintro a b c (ha | ⟨rfl, rfl⟩) (hb | ⟨rfl, hc⟩)
    · exact P.left_unique ha hb
    · exact absurd (hc ▸ ha) (hj a)
    · exact absurd hb (hj b)
    · rfl

end Pairing

/-! ## values that are alike -/

theorem rel_or {α β : Type} {R : α → β → Prop} {a c : Option α} {b d : Option β}
    (hab : Option.Rel R a b) (hcd : Option.Rel R c d) : Option.Rel R (a.or c) (b.or d) := by
  cases hab with
  | some h => exact .some h
  | none => exact hcd

theorem rel_mono {α β : Type} {R S : α → β → Prop} {a : Option α} {b : Option β}
    (hab : Option.Rel R a b) (hRS : ∀ a b, R a b → S a b) : Option.Rel S a b := by
  cases hab with
  | some h => exact .some (hRS _ _ h)
  | none => exact .none

inductive Value.Alike (R : ScopeId → ScopeId → Prop) : Value → Value → Prop
  | int (n : Integer) : Alike R (.int n) (.int n)
  | bool (b : Bool) : Alike R (.bool b) (.bool b)
  | null : Alike R .null .null
  | returning {v w : Value} (h : Alike R v w) : Alike R (.returning v) (.returning w)
  | error (e : RuntimeError) : Alike R (.error e) (.error e)
  | func {f g : Closure} (params : g.params = f.params) (body : g.body = f.body)
    (scope : R f.scope g.scope) : Alike R (.func f) (.func g)

namespace Value
variable {R S : ScopeId → ScopeId → Prop} {v w l l' r r' : Value}

theorem Alike.mono (h : v.Alike R w) (hRS : ∀ i j, R i j → S i j) : v.Alike S w := by
  induction h with
  | int n => exact .int n
  | bool b => exact .bool b
  | null => exact .null
  | returning _ ih => exact .returning ih
  | error e => exact .error e
  | func params body scope => exact .func params body (hRS _ _ scope)

theorem Plain.alike (h : v.Plain) : v.Alike R v := by
  cases v with
  | int n => exact .int n
  | bool b => exact .bool b
  | null => exact h.elim
  | returning w => exact h.elim
  | error e => exact h.elim
  | func f => exact h.elim

theorem Alike.type_eq (h : v.Alike R w) : w.type = v.type := by cases h <;> rfl

theorem Alike.truthy_eq (h : v.Alike R w) : w.truthy = v.truthy := by cases h <;> rfl

theorem Alike.unwrap (h : v.Alike R w) : v.unwrap.Alike R w.unwrap := by
  cases h with
  | int n => exact .int n
  | bool b => exact .bool b
  | null => exact .null
  | returning h => exact h
  | error e => exact .error e
  | func params body scope => exact .func params body scope

theorem Alike.unary_eq (h : v.Alike R w) (op : UnaryOp) : w.unary op = v.unary op := by
  cases op with
  | not => rw [unary, unary, h.truthy_eq]
  | neg => cases h <;> rfl

theorem Alike.eq_of_plain (h : v.Alike R w) (hv : v.Plain) : w = v := by
  cases h with
  | int n => rfl
  | bool b => rfl
  | null => rfl
  | returning h => exact hv.elim
  | error e => rfl
  | func params body scope => exact hv.elim

theorem Alike.plain_iff (h : v.Alike R w) : w.Plain ↔ v.Plain := by cases h <;> exact Iff.rfl

theorem binary_of_not_plain (h : ¬ (l.Plain ∧ r.Plain)) (op : BinaryOp) :
    l.binary op r = .error (noMeaning l op r) := by
  unfold binary
  split
  · exact absurd ⟨trivial, trivial⟩ h
  · exact absurd ⟨trivial, trivial⟩ h
  · exact absurd ⟨trivial, trivial⟩ h
  · rfl

theorem Alike.binary_eq (hl : l.Alike R l') (op : BinaryOp) (hr : r.Alike R r') :
    l'.binary op r' = l.binary op r := by
  by_cases h : l.Plain ∧ r.Plain
  · rw [hl.eq_of_plain h.1, hr.eq_of_plain h.2]
  · have h' : ¬ (l'.Plain ∧ r'.Plain) := by rwa [hl.plain_iff, hr.plain_iff]
    rw [binary_of_not_plain h, binary_of_not_plain h', noMeaning, noMeaning, hl.type_eq, hr.type_eq]

end Value

/-! ## stores that are alike -/

structure Store.Alike (P : Pairing) (s t : Store) : Prop where
  lt : ∀ i j, P.pairs i j → i < s.scopes.size ∧ j < t.scopes.size
  bound : ∀ i j, P.pairs i j → ∀ x, Option.Rel (Value.Alike P.pairs) (s.bound? i x) (t.bound? j x)
  around : ∀ i j, P.pairs i j → Option.Rel P.pairs (s.around? i) (t.around? j)

namespace Store
variable {P Q : Pairing} {s t : Store} {i j : ScopeId}

theorem Alike.get? (h : s.Alike P t) (hij : P.pairs i j) (x : String) :
    Option.Rel (Value.Alike P.pairs) (s.get? i x) (t.get? j x) := by
  induction i using Nat.strongRecOn generalizing j with
  | ind i ih =>
    rw [get?_eq s, get?_eq t]
    refine rel_or (h.bound i j hij x) ?_
    have hlt : ∀ o, s.around? i = some o → o < i := fun o => lt_of_around?
    have ho := h.around i j hij
    generalize s.around? i = o, t.around? j = o' at hlt ho
    cases ho with
    | some hoo' => exact ih _ (hlt _ rfl) hoo'
    | none => exact .none

theorem Alike.newClosure (h : s.Alike P t) (params : List String) (body : Block) (i j : ScopeId) :
    (s.newClosure params body i).2.Alike P (t.newClosure params body j).2 :=
  ⟨h.lt, h.bound, h.around⟩

theorem Alike.set (h : s.Alike P t) (hij : P.pairs i j) (x : String) {v w : Value}
    (hvw : v.Alike P.pairs w) : (s.set i x v).Alike P (t.set j x w) where
  lt a b hab := by
    rw [size_set, size_set]
    exact h.lt a b hab
  around a b hab := by
    rw [around?_set, around?_set]
    exact h.around a b hab
  bound a b hab y := by
    by_cases ha : a = i ∧ y = x
    · obtain ⟨rfl, rfl⟩ := ha
      have hb : b = j := P.right_unique hab hij
      subst hb
      obtain ⟨hs, ht⟩ := h.lt a b hab
      rw [bound?_set_self hs, bound?_set_self ht]
      exact .some hvw
    · have hs : a ≠ i ∨ y ≠ x := by tauto
      have ht : b ≠ j ∨ y ≠ x := hs.imp_left fun hne hb => hne (P.left_unique (hb ▸ hab) hij)
      rw [bound?_set_of_ne s v hs, bound?_set_of_ne t w ht]
      exact h.bound a b hab y

end Store

/-! ## the start of a call -/

theorem lookup_zip_alike {R : ScopeId → ScopeId → Prop} (params : List String) {vs ws : List Value}
    (h : List.Forall₂ (Value.Alike R) vs ws) (x : String) :
    Option.Rel (Value.Alike R) ((params.zip vs).reverse.lookup x)
      ((params.zip ws).reverse.lookup x) := by
  induction params generalizing vs ws with
  | nil => exact .none
  | cons p params ih =>
    cases h with
    | nil => exact .none
    | @cons v w vs ws hvw h =>
      rw [List.zip_cons_cons, List.zip_cons_cons, List.reverse_cons, List.reverse_cons,
        List.lookup_append, List.lookup_append]
      refine rel_or (ih h) ?_
      rw [List.lookup_cons, List.lookup_cons]
      cases x == p with
      | true => exact .some hvw
      | false => exact .none

/-- the scopes that are made for the arguments are paired -/
def Pairing.enter {P : Pairing} {s t : Store} (h : s.Alike P t) : Pairing :=
  P.insert s.scopes.size t.scopes.size (fun k hk => Nat.lt_irrefl _ (h.lt _ k hk).1)
    fun k hk => Nat.lt_irrefl _ (h.lt k _ hk).2

theorem Pairing.le_enter {P : Pairing} {s t : Store} (h : s.Alike P t) : P ≤ Pairing.enter h :=
  fun _ _ hij => .inl hij

theorem Store.Alike.entry {P : Pairing} {s t : Store} (h : s.Alike P t) {f g : Closure}
    (hparams : g.params = f.params) (hscope : P.pairs f.scope g.scope) {vs ws : List Value}
    (hvs : List.Forall₂ (Value.Alike P.pairs) vs ws) :
    (f.entry vs s).Alike (Pairing.enter h) (g.entry ws t) where
  lt i j hij := by
    rw [Closure.size_entry, Closure.size_entry]
    obtain hij | ⟨rfl, rfl⟩ := hij
    · exact (h.lt i j hij).imp Nat.lt_succ_of_lt Nat.lt_succ_of_lt
    · exact ⟨Nat.lt_succ_self _, Nat.lt_succ_self _⟩
  bound i j hij x := by
    have hmono : ∀ v w : Value, v.Alike P.pairs w → v.Alike (Pairing.enter h).pairs w :=
      fun v w hvw => hvw.mono (Pairing.le_enter h)
    obtain hij | ⟨rfl, rfl⟩ := hij
    · obtain ⟨hi, hj⟩ := h.lt i j hij
      rw [Closure.bound?_entry_of_ne f vs (Nat.ne_of_lt hi),
        Closure.bound?_entry_of_ne g ws (Nat.ne_of_lt hj)]
      exact rel_mono (h.bound i j hij x) hmono
    · rw [Closure.bound?_entry_self, Closure.bound?_entry_self, hparams]
      exact rel_mono (lookup_zip_alike f.params hvs x) hmono
  around i j hij := by
    obtain hij | ⟨rfl, rfl⟩ := hij
    · obtain ⟨hi, hj⟩ := h.lt i j hij
      rw [Closure.around?_entry_of_lt f vs hi, Closure.around?_entry_of_lt g ws hj]
      exact rel_mono (h.around i j hij) (Pairing.le_enter h)
    · obtain ⟨hf, hg⟩ := h.lt f.scope g.scope hscope
      rw [Closure.around?_entry_self f vs hf, Closure.around?_entry_self g ws hg]
      exact .some (.inl hscope)

/-! ## outcomes that are alike -/

inductive Outcome.Alike {α : Type} (P : Pairing) (post : Pairing → α → α → Prop) :
    Outcome α → Outcome α → Prop
  | ok {Q : Pairing} {a b : α} {s t : Store} (hPQ : P ≤ Q) (hst : s.Alike Q t) (hab : post Q a b) :
    Alike P post (.ok a s) (.ok b t)
  | error {Q : Pairing} {s t : Store} (e : RuntimeError) (hPQ : P ≤ Q) (hst : s.Alike Q t) :
    Alike P post (.error e s) (.error e t)
  | tooDeep : Alike P post .tooDeep .tooDeep

section
variable {α β : Type} {P Q : Pairing} {post : Pairing → α → α → Prop}
  {post' : Pairing → β → β → Prop} {s t : Store}

theorem Outcome.Alike.of_le {o o' : Outcome α} (h : o.Alike Q post o') (hPQ : P ≤ Q) :
    o.Alike P post o' := by
  cases h with
  | ok hQR hst hab => exact .ok (hPQ.trans hQR) hst hab
  | error e hQR hst => exact .error e (hPQ.trans hQR) hst
  | tooDeep => exact .tooDeep

theorem Evaluation.alike_bind {x y : Evaluation α} {f g : α → Evaluation β}
    (h : (x s).Alike P post (y t))
    (hfg : ∀ Q a b s' t', P ≤ Q → s'.Alike Q t' → post Q a b →
      (f a s').Alike Q post' (g b t')) :
    ((x >>= f) s).Alike P post' ((y >>= g) t) := by
  generalize hx : x s = o, hy : y t = o' at h
  cases h with
  | ok hPQ hst hab =>
    rw [bind_of_ok f hx, bind_of_ok g hy]
    exact (hfg _ _ _ _ _ hPQ hst hab).of_le hPQ
  | error e hPQ hst =>
    rw [bind_of_error f hx, bind_of_error g hy]
    exact .error e hPQ hst
  | tooDeep =>
    rw [bind_of_tooDeep f hx, bind_of_tooDeep g hy]
    exact .tooDeep

end

theorem Evaluation.alike_ofExcept {P : Pairing} {s t : Store} (hst : s.Alike P t)
    {x : Except RuntimeError Value} (hx : ∀ v, x = .ok v → v.Plain) :
    (ofExcept x s).Alike P (fun Q => Value.Alike Q.pairs) (ofExcept x t) := by
  cases x with
  | ok v => exact .ok le_rfl hst (hx v rfl).alike
  | error e => exact .error e le_rfl hst

theorem Evaluation.alike_branch {P : Pairing} {x y : Evaluation (Option Value)} {s t : Store}
    (h : (x s).Alike P (fun Q => Option.Rel (Value.Alike Q.pairs)) (y t)) :
    ((do let r ← x; return r.getD .null : Evaluation Value) s).Alike P
      (fun Q => Value.Alike Q.pairs)
      ((do let r ← y; return r.getD .null : Evaluation Value) t) := by
  refine alike_bind h fun Q r r' s' t' hPQ hst hr => .ok le_rfl hst ?_
  cases hr with
  | some hvw => exact hvw
  | none => exact .null

/-! ## evaluation -/

section
variable {call : Closure → List Value → Evaluation Value}
  (hcall : ∀ {P : Pairing} {f g : Closure} {vs ws : List Value} {s t : Store},
    (Value.func f).Alike P.pairs (.func g) → List.Forall₂ (Value.Alike P.pairs) vs ws →
    s.Alike P t → (call f vs s).Alike P (fun Q => Value.Alike Q.pairs) (call g ws t))
include hcall

open Evaluation

mutual

theorem Expr.eval_alike : ∀ (e : Expr) {P : Pairing} {i j : ScopeId} {s t : Store},
    P.pairs i j → s.Alike P t →
    (e.eval call i s).Alike P (fun Q => Value.Alike Q.pairs) (e.eval call j t)
  | .name x, P, i, j, s, t, hij, hst => by
    have hx := hst.get? hij x
    show (Evaluation.get i x s).Alike P _ (Evaluation.get j x t)
    unfold Evaluation.get
    generalize s.get? i x = r, t.get? j x = r' at hx
    cases hx with
    | some hvw => exact .ok le_rfl hst hvw
    | none => exact .error _ le_rfl hst
  | .int n, P, i, j, s, t, _, hst => .ok le_rfl hst (.int n)
  | .bool b, P, i, j, s, t, _, hst => .ok le_rfl hst (.bool b)
  | .unary op e, P, i, j, s, t, hij, hst => by
    refine alike_bind (Expr.eval_alike e hij hst) fun Q v w s' t' _ hst' hvw => ?_
    rw [hvw.unary_eq op]
    exact alike_ofExcept hst' fun _ h => Value.plain_of_unary h
  | .binary l op r, P, i, j, s, t, hij, hst => by
    refine alike_bind (Expr.eval_alike l hij hst) fun Q v v' s' t' hPQ hst' hv => ?_
    refine alike_bind (Expr.eval_alike r (hPQ i j hij) hst') fun R w w' s'' t'' hQR hst'' hw => ?_
    rw [(hv.mono hQR).binary_eq op hw]
    exact alike_ofExcept hst'' fun _ h => Value.plain_of_binary h
  | .cond test body none, P, i, j, s, t, hij, hst => by
    refine alike_bind (Expr.eval_alike test hij hst) fun Q v w s' t' hPQ hst' hvw => ?_
    rw [hvw.truthy_eq]
    cases v.truthy with
    | true => exact alike_branch (Block.eval_alike body .none (hPQ i j hij) hst')
    | false => exact .ok le_rfl hst' .null
  | .cond test body (some other), P, i, j, s, t, hij, hst => by
    refine alike_bind (Expr.eval_alike test hij hst) fun Q v w s' t' hPQ hst' hvw => ?_
    rw [hvw.truthy_eq]
    cases v.truthy with
    | true => exact alike_branch (Block.eval_alike body .none (hPQ i j hij) hst')
    | false => exact alike_branch (Block.eval_alike other .none (hPQ i j hij) hst')
  | .func params body, P, i, j, s, t, hij, hst =>
    .ok le_rfl (hst.newClosure params body i j) (.func rfl rfl hij)
  | .call callee args, P, i, j, s, t, hij, hst => by
    refine alike_bind (Expr.eval_alike callee hij hst) fun Q f g s' t' hPQ hst' hfg => ?_
    refine alike_bind (Expr.evalAll_alike args (hPQ i j hij) hst')
      fun R vs ws s'' t'' hQR hst'' hvs => ?_
    cases hfg.mono hQR with
    | func params body scope => exact hcall (.func params body scope) hvs hst''
    | int n => exact .error _ le_rfl hst''
    | bool b => exact .error _ le_rfl hst''
    | null => exact .error _ le_rfl hst''
    | returning h => exact .error _ le_rfl hst''
    | error e => exact .error _ le_rfl hst''

theorem Expr.evalAll_alike : ∀ (es : List Expr) {P : Pairing} {i j : ScopeId} {s t : Store},
    P.pairs i j → s.Alike P t →
    (Expr.evalAll call i es s).Alike P (fun Q => List.Forall₂ (Value.Alike Q.pairs))
      (Expr.evalAll call j es t)
  | [], P, i, j, s, t, _, hst => .ok le_rfl hst .nil
  | e :: es, P, i, j, s, t, hij, hst => by
    refine alike_bind (Expr.eval_alike e hij hst) fun Q v w s' t' hPQ hst' hvw => ?_
    refine alike_bind (Expr.evalAll_alike es (hPQ i j hij) hst')
      fun R vs ws s'' t'' hQR hst'' hvs => ?_
    exact .ok le_rfl hst'' (.cons (hvw.mono hQR) hvs)

theorem Stmt.eval_alike : ∀ (st : Stmt) {P : Pairing} {i j : ScopeId} {s t : Store},
    P.pairs i j → s.Alike P t →
    (st.eval call i s).Alike P (fun Q => Option.Rel (Value.Alike Q.pairs)) (st.eval call j t)
  | .bind x e, P, i, j, s, t, hij, hst => by
    refine alike_bind (Expr.eval_alike e hij hst) fun Q v w s' t' hPQ hst' hvw => ?_
    exact .ok le_rfl (hst'.set (hPQ i j hij) x hvw) .none
  | .ret e, P, i, j, s, t, hij, hst => by
    refine alike_bind (Expr.eval_alike e hij hst) fun Q v w s' t' hPQ hst' hvw => ?_
    exact .ok le_rfl hst' (.some (.returning hvw))
  | .expr e, P, i, j, s, t, hij, hst => by
    refine alike_bind (Expr.eval_alike e hij hst) fun Q v w s' t' hPQ hst' hvw => ?_
    exact .ok le_rfl hst' (.some hvw)

theorem Block.eval_alike : ∀ (ss : List Stmt) {P : Pairing} {i j : ScopeId} {s t : Store}
    {last last' : Option Value}, Option.Rel (Value.Alike P.pairs) last last' →
    P.pairs i j → s.Alike P t →
    (Block.eval call i last ss s).Alike P (fun Q => Option.Rel (Value.Alike Q.pairs))
      (Block.eval call j last' ss t)
  | [], P, i, j, s, t, last, last', hlast, _, hst => .ok le_rfl hst hlast
  | st :: ss, P, i, j, s, t, last, last', _, hij, hst => by
    refine alike_bind (Stmt.eval_alike st hij hst) fun Q r r' s' t' hPQ hst' hr => ?_
    have hrest := Block.eval_alike ss hr (hPQ i j hij) hst'
    cases hr with
    | none => exact hrest
    | some hvw =>
      cases hvw with
      | returning h => exact .ok le_rfl hst' (.some (.returning h))
      | int n => exact hrest
      | bool b => exact hrest
      | null => exact hrest
      | error e => exact hrest
      | func params body scope => exact hrest

end

end

/-- one depth after the other: the bodies run in scopes that have just been paired -/
theorem Closure.call_alike (d : Nat) : ∀ {P : Pairing} {f g : Closure} {vs ws : List Value}
    {s t : Store}, (Value.func f).Alike P.pairs (.func g) →
    List.Forall₂ (Value.Alike P.pairs) vs ws → s.Alike P t →
    (f.call d vs s).Alike P (fun Q => Value.Alike Q.pairs) (g.call d ws t) := by
  induction d with
  | zero => exact fun _ _ _ => .tooDeep
  | succ d ih =>
    intro P f g vs ws s t hfg hvs hst
    cases hfg with
    | func params body scope =>
      by_cases hf : f.params.length = vs.length
      · have hg : g.params.length = ws.length := by rw [params, hf, hvs.length_eq]
        rw [Closure.call_of_length hf, Closure.call_of_length hg, body]
        have hnew : (Pairing.enter hst).pairs s.scopes.size t.scopes.size := .inr ⟨rfl, rfl⟩
        have hbody := Block.eval_alike ih f.body .none hnew (hst.entry params scope hvs)
        refine Evaluation.alike_bind (hbody.of_le (Pairing.le_enter hst))
          fun Q r r' s' t' _ hst' hr => .ok le_rfl hst' ?_
        cases hr with
        | some hvw => exact hvw.unwrap
        | none => exact .null
      · have hg : g.params.length ≠ ws.length := by rwa [params, ← hvs.length_eq]
        rw [Closure.call_of_length_ne hf, Closure.call_of_length_ne hg, params, hvs.length_eq]
        exact .error _ le_rfl hst

end MonkeyLang
