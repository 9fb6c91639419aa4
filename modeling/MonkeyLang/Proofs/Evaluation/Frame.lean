import MonkeyLang.Proofs.Evaluation.Outcome
import Mathlib.Data.List.Basic

/-!
# Evaluation writes to the innermost scope only

* `Evaluation.Keeps R`   the store before and the store after are related by `R`, however the
                 evaluation ends;
* `Allows R`     `R` allows what an evaluation does to the store by itself: nothing, a new
                 function, a binding of one of the names `xs` in the scope of the evaluation;
* `Expr.lets`    the names that a tree binds by `let`, functions left out: their bodies run in
                 scopes of their own;
* `Store.All`    all bound values have a property, which new bindings and calls do not change.

`Expr.eval_keeps` takes any such `R` from the single steps to the whole evaluation, as long as
calls keep it.  With `Store.Frame` for `R` this gives `Node.eval_keeps_frame`: the scope of the
evaluation changes at the names of the `let`s only, and no other scope changes.
-/

set_option linter.unusedSectionVars false

namespace MonkeyLang

/-! ## bindings of one scope -/

namespace Scope

/-- `b` has come out of `a` by binding some of the names `xs` -/
structure Rebinds (xs : List String) (a b : Scope) : Prop where
  outer : b.outer = a.outer
  other : ∀ x, x ∉ xs → b.get? x = a.get? x
  bound : ∀ x, (a.get? x).isSome → (b.get? x).isSome

theorem Rebinds.refl (xs : List String) (a : Scope) : a.Rebinds xs a :=
  ⟨rfl, fun _ _ => rfl, fun _ h => h⟩

theorem Rebinds.trans {xs : List String} {a b c : Scope} (h : a.Rebinds xs b)
    (k : b.Rebinds xs c) : a.Rebinds xs c where
  outer := k.outer.trans h.outer
  other x hx := (k.other x hx).trans (h.other x hx)
  bound x hx := k.bound x (h.bound x hx)

theorem Rebinds.set {xs : List String} {x : String} (hx : x ∈ xs) (a : Scope) (v : Value) :
    a.Rebinds xs (a.set x v) where
  outer := outer_set a x v
  other y hy := get?_set_of_ne a (fun e => hy (by rwa [e])) v
  bound y hy := by
    by_cases e : y = x
    · rw [e, get?_set_self]
      rfl
    · rwa [get?_set_of_ne a e]

end Scope

/-! ## scopes of a store -/

namespace Store

/-- what a scope binds a name to, the scopes around it left aside -/
def bound? (s : Store) (scope : ScopeId) (x : String) : Option Value := do
  (← s.scopes[scope]?).get? x

theorem scopes_set_self (s : Store) (scope : ScopeId) (x : String) (v : Value) :
    (s.set scope x v).scopes[scope]? = s.scopes[scope]?.map fun sc => sc.set x v := by
  show (s.scopes.modify scope _)[scope]? = _
  rw [Array.getElem?_modify, if_pos rfl]

theorem scopes_set_of_ne (s : Store) {scope i : ScopeId} (h : i ≠ scope) (x : String) (v : Value) :
    (s.set scope x v).scopes[i]? = s.scopes[i]? := by
  show (s.scopes.modify scope _)[i]? = _
  rw [Array.getElem?_modify, if_neg (Ne.symm h)]

theorem bound?_eq_none {s : Store} {scope : ScopeId} (h : s.scopes.size ≤ scope) (x : String) :
    s.bound? scope x = none := by
  simp only [bound?, Array.getElem?_eq_none h]
  rfl

theorem bound?_set_self {s : Store} {scope : ScopeId} (h : scope < s.scopes.size) (x : String)
    (v : Value) : (s.set scope x v).bound? scope x = some v := by
  simp only [bound?, scopes_set_self, Array.getElem?_eq_getElem h]
  exact Scope.get?_set_self _ x v

theorem bound?_set_of_ne (s : Store) {scope i : ScopeId} {x y : String} (v : Value)
    (h : i ≠ scope ∨ y ≠ x) : (s.set scope x v).bound? i y = s.bound? i y := by
  by_cases hi : i = scope
  · subst hi
    have hy : y ≠ x := h.resolve_left fun hne => hne rfl
    simp only [bound?, scopes_set_self]
    cases s.scopes[i]? with
    | none => rfl
    | some sc => exact Scope.get?_set_of_ne sc hy v
  · simp only [bound?, scopes_set_of_ne s hi]

theorem scopes_setAll_of_ne (s : Store) {scope i : ScopeId} (h : i ≠ scope)
    (bs : List (String × Value)) : (s.setAll scope bs).scopes[i]? = s.scopes[i]? := by
  induction bs generalizing s with
  | nil => rfl
  | cons b bs ih =>
    show ((s.set scope b.1 b.2).setAll scope bs).scopes[i]? = _
    rw [ih, scopes_set_of_ne s h]

theorem size_setAll (s : Store) (scope : ScopeId) (bs : List (String × Value)) :
    (s.setAll scope bs).scopes.size = s.scopes.size := by
  induction bs generalizing s with
  | nil => rfl
  | cons b bs ih =>
    show ((s.set scope b.1 b.2).setAll scope bs).scopes.size = _
    rw [ih, size_set]

/-- of a name that comes twice the last value stays -/
theorem bound?_setAll_self {s : Store} {scope : ScopeId} (h : scope < s.scopes.size)
    (bs : List (String × Value)) (x : String) :
    (s.setAll scope bs).bound? scope x = (bs.reverse.lookup x).or (s.bound? scope x) := by
  induction bs generalizing s with
  | nil => rfl
  | cons b bs ih =>
    obtain ⟨y, v⟩ := b
    show ((s.set scope y v).setAll scope bs).bound? scope x = _
    rw [ih (by rwa [size_set]), List.reverse_cons, List.lookup_append, Option.or_assoc]
    congr 1
    by_cases e : x = y
    · rw [e, bound?_set_self h]
      simp
    · rw [bound?_set_of_ne s v (.inr e), List.lookup_cons, beq_false_of_ne e]
      rfl

theorem bound?_setAll_of_ne (s : Store) {scope i : ScopeId} (h : i ≠ scope)
    (bs : List (String × Value)) (x : String) :
    (s.setAll scope bs).bound? i x = s.bound? i x := by
  simp only [bound?, scopes_setAll_of_ne s h]

theorem scopes_newScope_of_lt {s : Store} {i : ScopeId} (h : i < s.scopes.size)
    (outer : Option ScopeId) : (s.newScope outer).2.scopes[i]? = s.scopes[i]? := by
  show (s.scopes.push _)[i]? = _
  rw [Array.getElem?_push_lt h, Array.getElem?_eq_getElem h]

theorem bound?_newScope (s : Store) (outer : Option ScopeId) (i : ScopeId) (x : String) :
    (s.newScope outer).2.bound? i x = s.bound? i x := by
  by_cases hi : i < s.scopes.size
  · simp only [bound?, scopes_newScope_of_lt hi]
  · rw [bound?_eq_none (Nat.le_of_not_lt hi)]
    by_cases he : i = s.scopes.size
    · subst he
      show (((s.scopes.push ⟨[], outer⟩)[s.scopes.size]?).bind fun sc => sc.get? x) = none
      rw [Array.getElem?_push_size]
      rfl
    · apply bound?_eq_none
      show (s.scopes.push _).size ≤ i
      rw [Array.size_push]
      exact Nat.lt_of_le_of_ne (Nat.le_of_not_lt hi) (Ne.symm he)

/-- every scope of `s` is in `t` as it was -/
def Unchanged (s t : Store) : Prop :=
  ∀ (i : ScopeId) a, s.scopes[i]? = some a → t.scopes[i]? = some a

/-- every scope of `s` is in `t`, changed only if it is `scope`, and only at the names `xs` -/
def Frame (scope : ScopeId) (xs : List String) (s t : Store) : Prop :=
  ∀ (i : ScopeId) a, s.scopes[i]? = some a →
    ∃ b, t.scopes[i]? = some b ∧ (i ≠ scope → b = a) ∧ a.Rebinds xs b

theorem Unchanged.trans {s t u : Store} (h : s.Unchanged t) (k : t.Unchanged u) :
    s.Unchanged u := fun i a ha => k i a (h i a ha)

theorem Unchanged.frame {s t : Store} (h : s.Unchanged t) (scope : ScopeId) (xs : List String) :
    s.Frame scope xs t := fun i a ha => ⟨a, h i a ha, fun _ => rfl, .refl xs a⟩

theorem Frame.trans {scope : ScopeId} {xs : List String} {s t u : Store}
    (h : s.Frame scope xs t) (k : t.Frame scope xs u) : s.Frame scope xs u := by
  intro i a ha
  obtain ⟨b, hb, hba, hab⟩ := h i a ha
  obtain ⟨c, hc, hcb, hbc⟩ := k i b hb
  exact ⟨c, hc, fun hi => (hcb hi).trans (hba hi), hab.trans hbc⟩

theorem Frame.set {scope : ScopeId} {xs : List String} {x : String} (hx : x ∈ xs) (s : Store)
    (v : Value) : s.Frame scope xs (s.set scope x v) := by
  intro i a ha
  by_cases hi : i = scope
  · subst hi
    refine ⟨a.set x v, ?_, fun h => absurd rfl h, .set hx a v⟩
    rw [scopes_set_self, ha]
    rfl
  · exact ⟨a, by rw [scopes_set_of_ne s hi, ha], fun _ => rfl, .refl xs a⟩

theorem Unchanged.size_le {s t : Store} (h : s.Unchanged t) : s.scopes.size ≤ t.scopes.size := by
  by_contra hlt
  have ht := h t.scopes.size _ (Array.getElem?_eq_getElem (Nat.lt_of_not_le hlt))
  rw [Array.getElem?_eq_none (Nat.le_refl _)] at ht
  exact absurd ht (by simp)

/-- a frame around a scope that `s` does not have leaves all of `s` alone -/
theorem Frame.unchanged {scope : ScopeId} {xs : List String} {s t u : Store}
    (h : s.Unchanged t) (k : t.Frame scope xs u) (hs : s.scopes.size ≤ scope) :
    s.Unchanged u := by
  intro i a ha
  obtain ⟨b, hb, hba, -⟩ := k i a (h i a ha)
  have hi : i < s.scopes.size := (Array.getElem?_eq_some_iff.mp ha).1
  rw [hb, hba (Nat.ne_of_lt (Nat.lt_of_lt_of_le hi hs))]

end Store

/-! ## relations that evaluations keep -/

namespace Evaluation

def Keeps {α : Type} (R : Store → Store → Prop) (x : Evaluation α) : Prop :=
  ∀ s t, (x s).store? = some t → R s t

end Evaluation

/-- what an evaluation may do to the store by itself, when it may bind the names `xs` -/
structure Allows (R : Store → Store → Prop) (scope : ScopeId) (xs : List String) : Prop where
  refl : ∀ s, R s s
  trans : ∀ {s t u}, R s t → R t u → R s u
  newClosure : ∀ params body k s, R s (s.newClosure params body k).2
  set : ∀ x ∈ xs, ∀ s v, R s (s.set scope x v)

theorem allows_frame (scope : ScopeId) (xs : List String) :
    Allows (Store.Frame scope xs) scope xs where
  refl _ := Store.Unchanged.frame (fun _ _ h => h) scope xs
  trans := Store.Frame.trans
  newClosure _ _ _ _ := Store.Unchanged.frame (fun _ _ h => h) scope xs
  set _ hx s v := Store.Frame.set hx s v

theorem allows_grows (scope : ScopeId) (xs : List String) :
    Allows (fun s t => s.scopes.size ≤ t.scopes.size) scope xs where
  refl _ := Nat.le_refl _
  trans := Nat.le_trans
  newClosure _ _ _ _ := Nat.le_refl _
  set x _ s v := Nat.le_of_eq (Store.size_set s scope x v).symm

namespace Evaluation

section
variable {α β : Type} {R : Store → Store → Prop} {scope : ScopeId} {xs : List String}
  (hR : Allows R scope xs)
include hR

theorem Keeps.pure (a : α) : (Pure.pure a : Evaluation α).Keeps R := by
  intro s t h
  rw [← Option.some.inj h]
  exact hR.refl s

theorem Keeps.fail (e : RuntimeError) : (fail e : Evaluation α).Keeps R := by
  intro s t h
  rw [← Option.some.inj h]
  exact hR.refl s

theorem Keeps.ofExcept (x : Except RuntimeError α) : (ofExcept x).Keeps R := by
  cases x with
  | ok a => exact Keeps.pure hR a
  | error e => exact Keeps.fail hR e

theorem Keeps.bind {x : Evaluation α} {f : α → Evaluation β} (hx : x.Keeps R)
    (hf : ∀ a, (f a).Keeps R) : (x >>= f).Keeps R := by
  intro s u h
  cases hs : x s with
  | ok a t =>
    rw [bind_of_ok f hs] at h
    exact hR.trans (hx s t (by rw [hs]; rfl)) (hf a t u h)
  | error e t =>
    rw [bind_of_error f hs] at h
    exact hx s u (by rw [hs]; exact h)
  | tooDeep =>
    rw [bind_of_tooDeep f hs] at h
    exact absurd h (by simp [Outcome.store?])

theorem Keeps.get (k : ScopeId) (x : String) : (Evaluation.get k x).Keeps R := by
  intro s t h
  unfold Evaluation.get at h
  split at h
  · rw [← Option.some.inj h]
    exact hR.refl s
  · rw [← Option.some.inj h]
    exact hR.refl s

theorem Keeps.newClosure (params : List String) (body : Block) (k : ScopeId) :
    (update (Store.newClosure params body k)).Keeps R := by
  intro s t h
  rw [← Option.some.inj h]
  exact hR.newClosure params body k s

theorem Keeps.set {x : String} (hx : x ∈ xs) (v : Value) : (Evaluation.set scope x v).Keeps R := by
  intro s t h
  rw [← Option.some.inj h]
  exact hR.set x hx s v

end

end Evaluation

/-! ## the names of the `let`s -/

mutual

def Expr.lets : Expr → List String
  | .name _ => []
  | .int _ => []
  | .bool _ => []
  | .unary _ e => e.lets
  | .binary l _ r => l.lets ++ r.lets
  | .cond test body none => test.lets ++ Block.lets body
  | .cond test body (some other) => test.lets ++ (Block.lets body ++ Block.lets other)
  | .func _ _ => []
  | .call callee args => callee.lets ++ Expr.allLets args

def Expr.allLets : List Expr → List String
  | [] => []
  | e :: es => e.lets ++ Expr.allLets es

def Stmt.lets : Stmt → List String
  | .bind x e => x :: e.lets
  | .ret e => e.lets
  | .expr e => e.lets

def Block.lets : List Stmt → List String
  | [] => []
  | s :: ss => s.lets ++ Block.lets ss

end

def Node.lets : Node → List String
  | program p => Block.lets p
  | block b => Block.lets b
  | stmt s => s.lets
  | expr e => e.lets

/-! ## from steps to evaluations -/

section
variable {R : Store → Store → Prop} {scope : ScopeId} {xs : List String}
  {call : Closure → List Value → Evaluation Value} (hR : Allows R scope xs)
  (hcall : ∀ f vs, (call f vs).Keeps R)
include hR hcall

open Evaluation

mutual

theorem Expr.eval_keeps : ∀ e : Expr, e.lets ⊆ xs → (e.eval call scope).Keeps R
  | .name x, _ => Keeps.get hR scope x
  | .int n, _ => Keeps.pure hR _
  | .bool b, _ => Keeps.pure hR _
  | .unary op e, h => Keeps.bind hR (Expr.eval_keeps e h) fun v => Keeps.ofExcept hR _
  | .binary l op r, h => by
    obtain ⟨hl, hr⟩ := List.append_subset.mp h
    exact Keeps.bind hR (Expr.eval_keeps l hl) fun v =>
      Keeps.bind hR (Expr.eval_keeps r hr) fun w => Keeps.ofExcept hR _
  | .cond test body none, h => by
    obtain ⟨ht, hb⟩ := List.append_subset.mp h
    refine Keeps.bind hR (Expr.eval_keeps test ht) fun t => ?_
    split
    · exact Keeps.bind hR (Block.eval_keeps body none hb) fun r => Keeps.pure hR _
    · exact Keeps.pure hR _
  | .cond test body (some other), h => by
    obtain ⟨ht, hbo⟩ := List.append_subset.mp h
    obtain ⟨hb, ho⟩ := List.append_subset.mp hbo
    refine Keeps.bind hR (Expr.eval_keeps test ht) fun t => ?_
    split
    · exact Keeps.bind hR (Block.eval_keeps body none hb) fun r => Keeps.pure hR _
    · exact Keeps.bind hR (Block.eval_keeps other none ho) fun r => Keeps.pure hR _
  | .func params body, _ =>
    Keeps.bind hR (Keeps.newClosure hR params body scope) fun f => Keeps.pure hR _
  | .call callee args, h => by
    obtain ⟨hc, ha⟩ := List.append_subset.mp h
    refine Keeps.bind hR (Expr.eval_keeps callee hc) fun f =>
      Keeps.bind hR (Expr.evalAll_keeps args ha) fun vs => ?_
    split
    · exact hcall _ vs
    · exact Keeps.fail hR _

theorem Expr.evalAll_keeps :
    ∀ es : List Expr, Expr.allLets es ⊆ xs → (Expr.evalAll call scope es).Keeps R
  | [], _ => Keeps.pure hR _
  | e :: es, h => by
    obtain ⟨he, hes⟩ := List.append_subset.mp h
    exact Keeps.bind hR (Expr.eval_keeps e he) fun v =>
      Keeps.bind hR (Expr.evalAll_keeps es hes) fun vs => Keeps.pure hR _

theorem Stmt.eval_keeps : ∀ st : Stmt, st.lets ⊆ xs → (st.eval call scope).Keeps R
  | .bind x e, h => by
    have hx : x ∈ xs := h (List.mem_cons_self ..)
    have he : e.lets ⊆ xs := fun y hy => h (List.mem_cons_of_mem _ hy)
    exact Keeps.bind hR (Expr.eval_keeps e he) fun v =>
      Keeps.bind hR (Keeps.set hR hx v) fun _ => Keeps.pure hR _
  | .ret e, h => Keeps.bind hR (Expr.eval_keeps e h) fun v => Keeps.pure hR _
  | .expr e, h => Keeps.bind hR (Expr.eval_keeps e h) fun v => Keeps.pure hR _

theorem Block.eval_keeps : ∀ (ss : List Stmt) (last : Option Value), Block.lets ss ⊆ xs →
    (Block.eval call scope last ss).Keeps R
  | [], last, _ => Keeps.pure hR _
  | st :: ss, last, h => by
    obtain ⟨hst, hss⟩ := List.append_subset.mp h
    refine Keeps.bind hR (Stmt.eval_keeps st hst) fun r => ?_
    split
    · exact Keeps.pure hR _
    · exact Block.eval_keeps ss _ hss

end

end

/-! ## the start of a call -/

theorem Closure.unchanged_entry (f : Closure) (args : List Value) (s : Store) :
    s.Unchanged (f.entry args s) := by
  intro i a ha
  have hi : i < s.scopes.size := (Array.getElem?_eq_some_iff.mp ha).1
  unfold entry
  rw [Store.scopes_setAll_of_ne _ (Nat.ne_of_lt hi), Store.scopes_newScope_of_lt hi, ha]

theorem Closure.size_entry (f : Closure) (args : List Value) (s : Store) :
    (f.entry args s).scopes.size = s.scopes.size + 1 := by
  unfold entry
  rw [Store.size_setAll]
  exact Array.size_push _

/-- the new scope binds each parameter to the last argument that stands for it -/
theorem Closure.bound?_entry_self (f : Closure) (args : List Value) (s : Store) (x : String) :
    (f.entry args s).bound? s.scopes.size x = (f.params.zip args).reverse.lookup x := by
  unfold entry
  rw [Store.bound?_setAll_self (by show _ < (s.scopes.push _).size; simp),
    Store.bound?_newScope, Store.bound?_eq_none (Nat.le_refl _), Option.or_none]

theorem Closure.bound?_entry_of_ne (f : Closure) (args : List Value) {s : Store} {i : ScopeId}
    (h : i ≠ s.scopes.size) (x : String) : (f.entry args s).bound? i x = s.bound? i x := by
  unfold entry
  rw [Store.bound?_setAll_of_ne _ h, Store.bound?_newScope]

/-! ## what all bound values have in common -/

namespace Store

/-- every value that some scope binds satisfies `p` -/
def All (p : Value → Prop) (s : Store) : Prop := ∀ k x v, s.bound? k x = some v → p v

section
variable {p : Value → Prop} {s : Store} (h : s.All p)
include h

theorem All.set (k : ScopeId) (x : String) {v : Value} (hv : p v) : (s.set k x v).All p := by
  intro i y w hw
  by_cases e : i = k ∧ y = x
  · obtain ⟨rfl, rfl⟩ := e
    by_cases hi : i < s.scopes.size
    · rw [bound?_set_self hi] at hw
      rwa [← Option.some.inj hw]
    · rw [bound?_eq_none (by rw [size_set]; exact Nat.le_of_not_lt hi)] at hw
      exact absurd hw (by simp)
  · rw [bound?_set_of_ne s v (by tauto)] at hw
    exact h i y w hw

theorem All.entry {f : Closure} {args : List Value}
    (hargs : ∀ x v, (f.params.zip args).reverse.lookup x = some v → p v) :
    (f.entry args s).All p := by
  intro i x v hv
  by_cases hi : i = s.scopes.size
  · subst hi
    rw [Closure.bound?_entry_self] at hv
    exact hargs x v hv
  · rw [Closure.bound?_entry_of_ne f args hi] at hv
    exact h i x v hv

/-- a call binds its arguments only -/
theorem All.entry_of_mem {f : Closure} {args : List Value} (hargs : ∀ v ∈ args, p v) :
    (f.entry args s).All p := by
  refine h.entry fun x v hx => hargs v ?_
  obtain ⟨l, l', hl, -⟩ := List.lookup_eq_some_iff.mp hx
  have hmem : (x, v) ∈ (f.params.zip args).reverse := by simp [hl]
  exact (List.of_mem_zip (List.mem_reverse.mp hmem)).2

theorem All.get? {k : ScopeId} {x : String} {v : Value} (hv : s.get? k x = some v) : p v := by
  induction k using Nat.strongRecOn with
  | ind k ih =>
    rw [Store.get?] at hv
    split at hv
    · simp at hv
    case h_2 sc hsc =>
      split at hv
      case h_1 w hw =>
        rw [← Option.some.inj hv]
        exact h k x w (by simp only [bound?, hsc]; exact hw)
      · simp at hv
      case h_3 outer hx ho =>
        split at hv
        case isTrue hlt => exact ih outer hlt hv
        case isFalse => simp at hv

end

end Store

/-! ## calls leave the scopes before them alone -/

theorem Closure.call_keeps_unchanged (depth : Nat) :
    ∀ (f : Closure) (args : List Value), (f.call depth args).Keeps Store.Unchanged := by
  induction depth with
  | zero =>
    intro f args s t h
    rw [Closure.call_zero] at h
    exact absurd h (by simp [Outcome.store?])
  | succ depth ih =>
    intro f args s t h
    by_cases hlen : f.params.length = args.length
    · rw [Closure.call_of_length hlen] at h
      -- seen from its own scope, the body leaves all scopes alone that were there before it
      have hR := allows_frame s.scopes.size (Block.lets f.body)
      have hcall : ∀ (g : Closure) vs, (g.call depth vs).Keeps
          (Store.Frame s.scopes.size (Block.lets f.body)) :=
        fun g vs u v hv => (ih g vs u v hv).frame _ _
      have hbody := Block.eval_keeps hR hcall f.body none (fun _ hx => hx)
      have hframe := Evaluation.Keeps.bind hR hbody (fun r => Evaluation.Keeps.pure hR _) _ t h
      exact Store.Frame.unchanged (f.unchanged_entry args s) hframe (Nat.le_refl _)
    · rw [Closure.call_of_length_ne hlen] at h
      rw [← Option.some.inj h]
      exact fun _ _ ha => ha

theorem Node.eval_keeps_frame (depth : Nat) (scope : ScopeId) (node : Node) :
    (node.eval depth scope).Keeps (Store.Frame scope node.lets) := by
  have hR := allows_frame scope node.lets
  have hcall : ∀ (f : Closure) vs, (f.call depth vs).Keeps (Store.Frame scope node.lets) :=
    fun f vs s t h => (Closure.call_keeps_unchanged depth f vs s t h).frame _ _
  cases node with
  | program p =>
    exact Evaluation.Keeps.bind hR (Block.eval_keeps hR hcall p none (fun _ hx => hx))
      fun r => Evaluation.Keeps.pure hR _
  | block b => exact Block.eval_keeps hR hcall b none (fun _ hx => hx)
  | stmt st => exact Stmt.eval_keeps hR hcall st (fun _ hx => hx)
  | expr e =>
    exact Evaluation.Keeps.bind hR (Expr.eval_keeps hR hcall e (fun _ hx => hx))
      fun v => Evaluation.Keeps.pure hR _

/-- **Evaluation writes to the innermost scope only.**  Of the scopes that were there before, the
scope of the evaluation alone may change: it keeps its outer scope, all its bindings but those of
the names that the node binds by `let` outside functions, and it loses no name.  A call changes
none of them. -/
theorem Node.eval_writes_innermost {depth : Nat} {scope : ScopeId} {node : Node} {s t : Store}
    (hscope : scope < s.scopes.size) (h : (node.eval depth scope s).store? = some t) :
    (∀ i < s.scopes.size, i ≠ scope → t.scopes[i]? = s.scopes[i]?) ∧
      t.outer? scope = s.outer? scope ∧
      (∀ x, x ∉ node.lets → t.bound? scope x = s.bound? scope x) ∧
      (∀ x, (s.bound? scope x).isSome → (t.bound? scope x).isSome) ∧
      ∀ (f : Closure) (args : List Value) (u : Store), (f.call depth args s).store? = some u →
        ∀ i < s.scopes.size, u.scopes[i]? = s.scopes[i]? := by
  have hframe := Node.eval_keeps_frame depth scope node s t h
  obtain ⟨b, hb, -, hab⟩ := hframe scope _ (Array.getElem?_eq_getElem hscope)
  have hs := Array.getElem?_eq_getElem hscope
  refine ⟨?_, ?_, ?_, ?_, ?_⟩
  · intro i hi hne
    obtain ⟨c, hc, hca, -⟩ := hframe i _ (Array.getElem?_eq_getElem hi)
    rw [hc, hca hne, Array.getElem?_eq_getElem hi]
  · simp only [Store.outer?, hb, hs]
    exact hab.outer
  · intro x hx
    simp only [Store.bound?, hb, hs]
    exact hab.other x hx
  · intro x hx
    simp only [Store.bound?, hb, hs] at hx ⊢
    exact hab.bound x hx
  · intro f args u hu i hi
    rw [Array.getElem?_eq_getElem hi]
    exact Closure.call_keeps_unchanged depth f args s u hu i _ (Array.getElem?_eq_getElem hi)

/-- a parameter and a `let` in a body, both named as something outside, seen from the inner of two
scopes that bind this name too -/
theorem Node.eval_writes_innermost_shadowing :
    let s : Store := ⟨#[⟨[("x", .int 10)], none⟩, ⟨[("x", .int 20)], some 0⟩], 0⟩
    let double : Expr := .func ["x"] [.bind "x" (.binary (.name "x") .mul (.int 2)),
      .expr (.name "x")]
    let node : Node := .program [.bind "y" (.call double [.int 3])]
    1 < s.scopes.size ∧ ∃ t, (node.eval 1 1 s).store? = some t ∧
      t.scopes[0]? = s.scopes[0]? ∧ t.bound? 1 "x" = s.bound? 1 "x" ∧
      t.bound? 1 "y" = some (.int 6) := by
  intro s double node
  have hscope : 1 < s.scopes.size := by decide
  have hy : ((node.eval 1 1 s).store?.bind fun t => t.bound? 1 "y") = some (.int 6) := by
    decide +kernel
  obtain ⟨t, ht, hty⟩ := Option.bind_eq_some_iff.mp hy
  obtain ⟨hothers, -, hown, -⟩ := Node.eval_writes_innermost hscope ht
  exact ⟨hscope, t, ht, hothers 0 (by decide) (by decide), hown "x" (by decide), hty⟩

end MonkeyLang
