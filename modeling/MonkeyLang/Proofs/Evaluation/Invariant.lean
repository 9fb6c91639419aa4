import MonkeyLang.Proofs.Evaluation.Contract

/-!
# Invariants of evaluation

* `Invariant inv P`   `inv` holds of stores and `P` of values in a store, and neither is broken by
                      what an evaluation does by itself: look a name up, bind one, make a function,
                      enter a call, take a mark off or put one on;
* `Invariant.contract`  all values are values with `P` then, those that a task starts with and
                      those that it gives;
* `Program.eval_within`, `Node.eval_within`   what every evaluation keeps;
* `Moment.Reaches.within`   and what holds at each moment of it.
-/

namespace MonkeyLang

section
variable (inv : Store → Prop) (P : Store → Value → Prop)

/-- `inv` and `P` together survive each single step of an evaluation -/
structure Invariant : Prop where
  get? : ∀ {s k x v}, inv s → s.get? k x = some v → P s v
  set : ∀ {s k v} (x : String), inv s → k < s.scopes.size → P s v → inv (s.set k x v)
  newClosure : ∀ {s} (params : List String) (body : Block) (k : ScopeId), inv s →
    inv (s.newClosure params body k).2
  entry : ∀ {s f vs}, inv s → P s (.func f) → (∀ v ∈ vs, P s v) → inv (f.entry vs s)
  plain : ∀ {s v}, v.Plain → P s v
  null : ∀ s, P s .null
  func : ∀ {s} (f : Closure), f.scope < s.scopes.size → P s (.func f)
  returning : ∀ {s v}, P s (.returning v) ↔ P s v
  grows : ∀ {s t v}, s.scopes.size ≤ t.scopes.size → P s v → P t v

end

/-- a property of values that does not depend on the store, and holds of all bound values -/
theorem Invariant.ofValues {p : Value → Prop} (plain : ∀ v, v.Plain → p v) (null : p .null)
    (func : ∀ f, p (.func f)) (returning : ∀ v, p (.returning v) ↔ p v) :
    Invariant (Store.All p) fun _ => p where
  get? h hv := h.get? hv
  set x h _ hv := h.set _ x hv
  newClosure _ _ _ h := h
  entry h _ hvs := h.entry_of_mem hvs
  plain hv := plain _ hv
  null _ := null
  func f _ := func f
  returning := returning _
  grows _ hv := hv

theorem Invariant.unwrap {inv : Store → Prop} {P : Store → Value → Prop} (hI : Invariant inv P)
    {s : Store} {v : Value} (h : P s v) : P s v.unwrap := by
  cases v with
  | returning w => exact hI.returning.mp h
  | int n => exact h
  | bool b => exact h
  | null => exact h
  | error e => exact h
  | func f => exact h

/-! ## moments -/

/-- the values that a task starts with satisfy `P` -/
def Task.Within (P : Store → Value → Prop) (s : Store) : Task → Prop
  | .block last _ => ∀ v ∈ last, P s v
  | .call f vs => P s (.func f) ∧ ∀ v ∈ vs, P s v
  | _ => True

namespace Moment

/-- an evaluation about to start where `inv` holds -/
structure Within (inv : Store → Prop) (P : Store → Value → Prop) (m : Moment) : Prop where
  scope : m.scope < m.store.scopes.size
  store : inv m.store
  task : m.task.Within P m.store

end Moment

section
variable {inv : Store → Prop} {P : Store → Value → Prop} (hI : Invariant inv P)
include hI

open Moment

/-- one step: what is started as a part starts with values for which `P` holds -/
theorem Moment.Part.task_within {m n : Moment} (h : m.Part n) (hm : m.Within inv P)
    (hparts : ∀ p, m.Part p → p.scope < p.store.scopes.size ∧ p.task.Within P p.store →
      inv p.store → p.Meets inv fun _ => P) : n.task.Within P n.store := by
  obtain ⟨hk, hs, htask⟩ := hm
  cases h with
  | body alternative ht hv => simp [Task.Within]
  | alternative ht hv => simp [Task.Within]
  | call he hes =>
    obtain ⟨hle, ht, hf⟩ := Outcome.Within.of_ok (hparts _ .callee ⟨hk, trivial⟩ hs) he
    have hkt := Nat.lt_of_lt_of_le hk hle
    obtain ⟨hle', -, hvs⟩ := Outcome.Within.of_ok (hparts _ (.args he) ⟨hkt, trivial⟩ ht) hes
    exact ⟨hI.grows hle' hf, hvs⟩
  | rest last hst hr =>
    exact (Outcome.Within.of_ok (hparts _ (.first last) ⟨hk, trivial⟩ hs) hst).2.2
  | enter hf => simp [ofCall, Task.Within]
  | _ => exact trivial

theorem Invariant.contract :
    Contract inv (fun m => m.scope < m.store.scopes.size ∧ m.task.Within P m.store)
      fun _ => P where
  part h hm hs hparts :=
    ⟨Reaches.scope_lt (.single h) hm.1, h.task_within hI ⟨hm.1, hs, hm.2⟩ hparts⟩
  entry hm hs _ := hI.entry hs hm.2.1 hm.2.2
  plain := hI.plain
  null := hI.null _
  name := hI.get?
  func hm hs := ⟨hI.newClosure _ _ _ hs, hI.func _ hm.1⟩
  last hm := hm.2
  bind hm he ht hv := by
    have hle := size_le_of_final? (final?_expr he)
    exact hI.set _ ht (Nat.lt_of_lt_of_le hm.1 hle) hv
  ret _ _ hv := hI.returning.mpr hv
  pass _ hle hv := hI.grows hle hv
  body _ _ hv := hI.unwrap hv

/-! ## evaluations -/

theorem Program.eval_within (depth : Nat) {scope : ScopeId} (p : Program) {s : Store}
    (hscope : scope < s.scopes.size) (hs : inv s) :
    (p.eval depth scope s).Within inv (fun t r => ∀ v ∈ r, P t v) s := by
  have hstart : (ofProgram depth scope p s).task.Within P s := by simp [ofProgram, Task.Within]
  exact hI.contract.program_within ⟨hscope, hstart⟩ hs fun _ _ => hI.unwrap

theorem Node.eval_within (depth : Nat) {scope : ScopeId} (node : Node) {s : Store}
    (hscope : scope < s.scopes.size) (hs : inv s) :
    (node.eval depth scope s).Within inv (fun t r => ∀ v ∈ r, P t v) s := by
  have hmeets : ∀ task : Task, task.Within P s → Meets inv (fun _ => P) ⟨depth, scope, task, s⟩ :=
    fun task htask => hI.contract.meets ⟨hscope, htask⟩ hs
  cases node with
  | program p => exact Program.eval_within hI depth p hscope hs
  | block b => exact hmeets (.block none b) (by simp [Task.Within])
  | stmt st => exact hmeets (.stmt st) trivial
  | expr e => exact hmeets (.stmt (.expr e)) trivial

namespace Moment
variable {m n : Moment}

theorem Within.final (h : m.Within inv P) {t : Store} (ht : m.final? = some t) : inv t :=
  (hI.contract.meets ⟨h.scope, h.task⟩ h.store).final ht

theorem Reaches.within (h : m.Reaches n) (hm : m.Within inv P) : n.Within inv P := by
  obtain ⟨⟨hscope, htask⟩, hs⟩ := hI.contract.reaches h ⟨hm.scope, hm.task⟩ hm.store
  exact ⟨hscope, hs, htask⟩

end Moment

end

end MonkeyLang
