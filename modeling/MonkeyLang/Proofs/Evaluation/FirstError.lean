import MonkeyLang.Proofs.Evaluation.Moment

/-!
# The first error ends everything

* `Moment.Fails`, `Moment.Completes`   an evaluation ends with an error, or with a result;
* `Moment.parts`   the parts of an evaluation that are started, in the order of their starts
                   (`Moment.mem_parts_iff`: just the parts that `Moment.Part` speaks of);
* `Moment.Part.fails`   a part that fails is the last one to be started, and the whole fails with
                   the same error in the same store;
* `Node.first_error_ends_all`   so it is with everything around a failure.
-/

namespace MonkeyLang

/-- what is started after a step, if the step gives a result -/
def Outcome.andThen {α : Type} (o : Outcome α) (next : α → Store → List Moment) : List Moment :=
  match o with
  | ok a t => next a t
  | error _ _ => []
  | tooDeep => []

namespace Moment

/-! ## how an evaluation ends -/

/-- the evaluation ends with the error `e`, in the store `t` -/
def Fails (m : Moment) (e : RuntimeError) (t : Store) : Prop :=
  match m.task with
  | .expr x => x.eval (Closure.call m.depth) m.scope m.store = .error e t
  | .args xs => Expr.evalAll (Closure.call m.depth) m.scope xs m.store = .error e t
  | .stmt st => st.eval (Closure.call m.depth) m.scope m.store = .error e t
  | .block last ss => Block.eval (Closure.call m.depth) m.scope last ss m.store = .error e t
  | .call f vs => f.call m.depth vs m.store = .error e t

/-- the evaluation ends with a result, in the store `t` -/
def Completes (m : Moment) (t : Store) : Prop :=
  match m.task with
  | .expr x => ∃ v, x.eval (Closure.call m.depth) m.scope m.store = .ok v t
  | .args xs => ∃ vs, Expr.evalAll (Closure.call m.depth) m.scope xs m.store = .ok vs t
  | .stmt st => ∃ r, st.eval (Closure.call m.depth) m.scope m.store = .ok r t
  | .block last ss => ∃ r, Block.eval (Closure.call m.depth) m.scope last ss m.store = .ok r t
  | .call f vs => ∃ v, f.call m.depth vs m.store = .ok v t

/-! ## the parts in order -/

/-- the parts of an evaluation that are started, one after the other.  All but the first one of
several are started only if the ones before it give a result -/
def parts : Moment → List Moment
  | ⟨d, k, .expr (.unary _ x), s⟩ => [⟨d, k, .expr x, s⟩]
  | ⟨d, k, .expr (.binary l _ r), s⟩ =>
    ⟨d, k, .expr l, s⟩ :: (l.eval (Closure.call d) k s).andThen fun _ t => [⟨d, k, .expr r, t⟩]
  | ⟨d, k, .expr (.cond test body alternative), s⟩ =>
    ⟨d, k, .expr test, s⟩ :: (test.eval (Closure.call d) k s).andThen fun v t =>
      if v.truthy then [⟨d, k, .block none body, t⟩]
      else
        match alternative with
        | none => []
        | some other => [⟨d, k, .block none other, t⟩]
  | ⟨d, k, .expr (.call x xs), s⟩ =>
    ⟨d, k, .expr x, s⟩ :: (x.eval (Closure.call d) k s).andThen fun f t =>
      ⟨d, k, .args xs, t⟩ :: (Expr.evalAll (Closure.call d) k xs t).andThen fun vs u =>
        match f with
        | .func f => [⟨d, k, .call f vs, u⟩]
        | _ => []
  | ⟨_, _, .expr _, _⟩ => []
  | ⟨_, _, .args [], _⟩ => []
  | ⟨d, k, .args (x :: xs), s⟩ =>
    ⟨d, k, .expr x, s⟩ :: (x.eval (Closure.call d) k s).andThen fun _ t => [⟨d, k, .args xs, t⟩]
  | ⟨d, k, .stmt (.bind _ x), s⟩ => [⟨d, k, .expr x, s⟩]
  | ⟨d, k, .stmt (.ret x), s⟩ => [⟨d, k, .expr x, s⟩]
  | ⟨d, k, .stmt (.expr x), s⟩ => [⟨d, k, .expr x, s⟩]
  | ⟨_, _, .block _ [], _⟩ => []
  | ⟨d, k, .block _ (st :: ss), s⟩ =>
    ⟨d, k, .stmt st, s⟩ :: (st.eval (Closure.call d) k s).andThen fun r t =>
      match r with
      | some (.returning _) => []
      | r => [⟨d, k, .block r ss, t⟩]
  | ⟨0, _, .call _ _, _⟩ => []
  | ⟨d + 1, _, .call f vs, s⟩ =>
    if f.params.length = vs.length then [ofCall d f vs s] else []

theorem mem_andThen {α : Type} {o : Outcome α} {next : α → Store → List Moment} {n : Moment} :
    n ∈ o.andThen next ↔ ∃ a t, o = .ok a t ∧ n ∈ next a t := by
  cases o with
  | ok a t =>
    constructor
    · exact fun h => ⟨a, t, rfl, h⟩
    · rintro ⟨a', t', ⟨⟩, h⟩
      exact h
  | error e t => simp [Outcome.andThen]
  | tooDeep => simp [Outcome.andThen]

theorem Part.mem_parts {m n : Moment} (h : m.Part n) : n ∈ m.parts := by
  cases h with
  | operand op => simp [parts]
  | left op => simp [parts]
  | right op hl => simp [parts, hl, Outcome.andThen]
  | test alternative => simp [parts]
  | body alternative ht hv => simp [parts, ht, hv, Outcome.andThen]
  | alternative ht hv => simp [parts, ht, hv, Outcome.andThen]
  | callee => simp [parts]
  | args he => simp [parts, he, Outcome.andThen]
  | call he hes => simp [parts, he, hes, Outcome.andThen]
  | firstArg => simp [parts]
  | moreArgs he => simp [parts, he, Outcome.andThen]
  | bind x => simp [parts]
  | ret => simp [parts]
  | value => simp [parts]
  | first last => simp [parts]
  | rest last hst hr => simp [parts, hst, Outcome.andThen]
  | enter hf => simp [parts, hf]

theorem part_of_mem_parts {m n : Moment} (h : n ∈ m.parts) : m.Part n := by
  obtain ⟨d, k, task, s⟩ := m
  match task with
  | .expr (.name x) => cases h
  | .expr (.int i) => cases h
  | .expr (.bool b) => cases h
  | .expr (.func params body) => cases h
  | .expr (.unary op x) =>
    obtain rfl := List.mem_singleton.mp h
    exact .operand op
  | .expr (.binary l op r) =>
    obtain rfl | h := List.mem_cons.mp h
    · exact .left op
    obtain ⟨v, t, hl, h⟩ := mem_andThen.mp h
    obtain rfl := List.mem_singleton.mp h
    exact .right op hl
  | .expr (.cond test body alternative) =>
    obtain rfl | h := List.mem_cons.mp h
    · exact .test alternative
    obtain ⟨v, t, ht, h⟩ := mem_andThen.mp h
    cases hv : v.truthy with
    | true =>
      rw [if_pos hv] at h
      obtain rfl := List.mem_singleton.mp h
      exact .body alternative ht hv
    | false =>
      rw [if_neg (by simp [hv])] at h
      cases alternative with
      | none => cases h
      | some other =>
        obtain rfl := List.mem_singleton.mp h
        exact .alternative ht hv
  | .expr (.call x xs) =>
    obtain rfl | h := List.mem_cons.mp h
    · exact .callee
    obtain ⟨f, t, hf, h⟩ := mem_andThen.mp h
    obtain rfl | h := List.mem_cons.mp h
    · exact .args hf
    obtain ⟨vs, u, hvs, h⟩ := mem_andThen.mp h
    split at h
    · obtain rfl := List.mem_singleton.mp h
      exact .call hf hvs
    · cases h
  | .args [] => cases h
  | .args (x :: xs) =>
    obtain rfl | h := List.mem_cons.mp h
    · exact .firstArg
    obtain ⟨v, t, hx, h⟩ := mem_andThen.mp h
    obtain rfl := List.mem_singleton.mp h
    exact .moreArgs hx
  | .stmt (.bind x e) =>
    obtain rfl := List.mem_singleton.mp h
    exact .bind x
  | .stmt (.ret e) =>
    obtain rfl := List.mem_singleton.mp h
    exact .ret
  | .stmt (.expr e) =>
    obtain rfl := List.mem_singleton.mp h
    exact .value
  | .block last [] => cases h
  | .block last (st :: ss) =>
    obtain rfl | h := List.mem_cons.mp h
    · exact .first last
    obtain ⟨r, t, hst, h⟩ := mem_andThen.mp h
    split at h
    · cases h
    case h_2 hr =>
      obtain rfl := List.mem_singleton.mp h
      exact .rest last hst hr
  | .call f vs =>
    cases d with
    | zero => cases h
    | succ d =>
      by_cases hf : f.params.length = vs.length
      · rw [parts, if_pos hf] at h
        obtain rfl := List.mem_singleton.mp h
        exact .enter hf
      · rw [parts, if_neg hf] at h
        cases h

theorem mem_parts_iff {m n : Moment} : n ∈ m.parts ↔ m.Part n := ⟨part_of_mem_parts, Part.mem_parts⟩

/-! ## failures go outwards -/

/-- one step: a part that fails makes the whole fail, and nothing is started after it -/
theorem Part.fails {m n : Moment} (h : m.Part n) {e : RuntimeError} {t : Store}
    (hn : n.Fails e t) :
    m.Fails e t ∧ ∃ before, m.parts = before ++ [n] ∧ ∀ p ∈ before, ∃ u, p.Completes u := by
  cases h with
  | operand op => exact ⟨Evaluation.bind_of_error _ hn, [], rfl, by simp⟩
  | @left d k l r s op =>
    have hl : l.eval (Closure.call d) k s = .error e t := hn
    exact ⟨Evaluation.bind_of_error _ hl, [], by simp [parts, hl, Outcome.andThen], by simp⟩
  | @right d k l r s t' v op hl =>
    have hr : r.eval (Closure.call d) k t' = .error e t := hn
    refine ⟨(Evaluation.bind_of_ok _ hl).trans (Evaluation.bind_of_error _ hr),
      [⟨d, k, .expr l, s⟩], by simp [parts, hl, Outcome.andThen], ?_⟩
    simpa using ⟨t', v, hl⟩
  | @test d k test b s alternative =>
    have ht : test.eval (Closure.call d) k s = .error e t := hn
    refine ⟨?_, [], by simp [parts, ht, Outcome.andThen], by simp⟩
    cases alternative with
    | none => exact Evaluation.bind_of_error _ ht
    | some other => exact Evaluation.bind_of_error _ ht
  | @body d k test b s t' v alternative ht hv =>
    refine ⟨(Expr.eval_cond_of_truthy ht hv b alternative).trans (Evaluation.bind_of_error _ hn),
      [⟨d, k, .expr test, s⟩], by simp [parts, ht, hv, Outcome.andThen], ?_⟩
    simpa using ⟨t', v, ht⟩
  | @alternative d k test b o s t' v ht hv =>
    refine ⟨(Expr.eval_cond_of_falsy ht hv b o).trans (Evaluation.bind_of_error _ hn),
      [⟨d, k, .expr test, s⟩], by simp [parts, ht, hv, Outcome.andThen], ?_⟩
    simpa using ⟨t', v, ht⟩
  | @callee d k x xs s =>
    have hx : x.eval (Closure.call d) k s = .error e t := hn
    exact ⟨Evaluation.bind_of_error _ hx, [], by simp [parts, hx, Outcome.andThen], by simp⟩
  | @args d k x xs s t' v hx =>
    have hxs : Expr.evalAll (Closure.call d) k xs t' = .error e t := hn
    refine ⟨(Evaluation.bind_of_ok _ hx).trans (Evaluation.bind_of_error _ hxs),
      [⟨d, k, .expr x, s⟩], by simp [parts, hx, hxs, Outcome.andThen], ?_⟩
    simpa using ⟨t', v, hx⟩
  | @call d k xs t' vs u x s f hx hxs =>
    refine ⟨((Evaluation.bind_of_ok _ hx).trans (Evaluation.bind_of_ok _ hxs)).trans hn,
      [⟨d, k, .expr x, s⟩, ⟨d, k, .args xs, t'⟩], by simp [parts, hx, hxs, Outcome.andThen], ?_⟩
    simpa using ⟨⟨t', _, hx⟩, u, vs, hxs⟩
  | @firstArg d k x xs s =>
    have hx : x.eval (Closure.call d) k s = .error e t := hn
    exact ⟨Evaluation.bind_of_error _ hx, [], by simp [parts, hx, Outcome.andThen], by simp⟩
  | @moreArgs d k x xs s t' v hx =>
    refine ⟨(Evaluation.bind_of_ok _ hx).trans (Evaluation.bind_of_error _ hn),
      [⟨d, k, .expr x, s⟩], by simp [parts, hx, Outcome.andThen], ?_⟩
    simpa using ⟨t', v, hx⟩
  | bind x => exact ⟨Evaluation.bind_of_error _ hn, [], rfl, by simp⟩
  | ret => exact ⟨Evaluation.bind_of_error _ hn, [], rfl, by simp⟩
  | value => exact ⟨Evaluation.bind_of_error _ hn, [], rfl, by simp⟩
  | @first d k st ss s last =>
    have hst : st.eval (Closure.call d) k s = .error e t := hn
    exact ⟨Block.eval_cons_of_breaks hst trivial last ss, [],
      by simp [parts, hst, Outcome.andThen], by simp⟩
  | @rest d k st ss s t' last r hst hr =>
    refine ⟨(Block.eval_cons_of_ok hst hr last ss).trans hn, [⟨d, k, .stmt st, s⟩],
      by simp [parts, hst, Outcome.andThen], ?_⟩
    simpa using ⟨t', r, hst⟩
  | enter hf =>
    exact ⟨(Closure.call_of_length hf _ _).trans (Evaluation.bind_of_error _ hn), [],
      by simp [parts, hf], by simp⟩

theorem Reaches.fails {m n : Moment} (h : m.Reaches n) {e : RuntimeError} {t : Store}
    (hn : n.Fails e t) : m.Fails e t := by
  induction h with
  | refl => exact hn
  | tail _ hpart ih => exact ih (hpart.fails hn).1

/-- a node about to be evaluated on its own -/
def ofNode (depth : Nat) (scope : ScopeId) (node : Node) (s : Store) : Moment :=
  match node with
  | .program p => ofProgram depth scope p s
  | .block b => ⟨depth, scope, .block none b, s⟩
  | .stmt st => ⟨depth, scope, .stmt st, s⟩
  | .expr x => ⟨depth, scope, .expr x, s⟩

end Moment

namespace Node

open Moment

theorem eval_of_fails {depth : Nat} {scope : ScopeId} {node : Node} {s t : Store}
    {e : RuntimeError} (h : (ofNode depth scope node s).Fails e t) :
    node.eval depth scope s = .error e t := by
  cases node with
  | program p => exact Evaluation.bind_of_error _ h
  | block b => exact h
  | stmt st => exact h
  | expr x => exact Evaluation.bind_of_error _ h

/-- **The first error ends everything around it, and nothing changes any more.**  When a part of an
evaluation fails, however deep inside, the whole is an error value with the same error, in the store
in which the part has failed.  So is each evaluation around the part, and of what such an evaluation
starts, the part that leads to the failure is the last: all others were before it and gave their
results. -/
theorem first_error_ends_all {depth : Nat} {scope : ScopeId} {node : Node} {s t : Store}
    {n : Moment} {e : RuntimeError} (h : (ofNode depth scope node s).Reaches n)
    (hn : n.Fails e t) :
    (node.eval depth scope s).settle = some (some (.error e), t) ∧
      ∀ m p, (ofNode depth scope node s).Reaches m → m.Part p → p.Reaches n →
        m.Fails e t ∧
          ∃ before, m.parts = before ++ [p] ∧ (∀ q, m.Part q ↔ q ∈ before ∨ q = p) ∧
            ∀ q ∈ before, ∃ u, q.Completes u := by
  constructor
  · rw [eval_of_fails (h.fails hn)]
    rfl
  intro m p _ hp hpn
  obtain ⟨hm, before, hparts, hbefore⟩ := hp.fails (hpn.fails hn)
  refine ⟨hm, before, hparts, fun q => ?_, hbefore⟩
  rw [← mem_parts_iff, hparts, List.mem_append, List.mem_singleton]

/-- an error in the body of a function that is called in an operand of a `let`: the `let` before it
and the one in the body have bound their names, the pending one has not -/
theorem first_error_ends_all_in_call :
    let body : Block := [.bind "b" (.int 4), .ret (.unary .neg (.bool true)), .expr (.int 5)]
    let node : Node := .program [.bind "x" (.int 1),
      .bind "y" (.binary (.int 2) .add (.call (.func ["a"] body) [.int 3])), .expr (.int 6)]
    let s : Store := ⟨#[⟨[], none⟩], 0⟩
    let t : Store := ⟨#[⟨[("x", .int 1)], none⟩, ⟨[("a", .int 3), ("b", .int 4)], some 0⟩], 1⟩
    let n : Moment := ⟨0, 1, .expr (.unary .neg (.bool true)), t⟩
    (ofNode 1 0 node s).Reaches n ∧ n.Fails (.unknownOperator "-BOOLEAN") t ∧
      (node.eval 1 0 s).settle = some (some (.error (.unknownOperator "-BOOLEAN")), t) := by
  intro body node s t n
  have hreach : (ofNode 1 0 node s).Reaches n :=
    .head (.rest none rfl (by simp)) <| .head (.first none) <| .head (.bind "y") <|
      .head (.right .add rfl) <| .head (.call rfl rfl) <| .head (.enter rfl) <|
        .head (.rest none rfl (by simp)) <| .head (.first none) <| .single .ret
  have hfails : n.Fails (.unknownOperator "-BOOLEAN") t := rfl
  exact ⟨hreach, hfails, (first_error_ends_all hreach hfails).1⟩

end Node

end MonkeyLang
