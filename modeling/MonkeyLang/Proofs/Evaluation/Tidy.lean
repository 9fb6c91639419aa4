import MonkeyLang.Proofs.Evaluation.Returns

/-!
# Early returns

A conditional is an expression, so a `return` in one of its branches may come to stand inside an
operand, where its signal is taken for a value.  In a tidy tree it does not.

* `Expr.Quiet`      the tree has no `return`, the bodies of functions left aside;
* `Block.Tidy`      what an operator, a test, a call, a `let` or a `return` works on is quiet, so a
                    conditional that returns is a statement of its own; so it is in all functions;
* `Store.Tidy`      no scope binds a signal or a function with an untidy body;
* `Moment.Own`      the parts of an evaluation that belong to no call made in it;
* `Moment.LastIn`   no statement after a given one is evaluated.

Evaluation of what is tidy keeps everything tidy (`tidy_contract`), and a `return` that a tidy body
comes to is one that it leads to (`Own.leads`): all blocks around it end as it ends.
-/

namespace MonkeyLang

/-! ## tidy trees -/

mutual

def Expr.Quiet : Expr → Prop
  | .name _ => True
  | .int _ => True
  | .bool _ => True
  | .unary _ e => e.Quiet
  | .binary l _ r => l.Quiet ∧ r.Quiet
  | .cond test body none => test.Quiet ∧ Block.Quiet body
  | .cond test body (some other) => test.Quiet ∧ Block.Quiet body ∧ Block.Quiet other
  | .func _ _ => True
  | .call callee args => callee.Quiet ∧ Expr.AllQuiet args

def Expr.AllQuiet : List Expr → Prop
  | [] => True
  | e :: es => e.Quiet ∧ Expr.AllQuiet es

def Stmt.Quiet : Stmt → Prop
  | .bind _ e => e.Quiet
  | .ret _ => False
  | .expr e => e.Quiet

def Block.Quiet : List Stmt → Prop
  | [] => True
  | st :: ss => st.Quiet ∧ Block.Quiet ss

end

mutual

/-- tidy as a statement; an operand has to be quiet, too -/
def Expr.Tidy : Expr → Prop
  | .name _ => True
  | .int _ => True
  | .bool _ => True
  | .unary _ e => e.Quiet ∧ e.Tidy
  | .binary l _ r => (l.Quiet ∧ l.Tidy) ∧ r.Quiet ∧ r.Tidy
  | .cond test body none => (test.Quiet ∧ test.Tidy) ∧ Block.Tidy body
  | .cond test body (some other) => (test.Quiet ∧ test.Tidy) ∧ Block.Tidy body ∧ Block.Tidy other
  | .func _ body => Block.Tidy body
  | .call callee args => (callee.Quiet ∧ callee.Tidy) ∧ Expr.AllQuiet args ∧ Expr.AllTidy args

def Expr.AllTidy : List Expr → Prop
  | [] => True
  | e :: es => e.Tidy ∧ Expr.AllTidy es

def Stmt.Tidy : Stmt → Prop
  | .bind _ e => e.Quiet ∧ e.Tidy
  | .ret e => e.Quiet ∧ e.Tidy
  | .expr e => e.Tidy

def Block.Tidy : List Stmt → Prop
  | [] => True
  | st :: ss => st.Tidy ∧ Block.Tidy ss

end

theorem Expr.Quiet.parts {test : Expr} {body : Block} {alternative : Option Block}
    (h : (Expr.cond test body alternative).Quiet) : test.Quiet ∧ Block.Quiet body := by
  cases alternative with
  | none => exact h
  | some other => exact ⟨h.1, h.2.1⟩

theorem Expr.Tidy.parts {test : Expr} {body : Block} {alternative : Option Block}
    (h : (Expr.cond test body alternative).Tidy) :
    (test.Quiet ∧ test.Tidy) ∧ Block.Tidy body := by
  cases alternative with
  | none => exact h
  | some other => exact ⟨h.1, h.2.1⟩

/-! ## tidy values and stores -/

namespace Value

/-- no signal, and tidy inside -/
def Tidy : Value → Prop
  | returning _ => False
  | func f => Block.Tidy f.body
  | _ => True

theorem Plain.tidy {v : Value} (h : v.Plain) : v.Tidy := by
  cases v with
  | int n => exact trivial
  | bool b => exact trivial
  | null => exact h.elim
  | returning w => exact h.elim
  | error e => exact h.elim
  | func f => exact h.elim

theorem Tidy.not_signal {v : Value} (h : v.Tidy) : ¬ v.Signal := by
  rintro ⟨w, rfl⟩
  exact h

theorem Tidy.unwrap {v : Value} (h : v.Tidy) : v.unwrap.Tidy := by
  rwa [unwrap_of_not_signal h.not_signal]

/-- what a tidy tree may give: a signal only if it has a `return`, and then a tidy one -/
def Comes (quiet : Prop) (v : Value) : Prop := v.unwrap.Tidy ∧ (quiet → v.Tidy)

theorem Tidy.comes {v : Value} (h : v.Tidy) (quiet : Prop) : v.Comes quiet :=
  ⟨h.unwrap, fun _ => h⟩

theorem Comes.tidy {quiet : Prop} {v : Value} (h : v.Comes quiet) (hv : ¬ v.Signal) : v.Tidy := by
  rw [← unwrap_of_not_signal hv]
  exact h.1

theorem Comes.mono {p q : Prop} {v : Value} (h : v.Comes p) (hqp : q → p) : v.Comes q :=
  ⟨h.1, fun hq => h.2 (hqp hq)⟩

end Value

def Store.Tidy (s : Store) : Prop := s.All Value.Tidy

theorem Store.Tidy.noSignal {s : Store} (h : s.Tidy) : s.NoSignal :=
  fun k x v hv => (h k x v hv).not_signal

/-! ## tidy moments -/

namespace Task

def Quiet : Task → Prop
  | expr e => e.Quiet
  | args es => Expr.AllQuiet es
  | stmt st => st.Quiet
  | block _ ss => Block.Quiet ss
  | call _ _ => True

def Tidy : Task → Prop
  | expr e => e.Tidy
  | args es => Expr.AllQuiet es ∧ Expr.AllTidy es
  | stmt st => st.Tidy
  | block last ss => Block.Tidy ss ∧ ∀ v ∈ last, v.Tidy
  | call f vs => Block.Tidy f.body ∧ ∀ v ∈ vs, v.Tidy

end Task

namespace Moment

def Tidy (m : Moment) : Prop := m.task.Tidy ∧ m.store.Tidy

/-- where there is no `return`, none is reached before a call is entered -/
theorem Part.quiet {m n : Moment} (h : m.Part n) (hd : n.depth = m.depth) (hm : m.task.Quiet) :
    n.task.Quiet := by
  cases h with
  | operand op => exact hm
  | left op => exact hm.1
  | right op hl => exact hm.2
  | test alternative => exact (Expr.Quiet.parts hm).1
  | body alternative ht hv => exact (Expr.Quiet.parts hm).2
  | alternative ht hv => exact hm.2.2
  | callee => exact hm.1
  | args he => exact hm.2
  | call he hes => exact trivial
  | firstArg => exact hm.1
  | moreArgs he => exact hm.2
  | bind x => exact hm
  | ret => exact hm.elim
  | value => exact hm
  | first last => exact hm.1
  | rest last hst hr => exact hm.2
  | enter hf => exact absurd hd (Nat.ne_of_lt (Nat.lt_succ_self _))

/-- one step: what a tidy evaluation starts is tidy -/
theorem Part.task_tidy {m n : Moment} (h : m.Part n) (hm : m.Tidy)
    (hparts : ∀ p, m.Part p → p.task.Tidy → p.store.Tidy →
      p.Meets Store.Tidy fun m _ v => v.Comes m.task.Quiet) : n.task.Tidy := by
  obtain ⟨htask, hs⟩ := hm
  cases h with
  | operand op => exact htask.2
  | left op => exact htask.1.2
  | right op hl => exact htask.2.2
  | test alternative => exact (Expr.Tidy.parts htask).1.2
  | body alternative ht hv => exact ⟨(Expr.Tidy.parts htask).2, by simp⟩
  | alternative ht hv => exact ⟨htask.2.2, by simp⟩
  | callee => exact htask.1.2
  | args he => exact htask.2
  | call he hes =>
    obtain ⟨-, ht, hf⟩ := Outcome.Within.of_ok (hparts _ .callee htask.1.2 hs) he
    obtain ⟨-, -, hvs⟩ := Outcome.Within.of_ok (hparts _ (.args he) htask.2 ht) hes
    exact ⟨hf.2 htask.1.1, fun v hv => (hvs v hv).2 htask.2.1⟩
  | firstArg => exact htask.2.1
  | moreArgs he => exact ⟨htask.1.2, htask.2.2⟩
  | bind x => exact htask.2
  | ret => exact htask.2
  | value => exact htask
  | first last => exact htask.1.1
  | rest last hst hr =>
    obtain ⟨-, -, hfirst⟩ := Outcome.Within.of_ok (hparts _ (.first last) htask.1.1 hs) hst
    refine ⟨htask.1.2, fun v hv => (hfirst v hv).tidy ?_⟩
    rintro ⟨w, rfl⟩
    exact hr w hv
  | enter hf => exact ⟨htask.1, by simp⟩

theorem Lead.part {m n : Moment} (h : m.Lead n) : m.Part n ∧ n.depth = m.depth := by
  cases h with
  | value => exact ⟨.value, rfl⟩
  | first last => exact ⟨.first last, rfl⟩
  | rest last hst hr => exact ⟨.rest last hst hr, rfl⟩
  | body alternative ht hv => exact ⟨.body alternative ht hv, rfl⟩
  | alternative ht hv => exact ⟨.alternative ht hv, rfl⟩

theorem Passes.part {m n : Moment} (h : m.Passes n) : m.Part n ∧ n.depth = m.depth := by
  cases h with
  | lead h => exact h.part
  | call he hes => exact ⟨.call he hes, rfl⟩
  | firstArg => exact ⟨.firstArg, rfl⟩
  | moreArgs he => exact ⟨.moreArgs he, rfl⟩

theorem tidy_contract :
    Contract Store.Tidy (fun m => m.task.Tidy) fun m _ v => v.Comes m.task.Quiet where
  part h hm hs hparts := h.task_tidy ⟨hm, hs⟩ hparts
  entry hm hs _ := hs.entry_of_mem hm.2
  plain hv := hv.tidy.comes _
  null := Value.Tidy.comes (v := .null) trivial _
  name hs hv := Value.Tidy.comes (hs.get? hv) _
  func hm hs := ⟨hs, Value.Tidy.comes (v := .func (Store.newClosure _ _ _ _).1) hm _⟩
  last hm v hv := (hm.2 v hv).comes _
  bind hm _ ht hv := ht.set _ _ (hv.2 hm.1)
  ret hm _ hv := ⟨hv.2 hm.1, fun h => h.elim⟩
  pass h _ hv := hv.mono (h.part.1.quiet h.part.2)
  body _ _ hv := hv.1.comes _

theorem Tidy.final {m : Moment} (h : m.Tidy) {t : Store} (ht : m.final? = some t) : t.Tidy :=
  (tidy_contract.meets h.1 h.2).final ht

theorem Reaches.tidy {m n : Moment} (h : m.Reaches n) (hm : m.Tidy) : n.Tidy :=
  tidy_contract.reaches h hm.1 hm.2

theorem Part.tidy {m n : Moment} (h : m.Part n) (hm : m.Tidy) : n.Tidy :=
  Reaches.tidy (.single h) hm

theorem Tidy.comes {d : Nat} {k : ScopeId} {e : Expr} {s t : Store} {v : Value}
    (h : Moment.Tidy ⟨d, k, .expr e, s⟩) (he : e.eval (Closure.call d) k s = .ok v t) :
    v.Comes e.Quiet :=
  (Outcome.Within.of_ok (tidy_contract.meets h.1 h.2) he).2.2

/-! ## the parts that belong to no call -/

/-- some steps, none of which enters the body of a call -/
def Own : Moment → Moment → Prop :=
  Relation.ReflTransGen fun m n => m.Part n ∧ n.depth = m.depth

theorem Own.reaches {m n : Moment} (h : m.Own n) : m.Reaches n :=
  Relation.ReflTransGen.mono (fun _ _ hpart => hpart.1) _ _ h

theorem Leads.own {m n : Moment} (h : m.Leads n) : m.Own n :=
  Relation.ReflTransGen.mono (fun _ _ hlead => Lead.part hlead) _ _ h

theorem Own.depth_eq {m n : Moment} (h : m.Own n) : n.depth = m.depth := by
  induction h with
  | refl => rfl
  | tail _ hpart ih => exact hpart.2.trans ih

theorem Own.quiet {m n : Moment} (h : m.Own n) (hm : m.task.Quiet) : n.task.Quiet := by
  induction h with
  | refl => exact hm
  | tail _ hpart ih => exact hpart.1.quiet hpart.2 ih

/-- in a tidy evaluation only the parts that lead have a `return` -/
theorem Part.lead {m n : Moment} (h : m.Part n) (hd : n.depth = m.depth) (hm : m.task.Tidy)
    (hn : ¬ n.task.Quiet) : m.Lead n := by
  cases h with
  | operand op => exact absurd hm.1 hn
  | left op => exact absurd hm.1.1 hn
  | right op hl => exact absurd hm.2.1 hn
  | test alternative => exact absurd (Expr.Tidy.parts hm).1.1 hn
  | body alternative ht hv => exact .body alternative ht hv
  | alternative ht hv => exact .alternative ht hv
  | callee => exact absurd hm.1.1 hn
  | args he => exact absurd hm.2.1 hn
  | call he hes => exact absurd trivial hn
  | firstArg => exact absurd hm.1.1 hn
  | moreArgs he => exact absurd hm.1.2 hn
  | bind x => exact absurd hm.1 hn
  | ret => exact absurd hm.1 hn
  | value => exact .value
  | first last => exact .first last
  | rest last hst hr => exact .rest last hst hr
  | enter hf => exact absurd hd (Nat.ne_of_lt (Nat.lt_succ_self _))

theorem Own.leads {m r : Moment} (h : m.Own r) (hm : m.Tidy) (hr : ¬ r.task.Quiet) :
    m.Leads r := by
  induction h using Relation.ReflTransGen.head_induction_on with
  | refl => exact .refl
  | head hpart hrest ih =>
    have hn := hpart.1.tidy hm
    exact .head (hpart.1.lead hpart.2 hm.1 fun hq => hr (Own.quiet hrest hq)) (ih hn)

/-! ## the end of a body -/

/-- of the blocks in `b` around `r`, none goes on after the statement that holds `r` -/
def LastIn (b r : Moment) : Prop :=
  ∀ d k last st ss s, b.Own ⟨d, k, .block last (st :: ss), s⟩ → Own ⟨d, k, .stmt st, s⟩ r →
    ∀ n, Part ⟨d, k, .block last (st :: ss), s⟩ n → n = ⟨d, k, .stmt st, s⟩

end Moment

theorem Stmt.breaks_ret (e : Expr) (call : Closure → List Value → Evaluation Value) (k : ScopeId)
    (s : Store) : ((Stmt.ret e).eval call k s).Breaks := by
  rw [Stmt.eval]
  cases h : e.eval call k s with
  | ok v t =>
    rw [Evaluation.bind_of_ok _ h]
    exact ⟨v, rfl⟩
  | error e t =>
    rw [Evaluation.bind_of_error _ h]
    exact trivial
  | tooDeep =>
    rw [Evaluation.bind_of_tooDeep _ h]
    exact trivial

namespace Moment
variable {b : Moment} {d : Nat} {i : ScopeId} {e : Expr} {u : Store}

theorem Own.ends_ret (h : b.Own ⟨d, i, .stmt (.ret e), u⟩) (hb : b.Tidy) :
    b.Ends ((Stmt.ret e).eval (Closure.call d) i u) :=
  (h.leads hb id).ends rfl (Stmt.breaks_ret e _ i u)

theorem Tidy.lastIn (hb : b.Tidy) (d : Nat) (i : ScopeId) (e : Expr) (u : Store) :
    b.LastIn ⟨d, i, .stmt (.ret e), u⟩ := by
  intro d' k last st ss s hblock hst n hn
  have htidy := (Part.first last).tidy (hblock.reaches.tidy hb)
  have hends : st.eval (Closure.call d') k s = _ := hst.ends_ret htidy
  have hbreaks := Stmt.breaks_ret e (Closure.call d) i u
  cases hn with
  | first => rfl
  | rest _ hok hr =>
    -- the statement has passed, but it holds a `return`
    rw [← hends, hok] at hbreaks
    obtain ⟨w, rfl⟩ := hbreaks
    exact absurd rfl (hr w)

theorem Own.not_signal (h : b.Own ⟨d, i, .stmt (.ret e), u⟩) (hb : b.Tidy) {v : Value} {t : Store}
    (he : e.eval (Closure.call d) i u = .ok v t) : ¬ v.Signal := by
  have hret := h.reaches.tidy hb
  have hv := Tidy.comes ⟨hret.1.2, hret.2⟩ he
  exact (hv.2 hret.1.1).not_signal

/-! ## signals of a tidy evaluation -/

theorem Body.reaches {start : Moment} (h : start.Body b) : start.Reaches b := by
  cases h with
  | self => exact .refl
  | call hm hf => exact .tail hm (.enter hf)

theorem Tidy.noCapture {start : Moment} (h : start.Tidy) : start.NoCapture where
  bind d k x e s hm w t he := by
    have hbind := Reaches.tidy hm h
    have hv := Tidy.comes ⟨hbind.1.2, hbind.2⟩ he
    exact hv.2 hbind.1.1
  arg d k f args s hm hf x v hx := by
    have hcall := Reaches.tidy (.tail hm (.enter hf)) h
    have hbound : (f.entry args s).bound? s.scopes.size x = some v := by
      rw [Closure.bound?_entry_self, hx]
    exact (hcall.2 s.scopes.size x v hbound).not_signal
  ret b hb d k e s hl w t he := by
    have hbody := hb.reaches.tidy h
    exact hl.own.not_signal hbody he ⟨w, rfl⟩

/-- a body that returns does so by a `return` of its own -/
theorem Tidy.own_of_returning {start : Moment} (h : start.Tidy) {ss : List Stmt} {k : ScopeId}
    {s : Store}
    (hm : start.Reaches ⟨d, k, .block none ss, s⟩) {w : Value} {t : Store}
    (hr : Block.eval (Closure.call d) k none ss s = .ok (some (.returning w)) t) :
    ∃ e i u, Own ⟨d, k, .block none ss, s⟩ ⟨d, i, .stmt (.ret e), u⟩ ∧
      e.eval (Closure.call d) i u = .ok w t := by
  have hbody := hm.tidy h
  have hmeets := h.noCapture.contract.meets hm hbody.2.noSignal
  obtain ⟨-, -, hacc⟩ := Outcome.Within.of_ok hmeets hr
  obtain ⟨d', i, e, u, t', hl, he⟩ := hacc _ rfl w rfl (by simp)
  have hd : d' = d := hl.own.depth_eq
  subst hd
  have hends := (hl.own.ends_ret hbody).symm.trans hr
  rw [Stmt.eval, Evaluation.bind_of_ok _ he] at hends
  cases hends
  exact ⟨e, i, u, hl.own, he⟩

end Moment

/-! ## calls and programs -/

open Moment

section
variable {d : Nat} {i : ScopeId} {e : Expr} {u : Store}

theorem Closure.call_of_own_ret {f : Closure} {args : List Value} {w : Store}
    (hf : f.params.length = args.length) (hbody : (ofCall d f args w).Tidy)
    (h : (ofCall d f args w).Own ⟨d, i, .stmt (.ret e), u⟩) :
    f.call (d + 1) args w = e.eval (Closure.call d) i u := by
  have hblock : Block.eval (Closure.call d) w.scopes.size none f.body (f.entry args w) =
      (Stmt.ret e).eval (Closure.call d) i u := h.ends_ret hbody
  rw [Closure.call_of_length hf, Evaluation.bind_congr hblock, Stmt.eval, bind_assoc]
  exact congrFun (bind_pure (e.eval (Closure.call d) i)) u

theorem Program.eval_of_own_ret {scope : ScopeId} {p : Program} {s : Store}
    (hp : (ofProgram d scope p s).Tidy)
    (h : (ofProgram d scope p s).Own ⟨d, i, .stmt (.ret e), u⟩) :
    p.eval d scope s = (Node.expr e).eval d i u := by
  have hblock : Block.eval (Closure.call d) scope none p s =
      (Stmt.ret e).eval (Closure.call d) i u := h.ends_ret hp
  rw [Program.eval, Evaluation.bind_congr hblock, Stmt.eval, bind_assoc]
  rfl

end

theorem Program.eval_tidy {depth : Nat} {scope : ScopeId} {p : Program} {s : Store}
    (hp : Block.Tidy p) (hs : s.Tidy) :
    (p.eval depth scope s).Meets Store.Tidy fun r => ∀ v ∈ r, v.Tidy := by
  have hprogram : (p.eval depth scope s).Within Store.Tidy (fun _ r => ∀ v ∈ r, v.Tidy) s :=
    tidy_contract.program_within ⟨hp, by simp⟩ hs fun _ _ hv => hv.1
  exact hprogram.meets fun _ _ hr => hr

/-- **In a tidy program a `return` ends its own body, and nothing else.**  From a tidy store,
everything stays tidy, while the program runs and after it.  A `return` that the body of a call
comes to, outside the calls that it makes itself, ends this call: the call gives what the expression
of the `return` gives, which is no signal, and no statement after it is evaluated, in any of the
blocks around it.  In the same way a `return` ends the program.  No call gives a signal, so none
ends its caller: a body that returns does so by a `return` of its own. -/
theorem Program.returns_end_their_own_body {depth : Nat} {scope : ScopeId} {p : Program} {s : Store}
    (hp : Block.Tidy p) (hs : s.Tidy) :
    (p.eval depth scope s).Meets Store.Tidy (fun r => ∀ v ∈ r, v.Tidy) ∧
      (∀ m, (ofProgram depth scope p s).Reaches m →
        m.store.Tidy ∧ ∀ t, m.final? = some t → t.Tidy) ∧
      (∀ d k f args w, (ofProgram depth scope p s).Reaches ⟨d + 1, k, .call f args, w⟩ →
        f.params.length = args.length →
        ∀ e i u, (ofCall d f args w).Own ⟨d, i, .stmt (.ret e), u⟩ →
          f.call (d + 1) args w = e.eval (Closure.call d) i u ∧
          (∀ v t, e.eval (Closure.call d) i u = .ok v t → ¬ v.Signal) ∧
          (ofCall d f args w).LastIn ⟨d, i, .stmt (.ret e), u⟩) ∧
      (∀ e i u, (ofProgram depth scope p s).Own ⟨depth, i, .stmt (.ret e), u⟩ →
        p.eval depth scope s = (Node.expr e).eval depth i u ∧
        (∀ v t, e.eval (Closure.call depth) i u = .ok v t → ¬ v.Signal) ∧
        (ofProgram depth scope p s).LastIn ⟨depth, i, .stmt (.ret e), u⟩) ∧
      (∀ d k f args w, (ofProgram depth scope p s).Reaches ⟨d, k, .call f args, w⟩ →
        ∀ v t, f.call d args w = .ok v t → ¬ v.Signal) ∧
      ∀ d k ss w, (ofProgram depth scope p s).Body ⟨d, k, .block none ss, w⟩ →
        ∀ v t, Block.eval (Closure.call d) k none ss w = .ok (some (.returning v)) t →
          ∃ e i u, Own ⟨d, k, .block none ss, w⟩ ⟨d, i, .stmt (.ret e), u⟩ ∧
            e.eval (Closure.call d) i u = .ok v t := by
  have hstart : (ofProgram depth scope p s).Tidy := ⟨⟨hp, by simp⟩, hs⟩
  refine ⟨Program.eval_tidy hp hs, ?_, ?_, ?_, ?_, ?_⟩
  · intro m hm
    have htidy := hm.tidy hstart
    exact ⟨htidy.2, fun t ht => htidy.final ht⟩
  · intro d k f args w hm hf e i u hret
    have hbody := (Part.enter hf).tidy (hm.tidy hstart)
    exact ⟨Closure.call_of_own_ret hf hbody hret, fun v t => hret.not_signal hbody,
      hbody.lastIn d i e u⟩
  · intro e i u hret
    exact ⟨Program.eval_of_own_ret hstart hret, fun v t => hret.not_signal hstart,
      hstart.lastIn depth i e u⟩
  · intro d k f args w hm
    exact (hstart.noCapture.contained hs.noSignal).calls d k f args w hm
  · intro d k ss w hb v t hr
    exact hstart.own_of_returning hb.reaches hr

/-- a `return` in a conditional, with a call whose body returns from a conditional, too -/
theorem Program.returns_end_their_own_body_nested :
    let f : Expr := .func ["x"] [.expr (.cond (.name "x") [.ret (.int 1)] none), .expr (.int 2)]
    let e : Expr := .call f [.bool true]
    let p : Program := [.expr (.cond (.bool true) [.ret e, .expr (.int 9)] none), .expr (.int 7)]
    let s := Session.start.store
    Block.Tidy p ∧ s.Tidy ∧ (ofProgram 1 0 p s).Own ⟨1, 0, .stmt (.ret e), s⟩ ∧
      p.eval 1 0 s = (Node.expr e).eval 1 0 s ∧
      (ofProgram 1 0 p s).LastIn ⟨1, 0, .stmt (.ret e), s⟩ ∧
      (p.eval 1 0 s).settle.map Prod.fst = some (some (.int 1)) := by
  intro f e p s
  have hf : Block.Tidy [.expr (.cond (.name "x") [.ret (.int 1)] none), .expr (.int 2)] :=
    ⟨⟨⟨trivial, trivial⟩, ⟨trivial, trivial⟩, trivial⟩, trivial, trivial⟩
  have he : e.Quiet ∧ e.Tidy :=
    ⟨⟨trivial, trivial, trivial⟩, ⟨trivial, hf⟩, ⟨trivial, trivial⟩, trivial, trivial⟩
  have hp : Block.Tidy p := ⟨⟨⟨trivial, trivial⟩, he, trivial, trivial⟩, trivial, trivial⟩
  have hs : s.Tidy := Session.all_start _
  have hleads : (ofProgram 1 0 p s).Leads ⟨1, 0, .stmt (.ret e), s⟩ :=
    .head (.first none) (.head .value (.head (.body none rfl rfl) (.single (.first none))))
  obtain ⟨-, -, -, htop, -⟩ :=
    @Program.returns_end_their_own_body 1 0 p s hp hs
  obtain ⟨heval, -, hlast⟩ := htop e 0 s hleads.own
  exact ⟨hp, hs, hleads.own, heval, hlast, by decide +kernel⟩

end MonkeyLang
