import MonkeyLang.Proofs.Evaluation.Moment
import MonkeyLang.Proofs.Program.Readback
import MonkeyLang.Proofs.Program.Seam
import MonkeyLang.Session

/-!
# Texts that run one after the other

* `Block.Passes`, `Block.Stops`   statements that are all evaluated to their end, and statements of
                          which one fails or returns;
* `Block.Passes.eval_append`, `Block.Stops.eval_append`   what two lists of statements give
                          together;
* `Block.Stops.reaches_append`  after a statement that fails or returns no other one is evaluated;
* `Session.runs_joined_texts`  two texts, run as one or one after the other.
-/

namespace MonkeyLang

/-! ## statements that pass and statements that stop -/

section
variable (call : Closure → List Value → Evaluation Value) (k : ScopeId)

/-- the statement ends, and what it gives is not being returned -/
def Stmt.Passes (st : Stmt) (s : Store) (r : Option Value) (t : Store) : Prop :=
  st.eval call k s = .ok r t ∧ ∀ w, r ≠ some (.returning w)

/-- the statement fails, or what it gives is being returned -/
def Stmt.Stops (st : Stmt) (s : Store) : Prop :=
  (∃ e t, st.eval call k s = .error e t) ∨ ∃ w t, st.eval call k s = .ok (some (.returning w)) t

/-- every statement passes, and together they take the store `s` to `t` -/
inductive Block.Passes : List Stmt → Store → Store → Prop
  | nil (s : Store) : Passes [] s s
  | cons {st : Stmt} {ss : List Stmt} {s t u : Store} {r : Option Value}
    (first : st.Passes call k s r t) (rest : Passes ss t u) : Passes (st :: ss) s u

/-- some statement fails or returns, and those before it pass -/
inductive Block.Stops : List Stmt → Store → Prop
  | here {st : Stmt} {s : Store} (first : st.Stops call k s) (ss : List Stmt) :
    Stops (st :: ss) s
  | later {st : Stmt} {ss : List Stmt} {s t : Store} {r : Option Value}
    (first : st.Passes call k s r t) (rest : Stops ss t) : Stops (st :: ss) s

end

section
variable {call : Closure → List Value → Evaluation Value} {k : ScopeId} {s t : Store}
  {ss : List Stmt} {st : Stmt} {r : Option Value}

theorem Stmt.Passes.eval_cons (h : st.Passes call k s r t) (last : Option Value)
    (ss : List Stmt) : Block.eval call k last (st :: ss) s = Block.eval call k r ss t :=
  Block.eval_cons_of_ok h.1 h.2 last ss

theorem Stmt.Passes.unique {r' : Option Value} {t' : Store} (h : st.Passes call k s r t)
    (h' : st.Passes call k s r' t') : r = r' ∧ t = t' := by
  have heq := h.1.symm.trans h'.1
  cases heq
  exact ⟨rfl, rfl⟩

theorem Stmt.Stops.breaks (h : st.Stops call k s) : (st.eval call k s).Breaks := by
  obtain ⟨e, t, he⟩ | ⟨w, t, hw⟩ := h
  · rw [he]
    exact trivial
  · rw [hw]
    exact ⟨w, rfl⟩

/-- a statement that passes does not stop -/
theorem Stmt.Passes.not_stops (h : st.Passes call k s r t) : ¬ st.Stops call k s := by
  obtain ⟨heval, hr⟩ := h
  rintro (⟨e, u, he⟩ | ⟨w, u, hw⟩)
  · rw [heval] at he
    cases he
  · rw [heval] at hw
    cases hw
    exact hr w rfl

/-- what comes before the first statement does not matter when there is one -/
theorem Block.eval_cons_last (last last' : Option Value) (st : Stmt) (ss : List Stmt) :
    Block.eval call k last (st :: ss) = Block.eval call k last' (st :: ss) := by
  rw [Block.eval, Block.eval]

theorem Stmt.Stops.eval_cons (h : st.Stops call k s) (last : Option Value) (ss : List Stmt) :
    Block.eval call k last (st :: ss) s = st.eval call k s :=
  Block.eval_cons_of_breaks rfl h.breaks last ss

/-- statements that pass are evaluated, and then those after them -/
theorem Block.Passes.eval_append (h : Block.Passes call k ss s t) (last : Option Value)
    (hlast : ∀ w, last ≠ some (.returning w)) :
    ∃ r, (∀ w, r ≠ some (.returning w)) ∧
      ∀ more, Block.eval call k last (ss ++ more) s = Block.eval call k r more t := by
  induction h generalizing last with
  | nil s => exact ⟨last, hlast, fun more => rfl⟩
  | cons first rest ih =>
    obtain ⟨r, hr, heval⟩ := ih _ first.2
    refine ⟨r, hr, fun more => ?_⟩
    rw [List.cons_append, first.eval_cons, heval]

/-- after a statement that stops, those after it are not evaluated -/
theorem Block.Stops.eval_append (h : Block.Stops call k ss s) (last : Option Value)
    (more : List Stmt) :
    Block.eval call k last (ss ++ more) s = Block.eval call k last ss s := by
  induction h generalizing last with
  | here first ss => rw [List.cons_append, first.eval_cons, first.eval_cons]
  | later first rest ih => rw [List.cons_append, first.eval_cons, first.eval_cons, ih]

/-- statements of which one stops end, with an error or with what is being returned -/
theorem Block.Stops.ends (h : Block.Stops call k ss s) (last : Option Value) :
    (∃ e t, Block.eval call k last ss s = .error e t) ∨
      ∃ w t, Block.eval call k last ss s = .ok (some (.returning w)) t := by
  induction h generalizing last with
  | here first ss =>
    rw [first.eval_cons]
    exact first
  | later first rest ih =>
    rw [first.eval_cons]
    exact ih _

end

/-! ## what is evaluated -/

namespace Moment
variable {d : Nat} {k : ScopeId} {s : Store} {ss : List Stmt}

/-- what is evaluated of a list of statements: the first one, and those after it if it passes -/
theorem reaches_block_cons {st : Stmt} {last : Option Value} {m : Moment}
    (hm : ∀ last ss, m.task ≠ .block last ss) :
    Reaches ⟨d, k, .block last (st :: ss), s⟩ m ↔
      Reaches ⟨d, k, .stmt st, s⟩ m ∨
        ∃ r t, st.Passes (Closure.call d) k s r t ∧ Reaches ⟨d, k, .block r ss, t⟩ m := by
  constructor
  · intro h
    obtain rfl | ⟨n, hpart, hn⟩ := Relation.ReflTransGen.cases_head h
    · exact absurd rfl (hm last (st :: ss))
    · cases hpart with
      | first => exact .inl hn
      | rest _ hst hr => exact .inr ⟨_, _, ⟨hst, hr⟩, hn⟩
  · rintro (h | ⟨r, t, hst, h⟩)
    · exact .head (.first last) h
    · exact .head (.rest last hst.1 hst.2) h

end Moment

/-- of statements that come after one that stops, none is evaluated -/
theorem Block.Stops.reaches_append {d : Nat} {k : ScopeId} {s : Store} {ss : List Stmt}
    (h : Block.Stops (Closure.call d) k ss s) (last : Option Value) (more : List Stmt)
    {m : Moment} (hm : ∀ last ss, m.task ≠ .block last ss) :
    Moment.Reaches ⟨d, k, .block last (ss ++ more), s⟩ m ↔
      Moment.Reaches ⟨d, k, .block last ss, s⟩ m := by
  induction h generalizing last with
  | @here st s first ss =>
    rw [List.cons_append, Moment.reaches_block_cons hm, Moment.reaches_block_cons hm]
    have hnone : ∀ rest : List Stmt, ¬ ∃ r t, st.Passes (Closure.call d) k s r t ∧
        Moment.Reaches ⟨d, k, .block r rest, t⟩ m :=
      fun rest ⟨r, t, hst, _⟩ => hst.not_stops first
    rw [or_iff_left (hnone _), or_iff_left (hnone _)]
  | later first rest ih =>
    rw [List.cons_append, Moment.reaches_block_cons hm, Moment.reaches_block_cons hm]
    refine or_congr_right (exists_congr fun r => exists_congr fun t => ?_)
    refine and_congr_right fun hst => ?_
    obtain ⟨rfl, rfl⟩ := first.unique hst
    exact ih _

/-! ## programs and sessions -/

section
variable {depth : Nat} {k : ScopeId} {p q : Program} {s t : Store}

/-- a program that passes gives way to the one after it -/
theorem Program.eval_append_of_passes (h : Block.Passes (Closure.call depth) k p s t) :
    ∃ r, p.eval depth k s = .ok r t ∧ Program.eval depth k (p ++ []) s = .ok r t ∧
      ∀ q, q ≠ [] → Program.eval depth k (p ++ q) s = Program.eval depth k q t := by
  obtain ⟨r, -, heval⟩ := h.eval_append none (by simp)
  have hp : p.eval depth k s = .ok (r.map Value.unwrap) t := by
    have hblock := heval []
    rw [List.append_nil] at hblock
    exact Evaluation.bind_of_ok _ hblock
  refine ⟨r.map Value.unwrap, hp, ?_, fun q hq => Evaluation.bind_congr ?_ _⟩
  · rw [List.append_nil, hp]
  · obtain ⟨st, ss, rfl⟩ := List.exists_cons_of_ne_nil hq
    rw [heval, Block.eval_cons_last]

/-- a program that stops ends as it does alone -/
theorem Program.eval_append_of_stops (h : Block.Stops (Closure.call depth) k p s) :
    (∃ r t, (p.eval depth k s).settle = some (r, t)) ∧
      ∀ q, Program.eval depth k (p ++ q) s = p.eval depth k s := by
  refine ⟨?_, fun q => Evaluation.bind_congr (h.eval_append none q) _⟩
  obtain ⟨e, t, he⟩ | ⟨w, t, hw⟩ := h.ends none
  · have hp : p.eval depth k s = .error e t := Evaluation.bind_of_error _ he
    exact ⟨some (.error e), t, by rw [hp]; rfl⟩
  · have hp : p.eval depth k s = .ok (some w) t := Evaluation.bind_of_ok _ hw
    exact ⟨some w, t, by rw [hp]; rfl⟩

end

namespace Session
variable {depth : Nat} {source : String} {s : Session} {p : Program}

theorem run_of_errors {errors : List SyntaxError}
    (h : Program.ofSource source = .ok ⟨p, errors⟩) (hne : errors ≠ []) :
    s.run depth source = some (.error (.parse errors), s) := by
  obtain ⟨e, es, rfl⟩ := List.exists_cons_of_ne_nil hne
  rw [run, h]

theorem run_of_program (h : Program.ofSource source = .ok ⟨p, []⟩) :
    s.run depth source = (p.eval depth s.scope s.store).settle.map
      fun (result, store) => (.ok result, { s with store }) := by
  rw [run, h]
  dsimp only
  cases (p.eval depth s.scope s.store).settle <;> rfl

section Joined
variable {a b joined : String} {q : Program} {t : Store}
  (ha : Program.ofSource a = .ok ⟨p, []⟩) (hjoined : Program.ofSource joined = .ok ⟨p ++ q, []⟩)
include ha hjoined

theorem run_joined_of_passes (hb : Program.ofSource b = .ok ⟨q, []⟩)
    (h : Block.Passes (Closure.call depth) s.scope p s.store t) :
    ∃ r, s.run depth a = some (.ok r, { s with store := t }) ∧
      s.run depth joined = (run depth b { s with store := t }).map
        fun (result, s') => (if q = [] then .ok r else result, s') := by
  obtain ⟨r, hp, hnil, hmore⟩ := Program.eval_append_of_passes h
  rw [run_of_program ha, run_of_program hjoined, run_of_program hb]
  refine ⟨r, by rw [hp]; rfl, ?_⟩
  by_cases hq : q = []
  · subst hq
    rw [hnil]
    rfl
  · rw [hmore q hq]
    simp [hq, Function.comp_def]

theorem run_joined_of_stops (h : Block.Stops (Closure.call depth) s.scope p s.store) :
    (∃ r t, s.run depth a = some (.ok r, { s with store := t })) ∧
      s.run depth joined = s.run depth a := by
  obtain ⟨⟨r, t, hp⟩, hmore⟩ := Program.eval_append_of_stops h
  rw [run_of_program ha, run_of_program hjoined, hmore q]
  exact ⟨⟨r, t, by rw [hp]; rfl⟩, rfl⟩

end Joined

/-- **Two texts run as one, or one after the other.**  The first one ends with a semicolon outside
all blocks.  If one of them has broken statements, they are refused together, with the errors of
both, and nothing changes.  Otherwise, if every statement of the first passes, they run as one after
the other, and what the last statement of both gives is the result.  If one of its statements fails
or returns, the run ends as the run of the first alone, and nothing more is evaluated. -/
theorem runs_joined_texts (depth : Nat) (a b : String) (s : Session)
    (ha : ∀ c ∈ a.toList, c.toNat < 128) (hb : ∀ c ∈ b.toList, c.toNat < 128)
    (h : Complete 0 (tokens a.toList)) :
    ∃ p q, Program.ofSource a = .ok p ∧ Program.ofSource b = .ok q ∧
      (p.errors ≠ [] ∨ q.errors ≠ [] →
        s.run depth (a ++ b) = some (.error (.parse (p.errors ++ q.errors)), s)) ∧
      (p.errors = [] → q.errors = [] →
        (∀ t, Block.Passes (Closure.call depth) s.scope p.program s.store t →
          ∃ r, s.run depth a = some (.ok r, { s with store := t }) ∧
            s.run depth (a ++ b) = (run depth b { s with store := t }).map
              fun (result, s') => (if q.program = [] then .ok r else result, s')) ∧
        (Block.Stops (Closure.call depth) s.scope p.program s.store →
          (∃ r t, s.run depth a = some (.ok r, { s with store := t })) ∧
            s.run depth (a ++ b) = s.run depth a ∧
            ∀ d k st u,
              (Moment.ofProgram depth s.scope (p.program ++ q.program) s.store).Reaches
                  ⟨d, k, .stmt st, u⟩ ↔
                (Moment.ofProgram depth s.scope p.program s.store).Reaches
                  ⟨d, k, .stmt st, u⟩)) := by
  have hab : ∀ c ∈ (a ++ b).toList, c.toNat < 128 := by
    rw [String.toList_append]
    exact List.forall_mem_append.mpr ⟨ha, hb⟩
  have hboth := Program.ofSource_of_ascii hab
  rw [Program.parse_tokens_append h] at hboth
  refine ⟨_, _, Program.ofSource_of_ascii ha, Program.ofSource_of_ascii hb, ?_⟩
  have hpa := Program.ofSource_of_ascii ha
  have hqb := Program.ofSource_of_ascii hb
  generalize Program.parse (tokens a.toList) = p at hpa hboth ⊢
  generalize Program.parse (tokens b.toList) = q at hqb hboth ⊢
  obtain ⟨p, pe⟩ := p
  obtain ⟨q, qe⟩ := q
  refine ⟨fun hne => run_of_errors hboth ?_, ?_⟩
  · intro hnil
    obtain ⟨hpe, hqe⟩ := List.append_eq_nil_iff.mp hnil
    exact hne.elim (fun h => h hpe) (fun h => h hqe)
  rintro (rfl : pe = []) (rfl : qe = [])
  refine ⟨fun t ht => run_joined_of_passes hpa hboth hqb ht, fun hstops => ?_⟩
  obtain ⟨hend, hsame⟩ := run_joined_of_stops hpa hboth hstops
  exact ⟨hend, hsame, fun d k st u => hstops.reaches_append none q (by simp)⟩

/-- a name bound by the first text is seen by the second one -/
theorem runs_joined_texts_binding :
    let a := "let x = 1 ;"
    let b := "x ;"
    (∀ c ∈ a.toList, c.toNat < 128) ∧ (∀ c ∈ b.toList, c.toNat < 128) ∧
      Complete 0 (tokens a.toList) ∧
        start.run 0 (a ++ b) =
          some (.ok (some (.int 1)), ⟨start.store.set start.scope "x" (.int 1), start.scope⟩) := by
  intro a b
  have ha : ∀ c ∈ a.toList, c.toNat < 128 := by simp [a]
  have hb : ∀ c ∈ b.toList, c.toNat < 128 := by simp [b]
  have hx : IsName "x" := ⟨by decide, by simp [isLetter], by decide⟩
  have hone : (0 : Int) ≤ (1 : Integer).toInt := by decide
  let p : Program := [.bind "x" (.int 1)]
  let q : Program := [.expr (.name "x")]
  have hwp := Block.written_write p ⟨⟨hx, hone⟩, trivial⟩
  have hwq := Block.written_write q ⟨hx, trivial⟩
  have htext : spaced (Block.write p) = a := by decide
  have hpa : Program.ofSource a = .ok ⟨p, []⟩ := htext ▸ Program.ofSource_of_written hwp
  have hqb : Program.ofSource b = .ok ⟨q, []⟩ :=
    (show spaced (Block.write q) = b by decide) ▸ Program.ofSource_of_written hwq
  have h : Complete 0 (tokens a.toList) := by
    rw [← htext, tokens_spaced hwp.wellSpelled]
    exact ⟨by decide, by decide⟩
  obtain ⟨p', q', hp', hq', -, hrun⟩ := runs_joined_texts 0 a b start ha hb h
  cases hpa.symm.trans hp'
  cases hqb.symm.trans hq'
  let t := start.store.set start.scope "x" (.int 1)
  have hpass : Block.Passes (Closure.call 0) start.scope p start.store t :=
    .cons ⟨rfl, by simp⟩ (.nil _)
  have hq : q.eval 0 start.scope t = .ok (some (.int 1)) t := by
    have hget : Evaluation.get start.scope "x" t = .ok (.int 1) t := by
      rw [Evaluation.get, Store.get?]
      rfl
    have hst : (Stmt.expr (.name "x")).eval (Closure.call 0) start.scope t =
        .ok (some (.int 1)) t := Evaluation.bind_of_ok _ hget
    exact Evaluation.bind_of_ok _ (Block.eval_cons_of_ok hst (by simp) none [])
  obtain ⟨r, -, hjoined⟩ := (hrun rfl rfl).1 t hpass
  rw [run_of_program hqb, hq] at hjoined
  exact ⟨ha, hb, h, hjoined⟩

end Session

end MonkeyLang
