import MonkeyLang.Proofs.Evaluation.Invariant
import MonkeyLang.Proofs.Evaluation.Returns
import MonkeyLang.Proofs.Session.Sequence

/-!
# Errors are never data

An error stops the evaluation, and the session hands it out as a value.  So there are two things
that are called errors, and an outer tag is all that tells a run that failed from one that gave a
value.

* `Value.ErrorFree`      no error, with and without return marks around it;
* `Session.Reachable`    what texts and files that run one after the other make of a session;
* `Session.FailsWith`    the program of a text stops with an error.

No scope ever binds an error, so a run gives one only if its program has failed.
-/

namespace MonkeyLang

/-- no error, also not under return marks -/
def Value.ErrorFree : Value → Prop
  | error _ => False
  | returning v => v.ErrorFree
  | _ => True

theorem Value.Plain.errorFree {v : Value} (h : v.Plain) : v.ErrorFree := by
  cases v with
  | int n => exact trivial
  | bool b => exact trivial
  | null => exact h.elim
  | returning w => exact h.elim
  | error e => exact h.elim
  | func f => exact h.elim

theorem invariant_errorFree : Invariant (Store.All Value.ErrorFree) fun _ => Value.ErrorFree :=
  Invariant.ofValues (fun _ => Value.Plain.errorFree) trivial (fun _ => trivial) fun _ => Iff.rfl

/-- a program that ends with a value does not end with an error -/
theorem Program.eval_ne_ok_error {depth : Nat} {scope : ScopeId} {p : Program} {s : Store}
    (hscope : scope < s.scopes.size) (hs : s.All Value.ErrorFree) (e : RuntimeError) (t : Store) :
    p.eval depth scope s ≠ .ok (some (.error e)) t := by
  intro h
  obtain ⟨-, -, hr⟩ := (Program.eval_within invariant_errorFree depth p hscope hs).of_ok h
  exact hr (.error e) rfl

namespace Session

/-! ## sessions that can be reached -/

/-- texts and files have run one after the other, from a session in which nothing is bound.  How
deep calls may nest is chosen each time -/
inductive Reachable : Session → Prop
  | start : Reachable start
  | run {s s' : Session} {depth : Nat} {source : String}
    {result : Except RunError (Option Value)} (h : Reachable s)
    (hrun : s.run depth source = some (result, s')) : Reachable s'
  | runFile {s s' : Session} {depth : Nat} {path : String}
    {contents : Except ReadFailure ByteArray} {result : Except RunError (Option Value)}
    (h : Reachable s) (hrun : s.runFile depth path contents = some (result, s')) : Reachable s'

/-- a file is not read and nothing changes, or its text runs -/
theorem runFile_cases {s s' : Session} {depth : Nat} {path : String}
    {contents : Except ReadFailure ByteArray} {result : Except RunError (Option Value)}
    (h : s.runFile depth path contents = some (result, s')) :
    s' = s ∨ ∃ source result', s.run depth source = some (result', s') := by
  unfold runFile at h
  split at h
  case h_1 failure _ =>
    cases h
    exact .inl rfl
  case h_2 source _ =>
    split at h
    case h_1 e s'' hrun =>
      cases h
      exact .inr ⟨source, _, hrun⟩
    case h_2 => exact .inr ⟨source, result, h⟩

/-- one run: no scope binds an error after it if none did before -/
theorem errorFree_of_run {s s' : Session} {depth : Nat} {source : String}
    {result : Except RunError (Option Value)} (h : s.run depth source = some (result, s'))
    (hscope : s.scope < s.store.scopes.size) (hs : s.store.All Value.ErrorFree) :
    s'.store.All Value.ErrorFree := by
  obtain ⟨-, -, rfl⟩ | ⟨p, r, -, hsettle, -, -⟩ := run_cases h
  · exact hs
  · have hend := Program.eval_within invariant_errorFree depth p hscope hs
    exact hend.of_store? (Outcome.store?_of_settle hsettle)

theorem Reachable.errorFree {s : Session} (h : s.Reachable) :
    s.scope < s.store.scopes.size ∧ s.store.All Value.ErrorFree := by
  induction h with
  | start => exact ⟨by decide, all_start _⟩
  | run _ hrun ih => exact ⟨scope_lt_of_run hrun ih.1, errorFree_of_run hrun ih.1 ih.2⟩
  | runFile _ hrun ih =>
    obtain rfl | ⟨source, result, hrun⟩ := runFile_cases hrun
    · exact ih
    · exact ⟨scope_lt_of_run hrun ih.1, errorFree_of_run hrun ih.1 ih.2⟩

/-! ## runs that fail -/

/-- the text has a program, which stops with the error `e` and leaves the session `s'` -/
def FailsWith (depth : Nat) (source : String) (e : RuntimeError) (s s' : Session) : Prop :=
  ∃ p t, Program.ofSource source = .ok ⟨p, []⟩ ∧
    p.eval depth s.scope s.store = .error e t ∧ s' = { s with store := t }

theorem run_ne_runtime (s : Session) (depth : Nat) (source : String) (e : RuntimeError)
    (s' : Session) : s.run depth source ≠ some (.error (.runtime e), s') := by
  intro h
  unfold run at h
  split at h
  case h_1 => cases h
  case h_2 p _ =>
    obtain ⟨⟨r, t⟩, -, ht⟩ := Option.bind_eq_some_iff.mp h
    cases ht
  case h_3 => cases h

section
variable {s s' : Session} {depth : Nat} {source : String} {bytes : ByteArray}
  (hb : String.fromUTF8? bytes = some source) (path : String)
include hb

theorem decode_of_text : decode (.ok bytes) = .ok source := by
  simp [decode, hb, bind, Except.bind]

theorem runFile_of_error {e : RuntimeError}
    (h : s.run depth source = some (.ok (some (.error e)), s')) :
    s.runFile depth path (.ok bytes) = some (.error (.runtime e), s') := by
  unfold runFile
  rw [decode_of_text hb]
  dsimp only
  rw [h]

theorem runFile_of_ne (h : ∀ e s', s.run depth source ≠ some (.ok (some (.error e)), s')) :
    s.runFile depth path (.ok bytes) = s.run depth source := by
  unfold runFile
  rw [decode_of_text hb]
  dsimp only
  split
  case h_1 e s' hrun => exact absurd hrun (h e s')
  case h_2 => rfl

end

section
variable {s : Session} (hscope : s.scope < s.store.scopes.size)
  (hs : s.store.All Value.ErrorFree) (depth : Nat) (source : String)
include hscope hs

theorem run_eq_error_iff (e : RuntimeError) (s' : Session) :
    s.run depth source = some (.ok (some (.error e)), s') ↔ s.FailsWith depth source e s' := by
  constructor
  · intro h
    obtain ⟨-, ⟨e', he'⟩, -⟩ | ⟨p, r, hp, hsettle, hr, hs'⟩ := run_cases h
    · cases he'
    · cases hr
      cases ho : p.eval depth s.scope s.store with
      | ok a t =>
        rw [ho] at hsettle
        cases hsettle
        exact absurd ho (Program.eval_ne_ok_error hscope hs e _)
      | error e' t =>
        rw [ho] at hsettle
        cases hsettle
        refine ⟨p, _, hp, ho, ?_⟩
        rw [← hs']
      | tooDeep =>
        rw [ho] at hsettle
        cases hsettle
  · rintro ⟨p, t, hp, ho, rfl⟩
    rw [run_of_program hp, ho]
    rfl

/-- a file that is text fails as a refusal where the text alone fails as a value -/
theorem runFile_eq_error_iff (path : String) {bytes : ByteArray}
    (hb : String.fromUTF8? bytes = some source) (e : RuntimeError) (s' : Session) :
    s.runFile depth path (.ok bytes) = some (.error (.runtime e), s') ↔
      s.FailsWith depth source e s' := by
  rw [← run_eq_error_iff hscope hs]
  refine ⟨fun h => ?_, runFile_of_error hb path⟩
  by_cases hfails : ∃ e' s'', s.run depth source = some (.ok (some (.error e')), s'')
  · obtain ⟨e', s'', hrun⟩ := hfails
    rw [runFile_of_error hb path hrun] at h
    cases h
    exact hrun
  · rw [runFile_of_ne hb path fun e' s'' hrun => hfails ⟨e', s'', hrun⟩] at h
    exact absurd h (run_ne_runtime s depth source e s')

theorem runFile_eq_run (path : String) {bytes : ByteArray}
    (hb : String.fromUTF8? bytes = some source)
    (h : ∀ e s', ¬ s.FailsWith depth source e s') :
    s.runFile depth path (.ok bytes) = s.run depth source :=
  runFile_of_ne hb path fun e s' hrun =>
    h e s' ((run_eq_error_iff hscope hs depth source e s').mp hrun)

end

/-- **Errors are never data.**  In every session that texts and files can lead to, no scope binds an
error, before, after and at any moment of a run, and not under return marks either.  A text gives an
error exactly when its program stops with this error.  A file that can be read as text fails in just
these cases, and in all others it does what the text does. -/
theorem errors_are_never_data {s : Session} (h : s.Reachable) :
    s.store.All Value.ErrorFree ∧
      ∀ (depth : Nat) (source : String),
        (∀ p, Program.ofSource source = .ok ⟨p, []⟩ →
          ∀ m, (Moment.ofProgram depth s.scope p s.store).Reaches m →
            m.store.All Value.ErrorFree ∧
              ∀ t, m.final? = some t → t.All Value.ErrorFree) ∧
        (∀ e s', s.run depth source = some (.ok (some (.error e)), s') ↔
          s.FailsWith depth source e s') ∧
        ∀ path bytes, String.fromUTF8? bytes = some source →
          (∀ e s', s.runFile depth path (.ok bytes) = some (.error (.runtime e), s') ↔
            s.FailsWith depth source e s') ∧
          ((∀ e s', ¬ s.FailsWith depth source e s') →
            s.runFile depth path (.ok bytes) = s.run depth source) := by
  obtain ⟨hscope, hs⟩ := h.errorFree
  refine ⟨hs, fun depth source => ⟨fun p _ m hm => ?_, ?_, fun path bytes hb => ⟨?_, ?_⟩⟩⟩
  · have hstart : (Moment.ofProgram depth s.scope p s.store).Within (Store.All Value.ErrorFree)
        fun _ => Value.ErrorFree := ⟨hscope, hs, by simp [Moment.ofProgram, Task.Within]⟩
    have hwithin := hm.within invariant_errorFree hstart
    exact ⟨hwithin.store, fun t ht => hwithin.final invariant_errorFree ht⟩
  · exact run_eq_error_iff hscope hs depth source
  · exact runFile_eq_error_iff hscope hs depth source path hb
  · exact runFile_eq_run hscope hs depth source path hb

/-- a text that binds a name and then fails; then a file that fails, and one that does not -/
theorem errors_are_never_data_after_failure :
    let s : Session := ⟨start.store.set start.scope "x" (.int 1), start.scope⟩
    start.run 0 "let x = 1 ; y ;" = some (.ok (some (.error (.unboundName "y"))), s) ∧
      s.Reachable ∧ s.store.All Value.ErrorFree ∧
      s.runFile 0 "f" (.ok "y ;".toUTF8) = some (.error (.runtime (.unboundName "y")), s) ∧
      s.runFile 0 "f" (.ok "true ;".toUTF8) = s.run 0 "true ;" := by
  intro s
  have hx : IsName "x" := ⟨by decide, by simp [isLetter], by decide⟩
  have hy : IsName "y" := ⟨by decide, by simp [isLetter], by decide⟩
  have hone : (0 : Int) ≤ (1 : Integer).toInt := by decide
  have hutf8 : ∀ text : String, String.fromUTF8? text.toUTF8 = some text :=
    fun text => dif_pos text.isValidUTF8
  let p : Program := [.bind "x" (.int 1), .expr (.name "y")]
  have hp : Program.ofSource "let x = 1 ; y ;" = .ok ⟨p, []⟩ :=
    (show spaced (Block.write p) = "let x = 1 ; y ;" by decide) ▸
      Program.ofSource_of_written (Block.written_write p ⟨⟨hx, hone⟩, hy, trivial⟩)
  have hq : Program.ofSource "y ;" = .ok ⟨[.expr (.name "y")], []⟩ :=
    (show spaced (Block.write [.expr (.name "y")]) = "y ;" by decide) ▸
      Program.ofSource_of_written (Block.written_write _ ⟨hy, trivial⟩)
  have hr : Program.ofSource "true ;" = .ok ⟨[.expr (.bool true)], []⟩ :=
    (show spaced (Block.write [.expr (.bool true)]) = "true ;" by decide) ▸
      Program.ofSource_of_written (Block.written_write _ ⟨trivial, trivial⟩)
  have hfail : Block.eval (Closure.call 0) s.scope none [.expr (.name "y")] s.store =
      .error (.unboundName "y") s.store := by
    have hget : Evaluation.get s.scope "y" s.store = .error (.unboundName "y") s.store := by
      rw [Evaluation.get, Store.get?]
      rfl
    have hst : (Stmt.expr (.name "y")).eval (Closure.call 0) s.scope s.store =
        .error (.unboundName "y") s.store := Evaluation.bind_of_error _ hget
    exact Block.eval_cons_of_breaks hst trivial none []
  have hbind : Block.eval (Closure.call 0) start.scope none p start.store =
      Block.eval (Closure.call 0) s.scope none [.expr (.name "y")] s.store :=
    Block.eval_cons_of_ok rfl (by simp) none _
  have hrun : start.run 0 "let x = 1 ; y ;" = some (.ok (some (.error (.unboundName "y"))), s) := by
    rw [run_of_program hp, Program.eval, Evaluation.bind_of_error _ (hbind.trans hfail)]
    rfl
  have hreach : s.Reachable := .run .start hrun
  obtain ⟨hstore, hall⟩ := errors_are_never_data hreach
  obtain ⟨-, -, hfile⟩ := hall 0 "y ;"
  obtain ⟨-, -, hnext⟩ := hall 0 "true ;"
  refine ⟨hrun, hreach, hstore, ?_, (hnext "f" _ (hutf8 _)).2 ?_⟩
  · exact ((hfile "f" _ (hutf8 _)).1 _ s).mpr
      ⟨_, s.store, hq, Evaluation.bind_of_error _ hfail, rfl⟩
  · rintro e s' ⟨q, t, hq', ho, -⟩
    cases hr.symm.trans hq'
    cases ho

end Session

end MonkeyLang
