import MonkeyLang.Proofs.Evaluation.Contract
import MonkeyLang.Proofs.Program.Readback
import MonkeyLang.Session

/-!
# Where a return signal can get out

A `return` marks its value (`Value.returning`), and the call or the program around it takes one mark
off.  A conditional is an expression whose branches are blocks, so a marked value (a signal) can
come to stand where a value is expected.

* `Moment.Contained`   no scope ever binds a signal and no call gives one;
* `Moment.NoCapture`   no `let` is given a signal, no parameter, and no `return` that ends a call
                       or the program;
* `Moment.Accounts`    a signal that an evaluation gives comes from a `return` in it.

Without capture, no signal is bound and all are accounted for (`NoCapture.contract`).
`Program.contained_iff` says that signals are contained just if none is captured, and
`Session.contained_iff` says it of the texts that run one after the other in a session.
`return if (true) { return 5; };` breaks both.
-/

namespace MonkeyLang

/-- a value that is marked as being returned -/
def Value.Signal (v : Value) : Prop := ∃ w, v = .returning w

theorem Value.unwrap_of_not_signal {v : Value} (h : ¬ v.Signal) : v.unwrap = v := by
  cases v with
  | returning w => exact absurd ⟨w, rfl⟩ h
  | int n => rfl
  | bool b => rfl
  | null => rfl
  | error e => rfl
  | func f => rfl

theorem Value.not_signal_unwrap {v : Value} (h : ∀ w, v = .returning w → ¬ w.Signal) :
    ¬ v.unwrap.Signal := by
  by_cases hv : v.Signal
  · obtain ⟨w, rfl⟩ := hv
    exact h w rfl
  · rwa [unwrap_of_not_signal hv]

/-- operators give no signals -/
theorem Value.Plain.not_signal {v : Value} (h : v.Plain) : ¬ v.Signal := by
  rintro ⟨w, rfl⟩
  exact h

/-- no scope binds a signal -/
def Store.NoSignal : Store → Prop := All fun v => ¬ v.Signal

/-! ## signals that are taken for values -/

namespace Moment

/-- return signals stay inside, in all of one evaluation -/
structure Contained (start : Moment) : Prop where
  /-- no scope binds a signal, before, while and after a part is evaluated -/
  bindings : ∀ m, start.Reaches m → m.store.NoSignal ∧ ∀ t, m.final? = some t → t.NoSignal
  /-- no call gives a signal -/
  calls : ∀ d k f args s, start.Reaches ⟨d, k, .call f args, s⟩ →
    ∀ v t, f.call d args s = .ok v t → ¬ v.Signal

/-- the blocks around which a mark is taken off: the evaluation itself and the bodies of calls -/
inductive Body (start : Moment) : Moment → Prop
  | self : Body start start
  | call {d : Nat} {k : ScopeId} {f : Closure} {args : List Value} {s : Store}
    (h : start.Reaches ⟨d + 1, k, .call f args, s⟩) (hf : f.params.length = args.length) :
    Body start (ofCall d f args s)

/-- nowhere in the evaluation is a signal taken for a value that stays -/
structure NoCapture (start : Moment) : Prop where
  /-- no `let` binds a signal -/
  bind : ∀ d k x e s, start.Reaches ⟨d, k, .stmt (.bind x e), s⟩ →
    ∀ w t, e.eval (Closure.call d) k s ≠ .ok (.returning w) t
  /-- no parameter keeps a signal -/
  arg : ∀ d k f args s, start.Reaches ⟨d + 1, k, .call f args, s⟩ →
    f.params.length = args.length →
    ∀ x v, (f.params.zip args).reverse.lookup x = some v → ¬ v.Signal
  /-- no `return` that ends a call or the whole returns a signal -/
  ret : ∀ b, start.Body b → ∀ d k e s, b.Leads ⟨d, k, .stmt (.ret e), s⟩ →
    ∀ w t, e.eval (Closure.call d) k s ≠ .ok (.returning w) t

/-- `w` is what a `return` that the evaluation leads to has returned -/
def Returned (m : Moment) (w : Value) : Prop :=
  ∃ d k e s t, m.Leads ⟨d, k, .stmt (.ret e), s⟩ ∧ e.eval (Closure.call d) k s = .ok w t

theorem Returned.of_lead {m n : Moment} {w : Value} (h : m.Lead n) (hw : n.Returned w) :
    m.Returned w := by
  obtain ⟨d, k, e, s, t, hl, he⟩ := hw
  exact ⟨d, k, e, s, t, Relation.ReflTransGen.head h hl, he⟩

/-- a signal among the values of an evaluation comes from a `return` that leads there, or it was the
value of a block before.  Arguments may be signals; what a call gives is none -/
def Accounts (m : Moment) (v : Value) : Prop :=
  match m.task with
  | .args _ => True
  | .block last _ => ∀ w, v = .returning w → last ≠ some v → m.Returned w
  | .call _ _ => ¬ v.Signal
  | _ => ∀ w, v = .returning w → m.Returned w

theorem accounts_of_not_signal {m : Moment} {v : Value} (hv : ¬ v.Signal) : m.Accounts v := by
  obtain ⟨d, k, task, s⟩ := m
  cases task with
  | expr e => exact fun w hw => absurd ⟨w, hw⟩ hv
  | args es => exact trivial
  | stmt st => exact fun w hw => absurd ⟨w, hw⟩ hv
  | block last ss => exact fun w hw => absurd ⟨w, hw⟩ hv
  | call f vs => exact hv

/-- a signal that is handed on is accounted for where it arrives -/
theorem Passes.accounts {m n : Moment} {v : Value} (h : m.Passes n) (hv : n.Accounts v) :
    m.Accounts v := by
  cases h with
  | lead h =>
    have hlead := h
    cases h with
    | value => exact fun w hw => (hv w hw).of_lead hlead
    | first last => exact fun w hw _ => (hv w hw).of_lead hlead
    | rest last hst hr =>
      -- the statements before this one have given no signal
      exact fun w hw _ => (hv w hw (hw ▸ hr w)).of_lead hlead
    | body alternative ht hb => exact fun w hw => (hv w hw (by simp)).of_lead hlead
    | alternative ht hb => exact fun w hw => (hv w hw (by simp)).of_lead hlead
  | call he hes => exact accounts_of_not_signal hv
  | firstArg => exact trivial
  | moreArgs he => exact trivial

/-! ## every signal comes from a `return` -/

section
variable {start : Moment} (hstart : start.NoCapture)
include hstart

/-- a signal that a body gives comes from a `return`, which was not given a signal itself -/
theorem NoCapture.not_signal_unwrap {b : Moment} (hb : start.Body b) {ss : List Stmt}
    (htask : b.task = .block none ss) {v : Value} (hv : b.Accounts v) : ¬ v.unwrap.Signal := by
  rw [Accounts, htask] at hv
  apply Value.not_signal_unwrap
  intro w hw
  obtain ⟨d, k, e, s, t, hl, he⟩ := hv w hw (by simp)
  rintro ⟨u, rfl⟩
  exact hstart.ret b hb d k e s hl u t he

/-- where no signal is captured, none is bound, and each one is accounted for -/
theorem NoCapture.contract :
    Contract Store.NoSignal start.Reaches fun m _ v => m.Accounts v where
  part h hm _ _ := hm.tail h
  entry hm hs hf := hs.entry (hstart.arg _ _ _ _ _ hm hf)
  plain hv := accounts_of_not_signal hv.not_signal
  null := accounts_of_not_signal (by simp [Value.Signal])
  name hs hv := accounts_of_not_signal (hs.get? hv)
  func _ hs := ⟨hs, accounts_of_not_signal (by simp [Value.Signal])⟩
  last _ v hv w hw hne := absurd hv hne
  bind hm he ht _ := by
    refine ht.set _ _ ?_
    rintro ⟨w, rfl⟩
    exact hstart.bind _ _ _ _ _ hm w _ he
  ret _ he _ := by
    rintro w ⟨rfl⟩
    exact ⟨_, _, _, _, _, .refl, he⟩
  pass h _ hv := h.accounts hv
  body hm hf hv := hstart.not_signal_unwrap (.call hm hf) rfl hv

theorem NoCapture.contained (hs : start.store.NoSignal) : start.Contained where
  bindings m hm := by
    obtain ⟨-, hstore⟩ := hstart.contract.reaches hm .refl hs
    exact ⟨hstore, fun _ ht => (hstart.contract.meets hm hstore).final ht⟩
  calls d k f args s hm v t h := by
    obtain ⟨-, hstore⟩ := hstart.contract.reaches hm .refl hs
    exact (Outcome.Within.of_ok (hstart.contract.meets hm hstore) h).2.2

end

/-! ## a signal that is returned goes through -/

/-- the evaluation gives a signal with the value `w` -/
def Yields (m : Moment) (w : Value) (t : Store) : Prop :=
  match m.task with
  | .expr e => e.eval (Closure.call m.depth) m.scope m.store = .ok (.returning w) t
  | .stmt st => st.eval (Closure.call m.depth) m.scope m.store = .ok (some (.returning w)) t
  | .block last ss =>
    Block.eval (Closure.call m.depth) m.scope last ss m.store = .ok (some (.returning w)) t
  | _ => False

theorem Ends.yields {m : Moment} {w : Value} {t : Store}
    (h : m.Ends (.ok (some (.returning w)) t)) : m.Yields w t := by
  obtain ⟨d, k, task, s⟩ := m
  cases task with
  | expr e =>
    have he : (Stmt.expr e).eval (Closure.call d) k s = .ok (some (.returning w)) t := h
    show e.eval (Closure.call d) k s = .ok (.returning w) t
    rw [Stmt.eval] at he
    cases ho : e.eval (Closure.call d) k s with
    | ok v u =>
      rw [Evaluation.bind_of_ok _ ho] at he
      cases he
      rfl
    | error e u =>
      rw [Evaluation.bind_of_error _ ho] at he
      cases he
    | tooDeep =>
      rw [Evaluation.bind_of_tooDeep _ ho] at he
      cases he
  | args es => exact h
  | stmt st => exact h
  | block last ss => exact h
  | call f args => exact h

theorem Leads.yields_ret {m : Moment} {d : Nat} {k : ScopeId} {e : Expr} {s t : Store} {w : Value}
    (h : m.Leads ⟨d, k, .stmt (.ret e), s⟩) (he : e.eval (Closure.call d) k s = .ok w t) :
    m.Yields w t := by
  have hret : (Stmt.ret e).eval (Closure.call d) k s = .ok (some (.returning w)) t := by
    rw [Stmt.eval, Evaluation.bind_of_ok _ he]
    rfl
  exact (h.ends hret ⟨w, rfl⟩).yields

section
variable {start : Moment} (h : start.Contained)
  (hscope : start.scope < start.store.scopes.size)
include h hscope

theorem Contained.bind_ne {d : Nat} {k : ScopeId} {x : String} {e : Expr} {s : Store}
    (hm : start.Reaches ⟨d, k, .stmt (.bind x e), s⟩) (w : Value) (t : Store) :
    e.eval (Closure.call d) k s ≠ .ok (.returning w) t := by
  intro he
  have hst : (Stmt.bind x e).eval (Closure.call d) k s = .ok none (t.set k x (.returning w)) := by
    rw [Stmt.eval, Evaluation.bind_of_ok _ he]
    rfl
  have hclean := (h.bindings _ hm).2 _ (final?_stmt hst)
  have hks : k < s.scopes.size := hm.scope_lt hscope
  have hk : k < t.scopes.size := Nat.lt_of_lt_of_le hks (size_le_of_final? (final?_expr he))
  exact hclean k x _ (Store.bound?_set_self hk x _) ⟨w, rfl⟩

omit hscope in
theorem Contained.arg {d : Nat} {k : ScopeId} {f : Closure} {args : List Value} {s : Store}
    (hm : start.Reaches ⟨d + 1, k, .call f args, s⟩) (hf : f.params.length = args.length)
    (x : String) (v : Value) (hx : (f.params.zip args).reverse.lookup x = some v) :
    ¬ v.Signal := by
  have hentry : (f.entry args s).NoSignal := (h.bindings _ (hm.tail (.enter hf))).1
  refine hentry s.scopes.size x v ?_
  rw [Closure.bound?_entry_self, hx]

omit hscope in
theorem Contained.body_not_yields {d : Nat} {k : ScopeId} {f : Closure} {args : List Value}
    {s : Store} (hm : start.Reaches ⟨d + 1, k, .call f args, s⟩)
    (hf : f.params.length = args.length) (w : Value) (t : Store) :
    ¬ (ofCall d f args s).Yields (.returning w) t := by
  intro hy
  have hc : f.call (d + 1) args s = .ok (.returning w) t := by
    rw [Closure.call_of_length hf]
    exact Evaluation.bind_of_ok _ hy
  exact h.calls (d + 1) k f args s hm _ t hc ⟨w, rfl⟩

theorem Contained.noCapture (hself : ∀ w t, ¬ start.Yields (.returning w) t) :
    start.NoCapture where
  bind _ _ _ _ _ hm := h.bind_ne hscope hm
  arg _ _ _ _ _ hm hf := h.arg hm hf
  ret b hb d k e s hl w t he := by
    have hy := hl.yields_ret he
    cases hb with
    | self => exact hself w t hy
    | call hm hf => exact h.body_not_yields hm hf w t hy

end

end Moment

/-! ## programs -/

open Moment

theorem Program.eval_no_signal {depth : Nat} {scope : ScopeId} {p : Program} {s : Store}
    (h : (ofProgram depth scope p s).NoCapture) (hs : s.NoSignal) :
    (p.eval depth scope s).Within Store.NoSignal (fun _ r => ∀ v ∈ r, ¬ v.Signal) s :=
  h.contract.program_within .refl hs fun _ _ hv => h.not_signal_unwrap .self rfl hv

/-- in a store without signals -/
theorem Program.contained_iff {depth : Nat} {scope : ScopeId} {p : Program} {s : Store}
    (hs : s.NoSignal) (hscope : scope < s.scopes.size) :
    ((ofProgram depth scope p s).Contained ∧
        ∀ v t, p.eval depth scope s = .ok (some v) t → ¬ v.Signal) ↔
      (ofProgram depth scope p s).NoCapture := by
  constructor
  · rintro ⟨h, hresult⟩
    refine h.noCapture hscope fun w t hy => ?_
    have hp : p.eval depth scope s = .ok (some (.returning w)) t := Evaluation.bind_of_ok _ hy
    exact hresult _ t hp ⟨w, rfl⟩
  · intro h
    refine ⟨h.contained hs, fun v t hv => ?_⟩
    exact ((Program.eval_no_signal h hs).of_ok hv).2.2 v rfl

theorem Program.size_le_of_store? {depth : Nat} {scope : ScopeId} {p : Program} {s t : Store}
    (h : (p.eval depth scope s).store? = some t) : s.scopes.size ≤ t.scopes.size := by
  have hR := allows_grows scope (Block.lets p)
  have hcall : ∀ (f : Closure) vs,
      (f.call depth vs).Keeps fun s t => s.scopes.size ≤ t.scopes.size :=
    fun f vs s t ht => (Closure.call_keeps_unchanged depth f vs s t ht).size_le
  have hblock := Block.eval_keeps hR hcall p none fun _ hx => hx
  exact Evaluation.Keeps.bind hR hblock (fun r => Evaluation.Keeps.pure hR _) s t h

/-! ## sessions -/

namespace Session

/-- a text is refused and changes nothing, or its program runs in the scope of the session -/
theorem run_cases {depth : Nat} {source : String} {s s' : Session}
    {result : Except RunError (Option Value)} (h : s.run depth source = some (result, s')) :
    ((∀ p, Program.ofSource source ≠ .ok ⟨p, []⟩) ∧ (∃ e, result = .error e) ∧ s' = s) ∨
      ∃ p r, Program.ofSource source = .ok ⟨p, []⟩ ∧
        (p.eval depth s.scope s.store).settle = some (r, s'.store) ∧
        result = .ok r ∧ s'.scope = s.scope := by
  unfold run at h
  split at h
  case h_1 e he =>
    cases h
    exact .inl ⟨by simp [he], ⟨_, rfl⟩, rfl⟩
  case h_2 p hp =>
    obtain ⟨⟨r, t⟩, hr, hs'⟩ := Option.bind_eq_some_iff.mp h
    cases hs'
    exact .inr ⟨p, r, hp, hr, rfl, rfl⟩
  case h_3 p errors hne hp =>
    cases h
    refine .inl ⟨fun q hq => ?_, ⟨_, rfl⟩, rfl⟩
    rw [hp] at hq
    cases hq
    exact hne rfl

/-- return signals stay inside, in texts that run one after the other -/
def Contained (depth : Nat) : List String → Session → Prop
  | [], s => s.store.NoSignal
  | source :: rest, s => s.store.NoSignal ∧
    ∀ result s', s.run depth source = some (result, s') →
      (∀ p, Program.ofSource source = .ok ⟨p, []⟩ →
        (ofProgram depth s.scope p s.store).Contained) ∧
      (∀ v, result = .ok (some v) → ¬ v.Signal) ∧
      Contained depth rest s'

/-- none of the texts captures a signal when it runs -/
def NoCapture (depth : Nat) : List String → Session → Prop
  | [], _ => True
  | source :: rest, s =>
    ∀ result s', s.run depth source = some (result, s') →
      (∀ p, Program.ofSource source = .ok ⟨p, []⟩ →
        (ofProgram depth s.scope p s.store).NoCapture) ∧
      NoCapture depth rest s'

theorem Contained.noSignal {depth : Nat} {sources : List String} {s : Session}
    (h : s.Contained depth sources) : s.store.NoSignal := by
  cases sources with
  | nil => exact h
  | cons source rest => exact h.1

theorem scope_lt_of_run {depth : Nat} {source : String} {s s' : Session}
    {result : Except RunError (Option Value)} (h : s.run depth source = some (result, s'))
    (hscope : s.scope < s.store.scopes.size) : s'.scope < s'.store.scopes.size := by
  rcases run_cases h with ⟨-, -, rfl⟩ | ⟨p, r, -, hsettle, -, hs'⟩
  · exact hscope
  · rw [hs']
    exact Nat.lt_of_lt_of_le hscope
      (Program.size_le_of_store? (Outcome.store?_of_settle hsettle))

theorem contained_iff {depth : Nat} (sources : List String) {s : Session}
    (hs : s.store.NoSignal) (hscope : s.scope < s.store.scopes.size) :
    s.Contained depth sources ↔ s.NoCapture depth sources := by
  induction sources generalizing s with
  | nil => exact ⟨fun _ => trivial, fun _ => hs⟩
  | cons source rest ih =>
    constructor
    · rintro ⟨-, h⟩ result s' hrun
      obtain ⟨hm, hresult, hrest⟩ := h result s' hrun
      refine ⟨fun p hp => ?_, (ih hrest.noSignal (scope_lt_of_run hrun hscope)).mp hrest⟩
      refine (Program.contained_iff hs hscope).mp ⟨hm p hp, fun v t hv => ?_⟩
      rcases run_cases hrun with ⟨hne, -, -⟩ | ⟨q, r, hq, hsettle, hr, -⟩
      · exact absurd hp (hne p)
      · rw [hp] at hq
        cases hq
        rw [hv] at hsettle
        cases hsettle
        exact hresult v hr
    · intro h
      refine ⟨hs, fun result s' hrun => ?_⟩
      obtain ⟨hm, hrest⟩ := h result s' hrun
      have hscope' := scope_lt_of_run hrun hscope
      rcases run_cases hrun with ⟨hne, ⟨e, rfl⟩, rfl⟩ | ⟨p, r, hp, hsettle, rfl, -⟩
      · exact ⟨fun p hp => absurd hp (hne p), by simp, (ih hs hscope').mpr hrest⟩
      · have hend := Program.eval_no_signal (hm p hp) hs
        have hstore := hend.of_store? (Outcome.store?_of_settle hsettle)
        refine ⟨fun q hq => (hm q hq).contained hs, ?_, (ih hstore hscope').mpr hrest⟩
        intro v hv
        cases ho : p.eval depth s.scope s.store with
        | ok a t =>
          rw [ho] at hsettle
          cases hsettle
          exact (hend.of_ok ho).2.2 v (Except.ok.inj hv)
        | error e t =>
          rw [ho] at hsettle
          cases hsettle
          cases hv
          rintro ⟨w, hw⟩
          exact absurd hw (by simp)
        | tooDeep =>
          rw [ho] at hsettle
          exact absurd hsettle (by simp [Outcome.settle])

theorem all_start (p : Value → Prop) : start.store.All p := by
  intro k x v hv
  have hnew : start.store = (Store.empty.newScope none).2 := rfl
  rw [hnew, Store.bound?_newScope, Store.bound?_eq_none (Nat.zero_le k)] at hv
  exact absurd hv (by simp)

theorem noSignal_start : start.store.NoSignal := all_start _

/-- **Return signals stay inside exactly where none is captured**, in a session that starts with no
bindings and in any store without signals.  Inside means that no scope binds a signal at any time,
and that no call, no program and no run gives one.  Captured means that a `let` binds a signal, a
parameter keeps one, or a `return` that ends a call or the program returns one. -/
theorem returns_stay_inside_iff (depth : Nat) (sources : List String) :
    (start.Contained depth sources ↔ start.NoCapture depth sources) ∧
      ∀ (scope : ScopeId) (p : Program) (s : Store), s.NoSignal → scope < s.scopes.size →
        (((ofProgram depth scope p s).Contained ∧
            ∀ v t, p.eval depth scope s = .ok (some v) t → ¬ v.Signal) ↔
          (ofProgram depth scope p s).NoCapture) :=
  ⟨contained_iff sources noSignal_start (by decide),
    fun _ _ _ hs hscope => Program.contained_iff hs hscope⟩

/-- a conditional that returns, as the value of a `return`: the run ends with a signal -/
theorem return_of_return_escapes :
    let p : Program := [.ret (.cond (.bool true) [.ret (.int 5)] none)]
    let source := "return if ( true ) \x7b return 5 ; \x7d ;"
    start.store.NoSignal ∧ start.scope < start.store.scopes.size ∧
      start.run 0 source = some (.ok (some (.returning (.int 5))), start) ∧
      ¬ start.NoCapture 0 [source] ∧ ¬ (ofProgram 0 start.scope p start.store).NoCapture := by
  intro p source
  have hparse : Program.ofSource source = .ok ⟨p, []⟩ := by
    have hfive : (0 : Int) ≤ (5 : Integer).toInt := by decide
    have hspell : Block.Spellable p := ⟨⟨trivial, hfive, trivial⟩, trivial⟩
    have htext : spaced (Block.write p) = source := by decide
    rw [← htext]
    exact Program.ofSource_of_written (Block.written_write p hspell)
  have hp : p.eval 0 start.scope start.store = .ok (some (.returning (.int 5))) start.store := rfl
  have hrun : start.run 0 source = some (.ok (some (.returning (.int 5))), start) := by
    rw [run, hparse]
    rfl
  obtain ⟨hsession, hprogram⟩ := returns_stay_inside_iff 0 [source]
  refine ⟨noSignal_start, by decide, hrun, fun h => ?_, fun h => ?_⟩
  · obtain ⟨-, hall⟩ := hsession.mpr h
    exact (hall _ _ hrun).2.1 _ rfl ⟨_, rfl⟩
  · obtain ⟨-, hresult⟩ := (hprogram start.scope p _ noSignal_start (by decide)).mpr h
    exact hresult _ _ hp ⟨_, rfl⟩

end Session

end MonkeyLang
