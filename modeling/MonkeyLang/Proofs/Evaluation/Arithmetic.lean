import MonkeyLang.Evaluation

/-!
# Arithmetic is exact or fails where it stops being exact

* `Arithmetic value e`        `e` is made of integers, names that `value` gives an integer, signs and
                              the operators `+`, `-`, `*` and `/`;
* `Expr.exactValue? value e`  its value over all integers, where a quotient is rounded towards zero
                              and there is none by zero;
* `Expr.Fits value e`         it has a value, and 64 bits hold the value;
* `Expr.postorder`            the subexpressions in the order in which they get their values;
* `Expr.Fault value e err`    `err` is what is wrong with `e` when its operands fit and `e` does not.

`Arithmetic.eval_exact` follows the tree: the evaluation gives the exact value if every
subexpression fits, and otherwise fails with the fault of the first one that does not
(`Expr.firstUnfit?`).
-/

namespace MonkeyLang

/-! ## exact values -/

def BinaryOp.exactValue? : BinaryOp → Int → Int → Option Int
  | add, m, n => some (m + n)
  | sub, m, n => some (m - n)
  | mul, m, n => some (m * n)
  | div, m, n => if n = 0 then none else some (m.tdiv n)
  | _, _, _ => none

def BinaryOp.isArithmetic : BinaryOp → Bool
  | add | sub | mul | div => true
  | _ => false

/-- the integers that names are bound to, as seen from a scope -/
def Store.integer? (s : Store) (scope : ScopeId) (x : String) : Option Int :=
  match s.get? scope x with
  | some (.int n) => some n.toInt
  | _ => none

section
variable (value : String → Option Int)

inductive Arithmetic : Expr → Prop
  | int (n : Integer) : Arithmetic (.int n)
  | name {x : String} {n : Int} (bound : value x = some n) : Arithmetic (.name x)
  | neg {e : Expr} (operand : Arithmetic e) : Arithmetic (.unary .neg e)
  | binary {l r : Expr} {op : BinaryOp} (arithmetic : op.isArithmetic = true)
    (left : Arithmetic l) (right : Arithmetic r) : Arithmetic (.binary l op r)

namespace Expr

/-- the value over all integers; nothing where it has none, or is no arithmetic -/
def exactValue? : Expr → Option Int
  | .int n => some n.toInt
  | .name x => value x
  | .unary .neg e => (exactValue? e).map fun n => -n
  | .binary l op r => do op.exactValue? (← exactValue? l) (← exactValue? r)
  | _ => none

/-- operands from left to right, and every operation after its operands -/
def postorder : Expr → List Expr
  | .unary op e => postorder e ++ [.unary op e]
  | .binary l op r => postorder l ++ (postorder r ++ [.binary l op r])
  | e => [e]

/-- there is a value, and 64 bits hold it -/
def Fits (e : Expr) : Prop := ∃ n ∈ e.exactValue? value, Integer.least ≤ n ∧ n ≤ Integer.greatest

instance : DecidablePred (Fits value) := fun e =>
  inferInstanceAs (Decidable (∃ n ∈ e.exactValue? value, Integer.least ≤ n ∧ n ≤ Integer.greatest))

/-- the first subexpression that does not fit -/
def firstUnfit? (e : Expr) : Option Expr := e.postorder.find? fun d => ¬ d.Fits value

/-- the error for an operation that does not fit, when its operands do -/
inductive Fault : Expr → RuntimeError → Prop
  | zero {l r : Expr} {m : Integer} (left : l.exactValue? value = some m.toInt)
    (right : r.exactValue? value = some 0) : Fault (.binary l .div r) (.divisionByZero m)
  | binary {l r : Expr} {op : BinaryOp} {m n : Int} (left : l.exactValue? value = some m)
    (right : r.exactValue? value = some n) (nonzero : op = .div → n ≠ 0) :
    Fault (.binary l op r) (.overflow s!"{m} {op.text} {n}")
  | neg {e : Expr} {n : Int} (operand : e.exactValue? value = some n) :
    Fault (.unary .neg e) (.overflow s!"-{n}")

end Expr

end

/-! ## results that 64 bits hold -/

theorem Integer.ofInt?_eq_none {n : Int} (h : Integer.ofInt? n = none) :
    ¬ (Integer.least ≤ n ∧ n ≤ Integer.greatest) := by
  intro hn
  rw [Integer.ofInt?, if_pos hn] at h
  cases h

theorem Value.integerBinary_of_exactValue? {op : BinaryOp} {l r : Integer} {k : Int}
    (h : op.exactValue? l.toInt r.toInt = some k) :
    Value.integerBinary l op r = Value.exactResult l op r k := by
  cases op with
  | add | sub | mul =>
    cases h
    rfl
  | div =>
    simp only [BinaryOp.exactValue?] at h
    split at h
    case isTrue => cases h
    case isFalse hr =>
      cases h
      simp only [Value.integerBinary, if_neg hr]
  | less | greater | equal | notEqual => cases h

/-- only a quotient by zero has no value -/
theorem BinaryOp.eq_div_of_exactValue? {op : BinaryOp} (ha : op.isArithmetic = true) {m n : Int}
    (h : op.exactValue? m n = none) : op = .div ∧ n = 0 := by
  cases op with
  | add | sub | mul => cases h
  | div =>
    simp only [BinaryOp.exactValue?] at h
    split at h
    case isTrue hn => exact ⟨rfl, hn⟩
    case isFalse => cases h
  | less | greater | equal | notEqual => cases ha

namespace Expr
variable {value : String → Option Int} {s : Store} {d e l r : Expr}

theorem fits_of_exactValue? {n : Integer} (h : e.exactValue? value = some n.toInt) : e.Fits value :=
  ⟨n.toInt, h, n.least_le_toInt, n.toInt_le_greatest⟩

theorem not_fits_of_exactValue? {n : Int} (h : e.exactValue? value = some n)
    (hn : Integer.ofInt? n = none) : ¬ e.Fits value := by
  rintro ⟨m, hm, hfits⟩
  obtain rfl : n = m := Option.some.inj (h.symm.trans hm)
  exact Integer.ofInt?_eq_none hn hfits

theorem firstUnfit?_of_atom (h : e.postorder = [e]) (he : e.Fits value) :
    e.firstUnfit? value = none := by
  rw [firstUnfit?, h]
  simp [he]

theorem firstUnfit?_unary (op : UnaryOp) (e : Expr) :
    (Expr.unary op e).firstUnfit? value = (e.firstUnfit? value).or
      ([Expr.unary op e].find? fun d => ¬ d.Fits value) := by
  rw [firstUnfit?, postorder, List.find?_append]
  rfl

theorem firstUnfit?_binary (l : Expr) (op : BinaryOp) (r : Expr) :
    (Expr.binary l op r).firstUnfit? value = (l.firstUnfit? value).or
      ((r.firstUnfit? value).or ([Expr.binary l op r].find? fun d => ¬ d.Fits value)) := by
  rw [firstUnfit?, postorder, List.find?_append, List.find?_append]
  rfl

/-- how the evaluation of `e` in `s` has to end: with the exact value if everything fits, else with
the fault of the first subexpression that does not -/
def Settles (value : String → Option Int) (s : Store) (e : Expr) (o : Outcome Value) : Prop :=
  (∃ n, o = .ok (.int n) s ∧ e.firstUnfit? value = none ∧ e.exactValue? value = some n.toInt) ∨
    ∃ err d, o = .error err s ∧ e.firstUnfit? value = some d ∧ d.Fault value err

/-- an operation with a value, whose operands fit -/
theorem settles_of_exactValue? {o : Outcome Value} {k : Int} (hk : e.exactValue? value = some k)
    (hlast : e.firstUnfit? value = [e].find? fun d => ¬ d.Fits value)
    (hok : ∀ m, Integer.ofInt? k = some m → o = .ok (.int m) s)
    (herror : Integer.ofInt? k = none → ∃ err, o = .error err s ∧ e.Fault value err) :
    e.Settles value s o := by
  cases hm : Integer.ofInt? k with
  | some m =>
    have hexact : e.exactValue? value = some m.toInt := by rw [Integer.toInt_of_ofInt? hm, hk]
    refine .inl ⟨m, hok m hm, ?_, hexact⟩
    rw [hlast]
    simp [fits_of_exactValue? hexact]
  | none =>
    obtain ⟨err, ho, hfault⟩ := herror hm
    refine .inr ⟨err, e, ho, ?_, hfault⟩
    rw [hlast]
    simp [not_fits_of_exactValue? hk hm]

/-- operands that fit, and then their operation -/
theorem settles_integerBinary {op : BinaryOp} {m n : Integer} (hop : op.isArithmetic = true)
    (hl : l.exactValue? value = some m.toInt) (hr : r.exactValue? value = some n.toInt)
    (hlast : (Expr.binary l op r).firstUnfit? value =
      [Expr.binary l op r].find? fun d => ¬ d.Fits value) :
    (Expr.binary l op r).Settles value s
      (Evaluation.ofExcept (Value.integerBinary m op n) s) := by
  have hexact : (Expr.binary l op r).exactValue? value = op.exactValue? m.toInt n.toInt := by
    rw [exactValue?, hl, hr]
    rfl
  cases hk : op.exactValue? m.toInt n.toInt with
  | some k =>
    rw [Value.integerBinary_of_exactValue? hk]
    refine settles_of_exactValue? (hexact.trans hk) hlast (fun i hi => ?_) fun hi =>
      ⟨_, ?_, .binary hl hr ?_⟩
    · simp only [Value.exactResult, hi]
      rfl
    · simp only [Value.exactResult, hi]
      rfl
    · -- a quotient by zero would have no value
      rintro rfl hzero
      simp [BinaryOp.exactValue?, hzero] at hk
  | none =>
    obtain ⟨rfl, hzero⟩ := BinaryOp.eq_div_of_exactValue? hop hk
    refine .inr ⟨.divisionByZero m, _, ?_, ?_, .zero hl (hzero ▸ hr)⟩
    · simp only [Value.integerBinary, if_pos hzero]
      rfl
    · rw [hlast]
      simp [Fits, hexact, hk]

section
variable {call : Closure → List Value → Evaluation Value} {scope : ScopeId}

theorem Settles.neg (h : e.Settles value s (e.eval call scope s)) :
    (Expr.unary .neg e).Settles value s ((Expr.unary .neg e).eval call scope s) := by
  obtain ⟨n, hn, hfit, hexact⟩ | ⟨err, d, herr, hd, hfault⟩ := h
  · have hk : (Expr.unary .neg e).exactValue? value = some (-n.toInt) := by
      rw [exactValue?, hexact]
      rfl
    rw [Expr.eval, Evaluation.bind_of_ok _ hn]
    refine settles_of_exactValue? hk ?_ (fun m hm => ?_) fun hm => ⟨_, ?_, .neg hexact⟩
    · rw [firstUnfit?_unary, hfit]
      rfl
    · simp only [Value.unary, hm]
      rfl
    · simp only [Value.unary, hm]
      rfl
  · refine .inr ⟨err, d, ?_, ?_, hfault⟩
    · rw [Expr.eval, Evaluation.bind_of_error _ herr]
    · rw [firstUnfit?_unary, hd]
      rfl

theorem Settles.binary {op : BinaryOp} (hop : op.isArithmetic = true)
    (hl : l.Settles value s (l.eval call scope s))
    (hr : r.Settles value s (r.eval call scope s)) :
    (Expr.binary l op r).Settles value s ((Expr.binary l op r).eval call scope s) := by
  obtain ⟨m, hm, hfitl, hexactl⟩ | ⟨err, d, herr, hd, hfault⟩ := hl
  case inr =>
    refine .inr ⟨err, d, ?_, ?_, hfault⟩
    · rw [Expr.eval, Evaluation.bind_of_error _ herr]
    · rw [firstUnfit?_binary, hd]
      rfl
  obtain ⟨n, hn, hfitr, hexactr⟩ | ⟨err, d, herr, hd, hfault⟩ := hr
  case inr =>
    refine .inr ⟨err, d, ?_, ?_, hfault⟩
    · rw [Expr.eval, Evaluation.bind_of_ok _ hm, Evaluation.bind_of_error _ herr]
    · rw [firstUnfit?_binary, hfitl, hd]
      rfl
  rw [Expr.eval, Evaluation.bind_of_ok _ hm, Evaluation.bind_of_ok _ hn]
  apply settles_integerBinary hop hexactl hexactr
  rw [firstUnfit?_binary, hfitl, hfitr]
  rfl

end

end Expr

/-- by induction on the tree: every subexpression leaves the store as it is -/
theorem Arithmetic.eval_exact {s : Store} {scope : ScopeId} {e : Expr}
    (h : Arithmetic (s.integer? scope) e) (call : Closure → List Value → Evaluation Value) :
    e.Settles (s.integer? scope) s (e.eval call scope s) := by
  induction h with
  | int n => exact .inl ⟨n, rfl, Expr.firstUnfit?_of_atom rfl (Expr.fits_of_exactValue? rfl), rfl⟩
  | @name x k bound =>
    obtain ⟨n, hget⟩ : ∃ n, s.get? scope x = some (.int n) := by
      unfold Store.integer? at bound
      split at bound
      case h_1 n hn => exact ⟨n, hn⟩
      case h_2 => cases bound
    have hexact : (Expr.name x).exactValue? (s.integer? scope) = some n.toInt := by
      simp only [Expr.exactValue?, Store.integer?, hget]
    refine .inl ⟨n, ?_, Expr.firstUnfit?_of_atom rfl (Expr.fits_of_exactValue? hexact), hexact⟩
    simp only [Expr.eval, Evaluation.get, hget]
  | neg _ ih => exact ih.neg
  | binary hop _ _ ihl ihr => exact ihl.binary hop ihr

theorem Expr.Fault.unique {value : String → Option Int} {d : Expr} {a b : RuntimeError}
    (ha : d.Fault value a) (hb : d.Fault value b) : a = b := by
  have same : ∀ {x : Expr} {m n : Int},
      x.exactValue? value = some m → x.exactValue? value = some n → m = n :=
    fun hm hn => Option.some.inj (hm.symm.trans hn)
  cases ha with
  | zero hl hr =>
    cases hb with
    | zero hl' hr' => rw [Int64.toInt_inj.mp (same hl hl')]
    | binary hl' hr' nonzero => exact absurd (same hr' hr) (nonzero rfl)
  | binary hl hr nonzero =>
    cases hb with
    | zero hl' hr' => exact absurd (same hr hr') (nonzero rfl)
    | binary hl' hr' _ => rw [same hl hl', same hr hr']
  | neg hn =>
    cases hb with
    | neg hn' => rw [same hn hn']

namespace Node

/-- **Arithmetic is exact, or fails at the first subexpression that is not.**  Integers, names that
are bound to integers, signs and the operators `+`, `-`, `*` and `/`, nested in any way, evaluate to
an integer just if every subexpression has a value over all integers and 64 bits hold it, and then
to the exact value of the whole.  Otherwise the evaluation is an error: that of the first
subexpression, operands from left to right and before their operation, that has no such value.  It
says which number was to be divided by zero, or else shows the calculation with the values of the
operands.  The store does not change. -/
theorem arithmetic_is_exact (depth : Nat) (scope : ScopeId) (s : Store) (e : Expr)
    (h : Arithmetic (s.integer? scope) e) :
    let value := s.integer? scope
    let result := ((expr e).eval depth scope s).settle
    (∀ n t, result = some (some (.int n), t) ↔
      (∀ d ∈ e.postorder, d.Fits value) ∧ e.exactValue? value = some n.toInt ∧ t = s) ∧
    (∀ err t, result = some (some (.error err), t) ↔
      ∃ d, e.postorder.find? (fun d => ¬ d.Fits value) = some d ∧ d.Fault value err ∧ t = s) ∧
    ((∃ n, result = some (some (.int n), s)) ∨ ∃ err, result = some (some (.error err), s)) := by
  intro value result
  have hall : e.firstUnfit? value = none ↔ ∀ d ∈ e.postorder, d.Fits value := by
    simp [Expr.firstUnfit?]
  obtain ⟨n, hn, hfit, hexact⟩ | ⟨err, d, herr, hd, hfault⟩ :=
    h.eval_exact (Closure.call depth)
  · have hresult : result = some (some (.int n), s) := by
      show Outcome.settle ((e.eval (Closure.call depth) scope >>= fun v => pure (some v)) s) = _
      rw [Evaluation.bind_of_ok _ hn]
      rfl
    rw [hresult]
    refine ⟨fun m t => ⟨?_, ?_⟩, fun err t => ⟨?_, ?_⟩, .inl ⟨n, rfl⟩⟩
    · rintro ⟨⟩
      exact ⟨hall.mp hfit, hexact, rfl⟩
    · rintro ⟨-, hm, rfl⟩
      rw [Int64.toInt_inj.mp (Option.some.inj (hexact.symm.trans hm))]
    · rintro ⟨⟩
    · rintro ⟨d, hd, -⟩
      cases hfit.symm.trans hd
  · have hresult : result = some (some (.error err), s) := by
      show Outcome.settle ((e.eval (Closure.call depth) scope >>= fun v => pure (some v)) s) = _
      rw [Evaluation.bind_of_error _ herr]
      rfl
    rw [hresult]
    refine ⟨fun m t => ⟨?_, ?_⟩, fun err' t => ⟨?_, ?_⟩, .inr ⟨err, rfl⟩⟩
    · rintro ⟨⟩
    · rintro ⟨hfit, -⟩
      cases (hall.mpr hfit).symm.trans hd
    · rintro ⟨⟩
      exact ⟨d, hd, hfault, rfl⟩
    · rintro ⟨d', hd', hfault', rfl⟩
      obtain rfl := Option.some.inj (hd.symm.trans hd')
      rw [hfault.unique hfault']

/-- 64 bits hold the value of `big + 1 - 1`, and `1 / 0` has none; but `big + 1` comes before both
and is the one that fails -/
theorem arithmetic_is_exact_inside :
    let s : Store := ⟨#[⟨[("big", .int Int64.maxValue)], none⟩], 0⟩
    let sum : Expr := .binary (.name "big") .add (.int 1)
    let e : Expr := .binary (.binary sum .sub (.int 1)) .mul (.binary (.int 1) .div (.int 0))
    Arithmetic (s.integer? 0) e ∧ (Expr.binary sum .sub (.int 1)).Fits (s.integer? 0) ∧
      ((expr e).eval 0 0 s).settle =
        some (some (.error (.overflow "9223372036854775807 + 1")), s) := by
  intro s sum e
  have hbig : s.integer? 0 "big" = some 9223372036854775807 := by decide +kernel
  have hleft : (Expr.name "big").exactValue? (s.integer? 0) = some 9223372036854775807 := hbig
  have hright : (Expr.int 1).exactValue? (s.integer? 0) = some 1 := rfl
  have harith : Arithmetic (s.integer? 0) e :=
    .binary rfl (.binary rfl (.binary rfl (.name hbig) (.int 1)) (.int 1))
      (.binary rfl (.int 1) (.int 0))
  refine ⟨harith, by decide +kernel, ?_⟩
  refine ((arithmetic_is_exact 0 0 s e harith).2.1 _ _).mpr ⟨sum, by decide +kernel, ?_, rfl⟩
  exact .binary hleft hright nofun

end Node

end MonkeyLang
