import MonkeyLang.Proofs.Program.Grammar
import MonkeyLang.Proofs.Session.Sequence
import MonkeyLang.Proofs.Token.Munch
import Mathlib.Data.List.Induction
import Mathlib.Data.Nat.Digits.Defs

/-!
# Numerals

* `Integer.placeValue`   the number that decimal digits stand for, each with its power of ten;
* `Program.ofSource_number`, `Program.ofSource_tooLarge`   a text of digits is one literal, or one
                         error if 64 bits do not hold the number;
* `Program.parse_of_error_at_end`   an error that is found with the last token is the only one;
* `Integer.text_of_neg`  the text of a negative integer is a sign and the numeral of its distance
                         from zero, which is read as a negated literal.
-/

namespace MonkeyLang

/-! ## digits -/

namespace Integer

/-- the sum of the digits, each multiplied by the power of ten of its place -/
def placeValue (digits : List Char) : Nat :=
  Nat.ofDigits 10 (digits.reverse.map fun c => c.toNat - '0'.toNat)

theorem decimalValue_eq_placeValue (digits : List Char) :
    decimalValue digits = placeValue digits := by
  induction digits using List.reverseRecOn with
  | nil => rfl
  | append_singleton cs c ih =>
    have hlast : placeValue (cs ++ [c]) = (c.toNat - '0'.toNat) + 10 * placeValue cs := by
      rw [placeValue, List.reverse_append, List.reverse_singleton, List.singleton_append,
        List.map_cons, Nat.ofDigits_cons]
      rfl
    rw [hlast, ← ih, decimalValue, List.foldl_append, Nat.add_comm]
    rfl

theorem text_of_neg {n : Integer} (h : n.toInt < 0) :
    n.text = "-" ++ toString n.toInt.natAbs := by
  rw [text]
  cases hn : n.toInt with
  | ofNat k =>
    rw [hn] at h
    exact absurd h (Int.not_lt.mpr (Int.natCast_nonneg k))
  | negSucc k => rfl

end Integer

/-! ## reading -/

namespace Parser
variable {ts : List Token}

theorem readExpr_number {digits : String} {n : Integer} (h : Integer.ofDigits? digits = some n)
    (level : Nat) : readExpr level [.number digits] = .ok (.int n, []) := by
  rw [readExpr_eq, readOperand_number h]
  exact readOperators_of_not_tighter _ rfl

theorem readExpr_tooLarge {digits : String} (h : Integer.ofDigits? digits = none) (level : Nat) :
    readExpr level [.number digits] = .error ⟨.tooLarge digits, []⟩ := by
  rw [readExpr_eq, readOperand_tooLarge h]
  rfl

theorem readExpr_unary_of_ok (op : UnaryOp) {e : Expr} (h : readExpr unaryLevel ts = .ok (e, []))
    (level : Nat) : readExpr level (.symbol op.symbol :: ts) = .ok (.unary op e, []) := by
  rw [readExpr_eq, readOperand_unary, h]
  exact readOperators_of_not_tighter _ rfl

theorem readExpr_unary_of_error (op : UnaryOp) {failure : Failure}
    (h : readExpr unaryLevel ts = .error failure) (level : Nat) :
    readExpr level (.symbol op.symbol :: ts) = .error failure := by
  rw [readExpr_eq, readOperand_unary, h]
  rfl

theorem readStatement_of_startsExpr {t : Token} (h : startsExpr t = true) (ts : List Token) :
    readStatement (t :: ts) = (do
      let (e, rest) ← readExpr 0 (t :: ts)
      return (.expr e, skipSemicolon rest)) := by
  apply readStatement_of_ne
  · rintro rest ⟨⟩
    cases h
  · rintro rest ⟨⟩
    cases h

end Parser

/-- behind the last token there is nothing to go on with -/
theorem resume_length (ts : List Token) (depth : Nat) : resume ts.length depth ts = [] := by
  induction ts generalizing depth with
  | nil => rfl
  | cons t ts ih =>
    rw [resume]
    split
    case isTrue h =>
      -- all tokens have been looked at, so only the last one can end the search
      obtain rfl : ts = [] := List.eq_nil_of_length_eq_zero (by simpa using h.1)
      exact List.eq_nil_of_length_eq_zero (Nat.le_zero.mp (length_afterDropped_le t []))
    case isFalse => exact ih _

namespace Program
variable {ts : List Token}

/-- an expression that breaks off at the last token is all that is wrong -/
theorem parse_of_error_at_end {t : Token} {error : SyntaxError} (ht : Parser.startsExpr t = true)
    (h : Parser.readExpr 0 (t :: ts) = .error ⟨error, []⟩) :
    parse (t :: ts) = ⟨[], [error]⟩ := by
  have hstatement : Parser.readStatement (t :: ts) = .error ⟨error, []⟩ := by
    rw [Parser.readStatement_of_startsExpr ht, h]
    rfl
  rw [parse_of_error hstatement, List.length_nil, Nat.sub_zero, resume_length, parse_nil]

theorem ofSource_of_spells {source : String} (h : Spells source.toList ts) :
    ofSource source = .ok (parse ts) := by
  rw [ofSource_of_ascii h.ascii, h.tokens_eq]

end Program

theorem spells_number {digits : String} (h : IsNumber digits) :
    Spells digits.toList [.number digits] := by
  have hone := spells_nil.token (t := .number digits) h (Token.endsBefore_nil _)
  rwa [List.append_nil] at hone

theorem spells_negated {digits : String} (h : IsNumber digits) :
    Spells ("-" ++ digits).toList [.symbol UnaryOp.neg.symbol, .number digits] := by
  rw [String.toList_append]
  exact (spells_number h).token (t := .symbol UnaryOp.neg.symbol) trivial trivial

namespace Program
variable {digits : String} (hd : IsNumber digits)
include hd

theorem ofSource_number {n : Integer} (h : Integer.ofDigits? digits = some n) :
    ofSource digits = .ok ⟨[.expr (.int n)], []⟩ ∧
      ofSource ("-" ++ digits) = .ok ⟨[.expr (.unary .neg (.int n))], []⟩ := by
  constructor
  · rw [ofSource_of_spells (spells_number hd), parse_of_readExpr (Parser.readExpr_number h 0)]
  · have hread := Parser.readExpr_unary_of_ok .neg (Parser.readExpr_number h _) 0
    rw [ofSource_of_spells (spells_negated hd), parse_of_readExpr hread]

/-- a sign before the digits does not make the number fit -/
theorem ofSource_tooLarge (h : Integer.ofDigits? digits = none) :
    ofSource digits = .ok ⟨[], [.tooLarge digits]⟩ ∧
      ofSource ("-" ++ digits) = .ok ⟨[], [.tooLarge digits]⟩ := by
  constructor
  · rw [ofSource_of_spells (spells_number hd),
      parse_of_error_at_end rfl (Parser.readExpr_tooLarge h 0)]
  · have hread := Parser.readExpr_unary_of_error .neg (Parser.readExpr_tooLarge h _) 0
    rw [ofSource_of_spells (spells_negated hd), parse_of_error_at_end rfl hread]

end Program

/-! ## running -/

theorem Expr.eval_neg_int {m n : Integer} (h : Integer.ofInt? (-m.toInt) = some n)
    (call : Closure → List Value → Evaluation Value) (scope : ScopeId) (s : Store) :
    (Expr.unary .neg (.int m)).eval call scope s = .ok (.int n) s := by
  have hvalue : (Value.int m).unary .neg = .ok (.int n) := by simp only [Value.unary, h]
  have hm : (Expr.int m).eval call scope s = .ok (.int m) s := rfl
  rw [Expr.eval, Evaluation.bind_of_ok _ hm, hvalue]
  rfl

namespace Session
variable {depth : Nat} {source : String} {s : Session}

theorem run_of_int {e : Expr} {n : Integer} (h : Program.ofSource source = .ok ⟨[.expr e], []⟩)
    (he : e.eval (Closure.call depth) s.scope s.store = .ok (.int n) s.store) :
    s.run depth source = some (.ok (some (.int n)), s) := by
  have hstatement : (Stmt.expr e).eval (Closure.call depth) s.scope s.store =
      .ok (some (.int n)) s.store := by
    rw [Stmt.eval, Evaluation.bind_of_ok _ he]
    rfl
  have hblock := Block.eval_cons_of_ok hstatement (by simp) none []
  have hprogram : Program.eval depth s.scope [.expr e] s.store = .ok (some (.int n)) s.store := by
    rw [Program.eval, Evaluation.bind_of_ok _ hblock]
    rfl
  rw [run_of_program h, hprogram]
  rfl

/-- the text of an integer runs to the integer, whichever side of zero it is on -/
theorem run_text {n : Integer} (h : n.toInt ≠ Integer.least) (depth : Nat) (s : Session) :
    s.run depth n.text = some (.ok (some (.int n)), s) := by
  by_cases hneg : n.toInt < 0
  · -- the distance from zero fits, since the integer is not the least one
    have hfits : Integer.least ≤ (n.toInt.natAbs : Int) ∧
        (n.toInt.natAbs : Int) ≤ Integer.greatest := by
      have hle := n.least_le_toInt
      unfold Integer.least Integer.greatest at *
      omega
    have hm : Integer.ofInt? n.toInt.natAbs = some (Int64.ofInt n.toInt.natAbs) := if_pos hfits
    have hminus : -(Int64.ofInt n.toInt.natAbs).toInt = n.toInt := by
      rw [Integer.toInt_of_ofInt? hm]
      omega
    have hsource := (Program.ofSource_number (Integer.isNumber_toString n.toInt.natAbs)
      ((Integer.ofDigits?_toString _).trans hm)).2
    rw [Integer.text_of_neg hneg]
    exact run_of_int hsource (Expr.eval_neg_int (by rw [hminus, Integer.ofInt?_toInt]) _ _ _)
  · have hnonneg : 0 ≤ n.toInt := Int.not_lt.mp hneg
    have hsource := (Program.ofSource_number (Integer.isNumber_text hnonneg)
      (Integer.ofDigits?_text hnonneg)).1
    exact run_of_int hsource rfl

/-- the distance of the least integer from zero is one more than 64 bits hold -/
theorem run_text_least {n : Integer} (h : n.toInt = Integer.least) (depth : Nat) (s : Session) :
    s.run depth n.text = some (.error (.parse [.tooLarge "9223372036854775808"]), s) := by
  have habs : n.toInt.natAbs = 9223372036854775808 := by
    rw [h]
    rfl
  have hneg : n.toInt < 0 := by
    rw [h]
    decide
  have hnone : Integer.ofDigits? (toString 9223372036854775808) = none := by
    rw [Integer.ofDigits?_toString]
    exact if_neg (by decide)
  have hsource := (Program.ofSource_tooLarge (Integer.isNumber_toString _) hnone).2
  rw [Integer.text_of_neg hneg, habs]
  exact run_of_errors hsource (by simp)

end Session

namespace Integer

/-- **Integers are read back as they are written.**  A text of digits, however long and with any
zeros in front, is read as the literal of the number it stands for if 64 bits hold it, and otherwise
as no statement at all, with one error that shows the digits as they are.  And the text of an
integer runs to this integer, in every session and without changing it; only the text of the least
one is refused, since its digits without the sign stand for a number that is too large. -/
theorem numerals_read_back :
    (∀ digits : String, IsNumber digits →
      ((placeValue digits.toList : Int) ≤ greatest →
        ∃ n : Integer, n.toInt = placeValue digits.toList ∧
          Program.ofSource digits = .ok ⟨[.expr (.int n)], []⟩) ∧
      (greatest < placeValue digits.toList →
        Program.ofSource digits = .ok ⟨[], [.tooLarge digits]⟩)) ∧
    ∀ (n : Integer) (depth : Nat) (s : Session),
      (n.toInt ≠ least →
        s.run depth (Value.int n).text = some (.ok (some (.int n)), s)) ∧
      (n.toInt = least →
        s.run depth (Value.int n).text =
          some (.error (.parse [.tooLarge "9223372036854775808"]), s)) := by
  refine ⟨fun digits hd => ⟨fun hle => ?_, fun hlt => ?_⟩, fun n depth s => ⟨?_, ?_⟩⟩
  · rw [← decimalValue_eq_placeValue] at hle ⊢
    have hsome := ofDigits?_of_le hle
    exact ⟨_, toInt_of_ofInt? hsome, (Program.ofSource_number hd hsome).1⟩
  · rw [← decimalValue_eq_placeValue] at hlt
    have hnone : ofDigits? digits = none := if_neg fun h => Int.not_lt.mpr h.2 hlt
    exact (Program.ofSource_tooLarge hd hnone).1
  · exact fun h => Session.run_text h depth s
  · exact fun h => Session.run_text_least h depth s

/-- the greatest integer with zeros in front, one more than it, and the least integer -/
theorem numerals_read_back_limits :
    Program.ofSource "009223372036854775807" = .ok ⟨[.expr (.int Int64.maxValue)], []⟩ ∧
      Program.ofSource "09223372036854775808" = .ok ⟨[], [.tooLarge "09223372036854775808"]⟩ ∧
      Session.start.run 0 "-9223372036854775807" =
        some (.ok (some (.int (-9223372036854775807))), .start) ∧
      Session.start.run 0 "-9223372036854775808" =
        some (.error (.parse [.tooLarge "9223372036854775808"]), .start) := by
  obtain ⟨hread, hrun⟩ := numerals_read_back
  refine ⟨?_, ?_, ?_, ?_⟩
  · obtain ⟨n, hn, hsource⟩ := (hread "009223372036854775807" ⟨by decide, by simp [Char.isDigit]⟩).1
      (by decide +kernel)
    obtain rfl : n = Int64.maxValue := Int64.toInt_inj.mp (hn.trans (by decide +kernel))
    exact hsource
  · exact (hread "09223372036854775808" ⟨by decide, by simp [Char.isDigit]⟩).2 (by decide +kernel)
  · exact (hrun (-9223372036854775807) 0 .start).1 (by decide)
  · exact (hrun Int64.minValue 0 .start).2 (by decide)

end Integer

end MonkeyLang
