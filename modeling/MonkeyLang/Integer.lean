/-!
# 64-bit integers

The integers of the language have 64 bits with a sign.  Their arithmetic is exact or fails, so it
is done on `Int` and taken back by `Integer.ofInt?`.
-/

namespace MonkeyLang

abbrev Integer := Int64

namespace Integer

def least : Int := -9223372036854775808

def greatest : Int := 9223372036854775807

/-- the integer `n`, if 64 bits hold it -/
def ofInt? (n : Int) : Option Integer :=
  if least ≤ n ∧ n ≤ greatest then some (Int64.ofInt n) else none

theorem least_le_toInt (i : Integer) : least ≤ i.toInt := Int64.le_toInt i

theorem toInt_le_greatest (i : Integer) : i.toInt ≤ greatest := by
  have := Int64.toInt_lt i
  unfold greatest
  omega

theorem toInt_of_ofInt? {n : Int} {i : Integer} (h : ofInt? n = some i) : i.toInt = n := by
  unfold ofInt? at h
  split at h
  case isTrue hn =>
    rw [← Option.some.inj h]
    have hlt : n < 2 ^ 63 := by
      have := hn.2
      unfold greatest at this
      omega
    exact Int64.toInt_ofInt_of_le hn.1 hlt
  case isFalse => simp at h

theorem ofInt?_toInt (i : Integer) : ofInt? i.toInt = some i := by
  rw [ofInt?, if_pos ⟨least_le_toInt i, toInt_le_greatest i⟩, Int64.ofInt_toInt]

/-- the number that decimal digits spell -/
def decimalValue (digits : List Char) : Nat :=
  digits.foldl (fun n c => 10 * n + (c.toNat - '0'.toNat)) 0

/-- the integer that decimal digits spell, if 64 bits hold it -/
def ofDigits? (digits : String) : Option Integer := ofInt? (decimalValue digits.toList)

def text (n : Integer) : String := toString n.toInt

end Integer

end MonkeyLang
