/-!
# Decimal numbers

Integers are 64-bit two's-complement words, written in decimal with a leading minus sign when
negative. An exact integer becomes a word only if it is in range (`word?_eq_some_iff`).
-/

namespace MonkeyLang

/-- The exact integer as a word, if it is in the range of words. -/
def word? (exact : Int) : Option Int64 :=
  if hrange : Int64.minValue.toInt ≤ exact ∧ exact ≤ Int64.maxValue.toInt then
    some (Int64.ofIntLE exact hrange.1 hrange.2)
  else
    none

/-- A word stands for an exact integer precisely when it has that integer's value. -/
theorem word?_eq_some_iff {exact : Int} {word : Int64} :
    word? exact = some word ↔ word.toInt = exact := by
  unfold word?
  split
  case isTrue hrange =>
    rw [Option.some.injEq]
    constructor
    · rintro rfl
      exact Int64.toInt_ofIntLE
    · intro hvalue
      apply Int64.toInt_inj.mp
      rw [Int64.toInt_ofIntLE, hvalue]
  case isFalse hrange =>
    refine ⟨fun hnone => by simp at hnone, fun hvalue => absurd ?_ hrange⟩
    rw [← hvalue]
    exact ⟨Int64.minValue_le_toInt word, Int64.toInt_le word⟩

/-- The decimal digits of an integer, after a minus sign if it is negative. -/
def decimal (exact : Int) : String :=
  if exact < 0 then "-" ++ exact.natAbs.repr else exact.natAbs.repr

/-- The word that a run of decimal digits denotes, if it is in range. -/
def wordOfDigits? (digits : String) : Option Int64 :=
  word? (Nat.ofDigitChars 10 digits.toList 0)

end MonkeyLang
