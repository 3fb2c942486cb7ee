/-!
# White space

The characters that separate lexemes are those with the Unicode property `White_Space`. The table
lists them as closed ranges of code points. It contains every character that core calls white
space (`isWhiteSpace_of_isWhitespace`).
-/

namespace MonkeyLang

/-- The code points with the property `White_Space`, as closed ranges in increasing order. -/
def whiteSpaceRanges : List (Nat × Nat) :=
  [(0x09, 0x0D), (0x20, 0x20), (0x85, 0x85), (0xA0, 0xA0), (0x1680, 0x1680), (0x2000, 0x200A),
    (0x2028, 0x2029), (0x202F, 0x202F), (0x205F, 0x205F), (0x3000, 0x3000)]

/-- Whether a character has the property `White_Space`. -/
def isWhiteSpace (char : Char) : Bool :=
  whiteSpaceRanges.any fun (low, high) => low ≤ char.toNat && char.toNat ≤ high

/-- The white space of core (blank, tab, carriage return, line feed) is white space here. -/
theorem isWhiteSpace_of_isWhitespace {char : Char} (hwhite : char.isWhitespace = true) :
    isWhiteSpace char = true := by
  simp only [Char.isWhitespace, Bool.or_eq_true, decide_eq_true_eq] at hwhite
  rcases hwhite with ((rfl | rfl) | rfl) | rfl <;> decide

end MonkeyLang
