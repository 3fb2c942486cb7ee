import MonkeyLang.Proofs.Grammar.Basic

/-!
# Strengths and levels

The strengths by which the parser decides whether an expression goes on are the ranks of the levels
of the grammar (`BinaryOp.strength_eq_rank`), and the tokens by which it goes on are those that the
grammar forbids after a statement without semicolon (`Token.continues_iff`).
-/

namespace MonkeyLang

open Grammar

/-- An operator is as strong as its level is tight. -/
theorem BinaryOp.strength_eq_rank (op : BinaryOp) : op.strength = op.level.rank := by
  cases op <;> rfl

/-- Every binary operator is looser than a unary one. -/
theorem BinaryOp.level_rank_lt_unary (op : BinaryOp) : op.level.rank < Level.unary.rank := by
  cases op <;> decide

/-- The tightest level is that of chains. -/
theorem Grammar.Level.rank_le_chain (level : Level) : level.rank ≤ Level.chain.rank := by
  cases level <;> decide

/-- The level on which a continuation wants what stands before it. -/
def Continuation.level : Continuation → Level
  | operator op => op.level
  | call | index => .chain

/-- A continuation that is looser than a unary operator is a binary operator. -/
theorem Continuation.level_rank_le {continuation : Continuation} {level : Level}
    (hunary : level.rank ≤ Level.unary.rank)
    (h : continuation.strength ≤ level.rank) : continuation.level.rank ≤ level.rank := by
  cases continuation with
  | operator op => exact op.strength_eq_rank ▸ h
  | call | index =>
      simp only [Continuation.strength, Token.strength, Level.rank] at h hunary
      omega

namespace Token

/-- The token of an operator continues an expression by that operator, and no other token does. -/
theorem continuation?_eq_operator {token : Token} {op : BinaryOp} :
    token.continuation? = some (.operator op) ↔ token = op.token := by
  cases token <;> cases op <;> simp [continuation?, operator?, BinaryOp.token]

/-- Only an opening parenthesis makes a call. -/
theorem continuation?_eq_call {token : Token} :
    token.continuation? = some .call ↔ token = .lparen := by
  cases token <;> simp [continuation?, operator?]

/-- Only an opening bracket makes an index position. -/
theorem continuation?_eq_index {token : Token} :
    token.continuation? = some .index ↔ token = .lbracket := by
  cases token <;> simp [continuation?, operator?]

/-- The tokens that could continue an expression are those by which the parser continues one. -/
theorem continues_iff {token : Token} :
    token.Continues ↔ ∃ continuation, token.continuation? = some continuation := by
  cases token <;> simp [Continues, continuation?, operator?]

/-- A token binds as strongly as what it continues an expression by. -/
theorem strength_of_continuation? {token : Token} {continuation : Continuation}
    (h : token.continuation? = some continuation) : token.strength = continuation.strength := by
  cases continuation with
  | operator op => rw [continuation?_eq_operator.mp h, Continuation.strength, BinaryOp.strength]
  | call => rw [continuation?_eq_call.mp h, Continuation.strength]
  | index => rw [continuation?_eq_index.mp h, Continuation.strength]

/-- A token continues an expression above a strength if it continues one and is stronger. -/
theorem continuationAbove?_eq_some {token : Token} {strength : Nat}
    {continuation : Continuation} :
    token.continuationAbove? strength = some continuation ↔
      token.continuation? = some continuation ∧ strength < continuation.strength := by
  unfold continuationAbove?
  split
  · next hbinds =>
      rw [Option.some_get]
      exact ⟨fun h => ⟨h, strength_of_continuation? h ▸ hbinds⟩, And.left⟩
  · next hbinds =>
      refine ⟨nofun, fun h => absurd ?_ hbinds⟩
      exact strength_of_continuation? h.1 ▸ h.2

end Token

namespace Grammar

/-- What comes next does not continue an expression more strongly than `strength`. -/
def Stops (strength : Nat) (rest : List Token) : Prop :=
  ∀ token ∈ rest.head?, ∀ continuation, token.continuation? = some continuation →
    continuation.strength ≤ strength

/-- Nothing continues an expression at the end of the tokens. -/
theorem stops_nil (strength : Nat) : Stops strength [] := by
  intro token htoken
  simp at htoken

/-- The parser stops before a token exactly if it is no continuation above the strength. -/
theorem stops_cons {strength : Nat} {token : Token} {rest : List Token} :
    Stops strength (token :: rest) ↔ token.continuationAbove? strength = none := by
  constructor
  · intro hstops
    rw [Option.eq_none_iff_forall_ne_some]
    intro continuation habove
    obtain ⟨hcontinuation, hlt⟩ := Token.continuationAbove?_eq_some.mp habove
    exact absurd (hstops token rfl continuation hcontinuation) (Nat.not_le.mpr hlt)
  · intro hnone next hnext continuation hcontinuation
    obtain rfl : token = next := by simpa using hnext
    refine Nat.not_lt.mp fun hlt => ?_
    rw [Token.continuationAbove?_eq_some.mpr ⟨hcontinuation, hlt⟩] at hnone
    exact Option.some_ne_none _ hnone

/-- What stops a weak context stops a strong one. -/
theorem Stops.mono {weak strong : Nat} {rest : List Token} (hle : weak ≤ strong)
    (h : Stops weak rest) : Stops strong rest :=
  fun token htoken continuation hcontinuation =>
    Nat.le_trans (h token htoken continuation hcontinuation) hle

/-- The loosest context stops exactly before the tokens that continue nothing. -/
theorem stops_loosest {rest : List Token} :
    Stops loosest rest ↔ ∀ next ∈ rest.head?, ¬ next.Continues := by
  constructor
  · intro hstops next hnext hcontinues
    obtain ⟨continuation, hcontinuation⟩ := Token.continues_iff.mp hcontinues
    have hle := hstops next hnext continuation hcontinuation
    cases continuation with
    | operator op => cases op <;> exact absurd hle (by decide)
    | call | index => exact absurd hle (by decide)
  · intro hnext token htoken continuation hcontinuation
    exact absurd (Token.continues_iff.mpr ⟨continuation, hcontinuation⟩) (hnext token htoken)

end Grammar

end MonkeyLang
