import Mathlib.Algebra.Ring.Int.Defs
import MonkeyLang.Proofs.Eval.Sequence

/-!
# Integer expressions are exact

An expression of integer literals, negations and the four operations has an exact value among all
integers. Evaluation computes words and never wraps: read `eval_arithmetic` first. It results in the
exact value if that of every part is a word and no part divides by zero, and it reports the first
operation that fails otherwise, with the exact values of its operands.
-/

namespace MonkeyLang

/-- The operations of integer arithmetic. -/
inductive ArithmeticOp where
  | add
  | subtract
  | multiply
  | divide
  deriving DecidableEq, Repr

namespace ArithmeticOp

/-- The operation as an operator of the language. -/
def toBinary : ArithmeticOp → BinaryOp
  | add => .add
  | subtract => .subtract
  | multiply => .multiply
  | divide => .divide

/-- The exact result of an operation. Quotients are rounded toward zero, and a quotient by zero has
no meaning. -/
def exact : ArithmeticOp → Int → Int → Int
  | add, left, right => left + right
  | subtract, left, right => left - right
  | multiply, left, right => left * right
  | divide, left, right => left.tdiv right

end ArithmeticOp

/-- Integer expressions. -/
inductive Arithmetic where
  | literal (value : Int64)
  | negation (operand : Arithmetic)
  | operation (left : Arithmetic) (op : ArithmeticOp) (right : Arithmetic)
  deriving DecidableEq, Repr

/-- Whether an exact integer is a 64-bit word. -/
def InWordRange (value : Int) : Prop :=
  -2 ^ 63 ≤ value ∧ value ≤ 2 ^ 63 - 1

instance (value : Int) : Decidable (InWordRange value) :=
  inferInstanceAs (Decidable (_ ∧ _))

namespace Arithmetic

/-- An integer expression as an expression of the language. -/
def toExpr : Arithmetic → Expr
  | literal value => .int value
  | negation operand => .unary .negate operand.toExpr
  | operation left op right => .binary left.toExpr op.toBinary right.toExpr

/-- The exact value, as long as nothing is divided by zero. -/
def exact : Arithmetic → Int
  | literal value => value.toInt
  | negation operand => -operand.exact
  | operation left op right => op.exact left.exact right.exact

/-- How deeply an expression is nested. -/
def height : Arithmetic → Nat
  | literal _ => 1
  | negation operand => operand.height + 1
  | operation left _ right => max left.height right.height + 1

/-- The parts of an expression in the order in which they are evaluated: operands from left to
right, and then the operation on them. -/
def parts : Arithmetic → List Arithmetic
  | literal value => [literal value]
  | negation operand => operand.parts ++ [negation operand]
  | operation left op right => left.parts ++ right.parts ++ [operation left op right]

/-- Whether an expression is a division by an expression of value zero. -/
def DividesByZero : Arithmetic → Prop
  | operation _ op right => op = .divide ∧ right.exact = 0
  | _ => False

instance : DecidablePred DividesByZero
  | operation _ op right => inferInstanceAs (Decidable (op = .divide ∧ right.exact = 0))
  | literal _ | negation _ => inferInstanceAs (Decidable False)

/-- Whether the outermost operation of an expression has a result: its value is a word, and it does
not divide by zero. -/
def Sound (expr : Arithmetic) : Prop :=
  InWordRange expr.exact ∧ ¬ expr.DividesByZero

/-- The outermost operation of an expression fails with a message about the exact values of its
operands. -/
inductive Fails : Arithmetic → String → Prop where
  | divisionByZero {left right : Arithmetic} :
      right.exact = 0 →
      Fails (.operation left .divide right)
        ("division by zero: " ++ decimal left.exact ++ " / 0")
  | overflow {left right : Arithmetic} {op : ArithmeticOp} :
      ¬ (operation left op right).DividesByZero →
      ¬ InWordRange (operation left op right).exact →
      Fails (.operation left op right)
        ("integer overflow: " ++ decimal left.exact ++ " " ++ op.toBinary.symbol ++ " " ++
          decimal right.exact)
  | negationOverflow {operand : Arithmetic} :
      ¬ InWordRange (negation operand).exact →
      Fails (.negation operand) ("integer overflow: -" ++ decimal operand.exact)

/-- A failing operation is the first one of an expression, and fails with a message. -/
def FailsFirst (expr : Arithmetic) (message : String) : Prop :=
  ∃ before part after, expr.parts = before ++ part :: after ∧
    (∀ earlier ∈ before, earlier.Sound) ∧ part.Fails message

end Arithmetic

/-! ## Operations on words -/

/-- Only integers in range are words. -/
theorem word?_eq_none_iff {exact : Int} : word? exact = none ↔ ¬ InWordRange exact := by
  have hmin : Int64.minValue.toInt = -2 ^ 63 := by decide
  have hmax : Int64.maxValue.toInt = 2 ^ 63 - 1 := by decide
  unfold word? InWordRange
  split
  · next hrange =>
      rw [hmin, hmax] at hrange
      exact iff_of_false nofun (not_not_intro hrange)
  · next hrange =>
      rw [hmin, hmax] at hrange
      exact iff_of_true rfl hrange

/-- Every word is in range. -/
theorem inWordRange_toInt (word : Int64) : InWordRange word.toInt := by
  have hword : word? word.toInt = some word := word?_eq_some_iff.mpr rfl
  refine Decidable.of_not_not fun hrange => ?_
  rw [word?_eq_none_iff.mpr hrange] at hword
  cases hword

/-- An operation on words fails if it divides by zero, and has its exact result otherwise. -/
theorem ArithmeticOp.apply_int (op : ArithmeticOp) (left right : Int64) :
    op.toBinary.apply (.int left) (.int right) =
      if op = .divide ∧ right.toInt = 0 then .error (.divisionByZero left)
      else exactResult left op.toBinary right (op.exact left.toInt right.toInt) := by
  have hzero : right.toInt = 0 ↔ right = 0 := Int64.toInt_inj (y := 0)
  cases op with
  | add | subtract | multiply => simp [toBinary, BinaryOp.apply, BinaryOp.onInts, exact]
  | divide => simp [toBinary, BinaryOp.apply, BinaryOp.onInts, exact, hzero]

/-! ## Evaluation -/

namespace Arithmetic

variable {expr : Arithmetic} {message : String}

/-- What fails has no result. -/
theorem Fails.not_sound (hfails : expr.Fails message) : ¬ expr.Sound := by
  cases hfails with
  | divisionByZero hzero => exact fun hsound => hsound.2 ⟨rfl, hzero⟩
  | overflow _ hrange | negationOverflow hrange => exact fun hsound => hrange hsound.1

/-- An operation of an expression that fails first is a part without a result. -/
theorem FailsFirst.not_sound (hfirst : expr.FailsFirst message) :
    ¬ ∀ part ∈ expr.parts, part.Sound := by
  obtain ⟨before, part, after, hparts, _, hfails⟩ := hfirst
  intro hsound
  refine hfails.not_sound (hsound part ?_)
  rw [hparts]
  exact List.mem_append_right before List.mem_cons_self

/-- What fails first stays the first one in front of other parts. -/
theorem FailsFirst.append {outer : Arithmetic} {others : List Arithmetic}
    (hfirst : expr.FailsFirst message) (hparts : outer.parts = expr.parts ++ others) :
    outer.FailsFirst message := by
  obtain ⟨before, part, after, hsplit, hsound, hfails⟩ := hfirst
  refine ⟨before, part, after ++ others, ?_, hsound, hfails⟩
  rw [hparts, hsplit, List.append_assoc, List.cons_append]

/-- What fails first stays the first one behind parts with results. -/
theorem FailsFirst.prepend {outer : Arithmetic} {earlier others : List Arithmetic}
    (hfirst : expr.FailsFirst message) (hparts : outer.parts = earlier ++ expr.parts ++ others)
    (hearlier : ∀ part ∈ earlier, part.Sound) : outer.FailsFirst message := by
  obtain ⟨before, part, after, hsplit, hsound, hfails⟩ := hfirst
  refine ⟨earlier ++ before, part, after ++ others, ?_, ?_, hfails⟩
  · rw [hparts, hsplit]
    simp only [List.append_assoc, List.cons_append]
  · exact List.forall_mem_append.mpr ⟨hearlier, hsound⟩

/-- The outermost operation fails first if all other parts have results. -/
theorem Fails.failsFirst {earlier : List Arithmetic} (hfails : expr.Fails message)
    (hparts : expr.parts = earlier ++ [expr]) (hearlier : ∀ part ∈ earlier, part.Sound) :
    expr.FailsFirst message :=
  ⟨earlier, expr, [], hparts, hearlier, hfails⟩

/-- How the evaluation of an integer expression ends: with the exact value, if all parts have
results, or with the message of the part that fails first. Nothing else happens. -/
inductive Ends (expr : Arithmetic) (machine : Machine) : Outcome Value → Prop where
  | done {word : Int64} :
      (∀ part ∈ expr.parts, part.Sound) → word.toInt = expr.exact →
      Ends expr machine (.done (.int word) machine)
  | failed {cause : Fault} :
      expr.FailsFirst cause.message → Ends expr machine (.stopped (.fault cause) machine)

/-- An operation on operands that have results ends with its exact result, if that is a word, and
with an overflow otherwise. -/
theorem ends_word {earlier : List Arithmetic} {cause : Fault}
    (hparts : expr.parts = earlier ++ [expr]) (hearlier : ∀ part ∈ earlier, part.Sound)
    (hzero : ¬ expr.DividesByZero)
    (hfails : ¬ InWordRange expr.exact → expr.Fails cause.message) (machine : Machine) :
    expr.Ends machine (Eval.ofExcept
      (match word? expr.exact with
        | some word => .ok (.int word)
        | none => .error cause) machine) := by
  cases hword : word? expr.exact with
  | none => exact .failed ((hfails (word?_eq_none_iff.mp hword)).failsFirst hparts hearlier)
  | some word =>
      have hexact : word.toInt = expr.exact := word?_eq_some_iff.mp hword
      have hsound : expr.Sound := ⟨hexact ▸ inWordRange_toInt word, hzero⟩
      refine .done ?_ hexact
      rw [hparts]
      exact List.forall_mem_append.mpr ⟨hearlier, List.forall_mem_singleton.mpr hsound⟩

/-- Negation of an operand that has a result. -/
theorem ends_negate {operand : Arithmetic} {word : Int64}
    (hsound : ∀ part ∈ operand.parts, part.Sound) (hword : word.toInt = operand.exact)
    (machine : Machine) :
    (negation operand).Ends machine
      (Eval.ofExcept (UnaryOp.negate.apply (.int word)) machine) := by
  have hfails : ¬ InWordRange (negation operand).exact →
      (negation operand).Fails (Fault.negationOverflow word).message := by
    intro hrange
    show Fails _ ("integer overflow: -" ++ decimal word.toInt)
    rw [hword]
    exact .negationOverflow hrange
  have hends := ends_word rfl hsound id hfails machine
  rwa [exact, ← hword] at hends

/-- An operation on operands that have results. -/
theorem ends_apply {left right : Arithmetic} {op : ArithmeticOp} {leftWord rightWord : Int64}
    (hsound : ∀ part ∈ left.parts ++ right.parts, part.Sound)
    (hleft : leftWord.toInt = left.exact) (hright : rightWord.toInt = right.exact)
    (machine : Machine) :
    (operation left op right).Ends machine
      (Eval.ofExcept (op.toBinary.apply (.int leftWord) (.int rightWord)) machine) := by
  rw [op.apply_int, hright]
  split
  · next hzero =>
      obtain ⟨rfl, hzero⟩ := hzero
      have hfails : (operation left .divide right).Fails
          (Fault.divisionByZero leftWord).message := by
        show Fails _ ("division by zero: " ++ decimal leftWord.toInt ++ " / 0")
        rw [hleft]
        exact .divisionByZero hzero
      exact .failed (hfails.failsFirst rfl hsound)
  · next hnot =>
      have hzero : ¬ (operation left op right).DividesByZero := hnot
      have hfails : ¬ InWordRange (operation left op right).exact →
          (operation left op right).Fails
            (Fault.overflow leftWord op.toBinary rightWord).message := by
        intro hrange
        show Fails _ ("integer overflow: " ++ decimal leftWord.toInt ++ " " ++ op.toBinary.symbol ++
          " " ++ decimal rightWord.toInt)
        rw [hleft, hright]
        exact .overflow hzero hrange
      rw [hleft]
      exact ends_word rfl hsound hzero hfails machine

/-- Evaluation of an integer expression, to a depth at least its height, ends with the exact value
or with the first failure. -/
theorem ends_eval (env : Env) (machine : Machine) (expr : Arithmetic) :
    ∀ {depth : Nat}, expr.height ≤ depth →
      expr.Ends machine (eval depth env expr.toExpr machine) := by
  induction expr with
  | literal value =>
      intro depth hdepth
      obtain ⟨depth, rfl⟩ := Nat.exists_eq_add_of_le' hdepth
      exact .done (List.forall_mem_singleton.mpr ⟨inWordRange_toInt value, id⟩) rfl
  | negation operand ih =>
      intro depth hdepth
      obtain ⟨depth, rfl⟩ := Nat.exists_eq_add_of_le' (Nat.le_trans (Nat.le_add_left 1 _) hdepth)
      have hoperand := ih (Nat.le_of_succ_le_succ hdepth)
      show Ends _ machine ((eval depth env operand.toExpr >>= fun value =>
        Eval.ofExcept (UnaryOp.negate.apply value)) machine)
      generalize hout : eval depth env operand.toExpr machine = outcome at hoperand
      cases hoperand with
      | failed hfirst =>
          rw [Eval.bind_of_stopped hout]
          exact .failed (hfirst.append rfl)
      | done hsound hword =>
          rw [Eval.bind_of_done hout]
          exact ends_negate hsound hword machine
  | operation left op right ihleft ihright =>
      intro depth hdepth
      obtain ⟨depth, rfl⟩ := Nat.exists_eq_add_of_le' (Nat.le_trans (Nat.le_add_left 1 _) hdepth)
      obtain ⟨hdepthLeft, hdepthRight⟩ := Nat.max_le.mp (Nat.le_of_succ_le_succ hdepth)
      have hleft := ihleft hdepthLeft
      have hright := ihright hdepthRight
      show Ends _ machine ((eval depth env left.toExpr >>= fun leftValue =>
        eval depth env right.toExpr >>= fun rightValue =>
          Eval.ofExcept (op.toBinary.apply leftValue rightValue)) machine)
      generalize houtLeft : eval depth env left.toExpr machine = outcomeLeft at hleft
      generalize houtRight : eval depth env right.toExpr machine = outcomeRight at hright
      cases hleft with
      | failed hfirst =>
          rw [Eval.bind_of_stopped houtLeft]
          exact .failed (hfirst.append (List.append_assoc ..))
      | done hsoundLeft hwordLeft =>
          rw [Eval.bind_of_done houtLeft]
          cases hright with
          | failed hfirst =>
              rw [Eval.bind_of_stopped houtRight]
              exact .failed (hfirst.prepend rfl hsoundLeft)
          | done hsoundRight hwordRight =>
              rw [Eval.bind_of_done houtRight]
              have hsound := List.forall_mem_append.mpr ⟨hsoundLeft, hsoundRight⟩
              exact ends_apply hsound hwordLeft hwordRight machine

end Arithmetic

/-- Evaluate an integer expression to a depth that is at least its height, in any environment. It
results in an integer equal to the exact value, and changes nothing, precisely if the exact value of
every part is a word and no part divides by zero. Otherwise it stops with the message of the first
part, in the order of evaluation, that has no result: that of a division by zero if the part divides
by zero, and that of an overflow if not, with the exact values of the operands. -/
theorem eval_arithmetic {expr : Arithmetic} {depth : Nat} (hdepth : expr.height ≤ depth)
    (env : Env) (machine : Machine) :
    ((∃ word : Int64, word.toInt = expr.exact ∧
        eval depth env expr.toExpr machine = .done (.int word) machine) ↔
      ∀ part ∈ expr.parts, InWordRange part.exact ∧ ¬ part.DividesByZero) ∧
    ((¬ ∀ part ∈ expr.parts, InWordRange part.exact ∧ ¬ part.DividesByZero) →
      ∃ before part after cause, expr.parts = before ++ part :: after ∧
        (∀ earlier ∈ before, InWordRange earlier.exact ∧ ¬ earlier.DividesByZero) ∧
        part.Fails cause.message ∧
        eval depth env expr.toExpr machine = .stopped (.fault cause) machine) := by
  have hends := Arithmetic.ends_eval env machine expr hdepth
  generalize eval depth env expr.toExpr machine = outcome at hends ⊢
  cases hends with
  | done hsound hword =>
      exact ⟨iff_of_true ⟨_, hword, rfl⟩ hsound, fun hnot => absurd hsound hnot⟩
  | @failed cause hfirst =>
      refine ⟨iff_of_false nofun hfirst.not_sound, fun _ => ?_⟩
      obtain ⟨before, part, after, hparts, hsound, hfails⟩ := hfirst
      exact ⟨before, part, after, cause, hparts, hsound, hfails, rfl⟩

/-- The least word is the exact value of an expression of which every part is a word. Where the
first operand of a sum overflows on the way to a value that would be a word again, that is reported,
and not the division by zero in the second one. -/
theorem eval_arithmetic_overflow_first :
    let greatest : Arithmetic := .literal Int64.maxValue
    let one : Arithmetic := .literal 1
    let least : Arithmetic := .operation (.negation greatest) .subtract one
    let around : Arithmetic := .operation (.operation greatest .add one) .subtract one
    let expr : Arithmetic := .operation around .add (.operation one .divide (.literal 0))
    let machine : Machine := ⟨.empty, []⟩
    least.height ≤ 3 ∧ expr.height ≤ 4 ∧
    (∃ word : Int64, word.toInt = -2 ^ 63 ∧
      eval 3 ⟨0⟩ least.toExpr machine = .done (.int word) machine) ∧
    ∃ part ∈ expr.parts, part.Fails "integer overflow: 9223372036854775807 + 1" ∧
      eval 4 ⟨0⟩ expr.toExpr machine =
        .stopped (.fault (.overflow Int64.maxValue .add 1)) machine := by
  intro greatest one least around expr machine
  have hleast : least.height ≤ 3 := by decide
  have hexpr : expr.height ≤ 4 := by decide
  refine ⟨hleast, hexpr, ?_, ?_⟩
  · exact (eval_arithmetic hleast ⟨0⟩ machine).1.mpr (by decide +kernel)
  · obtain ⟨before, part, after, cause, hparts, _, hfails, hstopped⟩ :=
      (eval_arithmetic hexpr ⟨0⟩ machine).2 (by decide +kernel)
    have heval : eval 4 ⟨0⟩ expr.toExpr machine =
        .stopped (.fault (.overflow Int64.maxValue .add 1)) machine := rfl
    have hcause : cause = .overflow Int64.maxValue .add 1 := by
      rw [heval] at hstopped
      cases hstopped
      rfl
    have hmessage : cause.message = "integer overflow: 9223372036854775807 + 1" := by
      rw [hcause]
      decide +kernel
    refine ⟨part, ?_, hmessage ▸ hfails, heval⟩
    rw [hparts]
    exact List.mem_append_right before List.mem_cons_self

end MonkeyLang
