import Mathlib
import MonkeyLang.Proofs.Grammar.Accounting

/-!
# Braces and unterminated blocks

A block that is open when the text ends has a brace that nothing closed. Either the text has too few
closing braces, or the parser took one of them away: the token that cannot start an operand, or that
is no parameter, is consumed with the error. `Reading.Covers` keeps these accounts for one reading,
and `count_unterminated_le` is what they come to for a text.
-/

namespace MonkeyLang

/-- By how much a token raises the number of open braces. -/
def Token.weight : Token → Int
  | .lbrace => 1
  | .rbrace => -1
  | _ => 0

/-- How many more braces are opened than closed. -/
def excess (tokens : List Token) : Int :=
  (tokens.map Token.weight).sum

/-- No brace is closed before it is opened, and as many are closed as opened. -/
structure Balanced (tokens : List Token) : Prop where
  opened_first : ∀ start, start <+: tokens → 0 ≤ excess start
  all_closed : excess tokens = 0

/-- Of the prefixes, there are finitely many. -/
instance (tokens : List Token) : Decidable (Balanced tokens) :=
  decidable_of_iff ((∀ start ∈ tokens.inits, 0 ≤ excess start) ∧ excess tokens = 0)
    ⟨fun h => ⟨fun start hstart => h.1 start ((List.mem_inits _ _).mpr hstart), h.2⟩,
      fun h => ⟨fun start hstart => h.opened_first start ((List.mem_inits _ _).mp hstart),
        h.all_closed⟩⟩

/-- The error consumes a closing brace. -/
def ParseError.swallowsBrace : ParseError → Bool
  | .noOperand .rbrace => true
  | .badParameter .rbrace => true
  | _ => false

/-- A block that is not closed weighs as much as its opening brace, and an error that consumes a
closing brace as much as that. -/
def ParseError.weight (error : ParseError) : Int :=
  if error = .unterminatedBlock then 1 else if error.swallowsBrace then -1 else 0

/-- The unterminated blocks without the closing braces that errors consume. -/
def debt (errors : List ParseError) : Int :=
  (errors.map ParseError.weight).sum

@[simp] theorem excess_nil : excess [] = 0 := rfl

@[simp] theorem excess_cons (token : Token) (tokens : List Token) :
    excess (token :: tokens) = token.weight + excess tokens := by
  simp [excess]

@[simp] theorem excess_append (tokens tokens' : List Token) :
    excess (tokens ++ tokens') = excess tokens + excess tokens' := by
  simp [excess]

@[simp] theorem debt_nil : debt [] = 0 := rfl

@[simp] theorem debt_cons (error : ParseError) (errors : List ParseError) :
    debt (error :: errors) = error.weight + debt errors := by
  simp [debt]

@[simp] theorem debt_append (errors errors' : List ParseError) :
    debt (errors ++ errors') = debt errors + debt errors' := by
  simp [debt]

/-- The debt is a difference of two numbers. -/
theorem debt_eq_sub (errors : List ParseError) :
    debt errors = errors.count .unterminatedBlock - errors.countP ParseError.swallowsBrace := by
  induction errors with
  | nil => rfl
  | cons error errors ih =>
      rw [debt_cons, ih, List.count_cons, List.countP_cons, ParseError.weight]
      by_cases hopen : error = .unterminatedBlock
      · subst hopen
        simp [ParseError.swallowsBrace]
        omega
      · simp only [hopen, if_false, beq_iff_eq]
        split <;> (push_cast; omega)

/-- A token that is consumed because it starts no operand leaves no debt. -/
theorem weight_noOperand_le (token : Token) :
    (ParseError.noOperand token).weight ≤ token.weight := by
  cases token <;> simp [ParseError.weight, ParseError.swallowsBrace, Token.weight]

/-- A token that is consumed because it is no parameter leaves no debt. -/
theorem weight_badParameter_le (token : Token) :
    (ParseError.badParameter token).weight ≤ token.weight := by
  cases token <;> simp [ParseError.weight, ParseError.swallowsBrace, Token.weight]

/-- No brace continues an expression. -/
theorem weight_of_continuationAbove? {token : Token} {strength : Nat} {continuation : Continuation}
    (h : token.continuationAbove? strength = some continuation) : token.weight = 0 := by
  cases token <;> first | rfl | cases h

/-- A semicolon is no brace. -/
@[simp] theorem excess_skipSemicolon (tokens : List Token) :
    excess (skipSemicolon tokens) = excess tokens := by
  unfold skipSemicolon
  split
  · rw [excess_cons]
    exact (Int.zero_add _).symm
  · rfl

namespace Reading

variable {α β : Type} {bound small large : Nat} {owed owed' : Int} {tokens : List Token}

/-- The debt of a reading is at most the excess of what it consumes and the braces that are owed to
it, because they were opened before it. -/
def Covers (owed : Int) (tokens : List Token) (reading : Reading bound α) : Prop :=
  debt reading.errors + excess reading.rest ≤ excess tokens + owed

/-- More braces may be open. -/
theorem Covers.mono {reading : Reading bound α} (h : reading.Covers owed tokens)
    (hle : owed ≤ owed') : reading.Covers owed' tokens := by
  unfold Covers at *
  omega

/-- A token in front opens or closes a brace, or does neither. -/
theorem Covers.cons {reading : Reading bound α} (h : reading.Covers owed tokens) (token : Token) :
    reading.Covers (owed - token.weight) (token :: tokens) := by
  unfold Covers at *
  rw [excess_cons]
  omega

theorem covers_found (value : α) (rest : List Token) : (found value rest).Covers 0 rest := by
  simp [Covers, found, errors, Reading.rest]

theorem covers_refused (error : ParseError) (rest : List Token) :
    (refused error rest : Reading _ α).Covers error.weight rest := by
  simp [Covers, refused, errors, Reading.rest, Int.add_comm]

theorem covers_refusedAtEnd (error : ParseError) :
    (refusedAtEnd error : Reading bound α).Covers error.weight [] := by
  simp [Covers, refusedAtEnd, errors, Reading.rest]

theorem covers_statement (statement : Stmt) (rest : List Token) :
    (Reading.statement statement rest).Covers 0 rest := by
  simp [Covers, Reading.statement, found, widen, errors, Reading.rest]

/-- A fixed token is consumed if it is there, and another one is not. -/
theorem covers_token {wanted : Token} (hweight : wanted.weight = 0) (tokens : List Token) :
    (token wanted tokens).Covers 0 tokens := by
  unfold token
  split
  · exact covers_refusedAtEnd _
  next next rest =>
    split
    next heq =>
      subst heq
      exact ((covers_found () rest).cons next).mono (by omega)
    · exact covers_refused _ _

theorem Covers.widen {hle : small ≤ large} {reading : Reading small α}
    (h : reading.Covers owed tokens) : (reading.widen hle).Covers owed tokens := by
  cases reading <;> exact h

theorem Covers.map {f : α → β} {reading : Reading bound α} (h : reading.Covers owed tokens) :
    (reading.map f).Covers owed tokens := by
  cases reading <;> exact h

/-- The errors of statements that were dropped earlier come first. -/
theorem errors_after (earlier : List ParseError) (reading : Reading bound α) :
    (reading.after earlier).errors = earlier ++ reading.errors := by
  cases reading with
  | done => rfl
  | failed => exact List.append_assoc _ _ _

/-- The debt on the way to `rest` adds up with the debt from there on. -/
theorem Covers.after {earlier : List ParseError} {rest : List Token} {reading : Reading bound α}
    (h : reading.Covers owed rest) (hearlier : debt earlier + excess rest ≤ excess tokens) :
    (reading.after earlier).Covers owed tokens := by
  unfold Covers at *
  rw [errors_after, rest_after, debt_append]
  omega

/-- What is owed to the second part of a sequence is owed to the sequence. -/
theorem Covers.andThen {first : Reading small α} {hle : small ≤ large}
    {next : (value : α) → (rest : List Token) → rest.length < small → Reading large β}
    (hfirst : first.Covers 0 tokens) (howed : 0 ≤ owed)
    (hnext : ∀ value rest hrest, (next value rest hrest).Covers owed rest) :
    (first.andThen hle next).Covers owed tokens := by
  cases first with
  | done value dropped rest shorter =>
      exact (hnext value rest shorter).after (hfirst.trans_eq (Int.add_zero _))
  | failed error dropped rest shorter =>
      have h : Covers owed tokens (failed error dropped rest shorter : Reading small α) :=
        hfirst.mono howed
      exact h

/-- Behind a fixed token, the brace that it opens is owed as well. -/
theorem covers_token_andThen {wanted : Token} {hle : tokens.length + 1 ≤ large}
    {next : (value : Unit) → (rest : List Token) → rest.length < tokens.length + 1 →
      Reading large β}
    (howed : 0 ≤ owed)
    (hnext : ∀ value rest hrest, (next value rest hrest).Covers (owed + wanted.weight) rest) :
    ((token wanted tokens).andThen hle next).Covers owed tokens := by
  cases tokens with
  | nil => exact (covers_refusedAtEnd (.unexpected wanted .eof)).mono howed
  | cons found rest =>
      by_cases heq : found = wanted
      · subst heq
        have h : ((next () rest (by simp)).after []).Covers (owed + found.weight) rest :=
          (hnext () rest _).after (by simp)
        simpa [token, Reading.andThen] using h.cons found
      · rw [token, if_neg heq]
        exact (covers_refused (α := β) (.unexpected wanted found) (found :: rest)).mono howed

/-- A statement of a list leaves its own debt, also if it is dropped. -/
theorem Covers.recover {first : Reading (small + 1) α}
    {next : (rest : List Token) → rest.length ≤ small → Reading large (List α)}
    (hfirst : first.Covers 0 tokens)
    (hnext : ∀ rest hrest, (next rest hrest).Covers owed rest) :
    (first.recover next).Covers owed tokens := by
  have hle : debt first.errors + excess first.rest ≤ excess tokens :=
    hfirst.trans_eq (Int.add_zero _)
  cases first with
  | done value dropped rest shorter => exact (hnext rest _).map.after hle
  | failed error dropped rest shorter => exact (hnext rest shorter).after hle

end Reading

open Reading

/-- The names behind a parameter, and the parenthesis. -/
theorem covers_readMoreParams (tokens : List Token) : (readMoreParams tokens).Covers 0 tokens := by
  fun_induction readMoreParams tokens with
  | case1 name rest ih => exact ((ih.map.widen).cons (.ident name)).cons .comma
  | case2 token rest hname =>
      refine ((((covers_refused _ rest).widen).cons token).cons .comma).mono ?_
      have hle := weight_badParameter_le token
      show _ - token.weight - 0 ≤ 0
      omega
  | case3 => exact (covers_refusedAtEnd _).cons .comma
  | case4 tokens => exact (covers_token rfl tokens).map

/-- A parameter list opens no block. -/
theorem covers_readParams (tokens : List Token) : (readParams tokens).Covers 0 tokens := by
  unfold readParams
  split
  · exact covers_refusedAtEnd _
  next rest => exact (covers_found [] rest).widen.cons .rparen
  next name rest => exact (covers_readMoreParams rest).map.widen.cons (.ident name)
  next token rest _ _ =>
    exact ((covers_refused _ rest).widen.cons token).mono
      (Int.sub_nonpos_of_le (weight_badParameter_le token))

mutual

/-- An expression covers the blocks in its operand and in what extends it. -/
theorem covers_readExpr (strength : Nat) (tokens : List Token) :
    (readExpr strength tokens).Covers 0 tokens := by
  rw [readExpr]
  exact (covers_readOperand tokens).andThen (Int.le_refl 0) fun operand rest hrest =>
    (covers_extendExpr strength operand rest).widen
termination_by tokens.length * 8 + 1

/-- What extends an expression covers its blocks, whatever it extends. -/
theorem covers_extendExpr (strength : Nat) (left : Expr) (tokens : List Token) :
    (extendExpr strength left tokens).Covers 0 tokens := by
  cases tokens with
  | nil =>
      rw [extendExpr]
      exact covers_found left []
  | cons token rest =>
      rw [extendExpr]
      cases hcontinuation : token.continuationAbove? strength with
      | none => exact covers_found left (token :: rest)
      | some continuation =>
          refine ((covers_continueExpr strength left continuation rest).widen.cons token).mono ?_
          rw [weight_of_continuationAbove? hcontinuation]
          exact Int.le_refl _
termination_by tokens.length * 8

/-- A continuation covers the blocks behind its token. -/
theorem covers_continueExpr (strength : Nat) (left : Expr) (continuation : Continuation)
    (tokens : List Token) : (continueExpr strength left continuation tokens).Covers 0 tokens := by
  cases continuation with
  | call =>
      rw [continueExpr]
      exact (covers_readList rfl tokens).andThen (Int.le_refl 0) fun args rest hrest =>
        (covers_extendExpr strength (.call left args) rest).widen
  | index =>
      rw [continueExpr]
      exact (covers_readExpr loosest tokens).andThen (Int.le_refl 0) fun position rest hrest =>
        (covers_token rfl rest).andThen (Int.le_refl 0) fun _ rest₁ hrest₁ =>
          (covers_extendExpr strength (.index left position) rest₁).widen
  | operator op =>
      rw [continueExpr]
      exact (covers_readExpr op.strength tokens).andThen (Int.le_refl 0) fun right rest hrest =>
        (covers_extendExpr strength (.binary left op right) rest).widen
termination_by tokens.length * 8 + 4

/-- An operand covers the blocks behind its first token. A hash literal is owed the brace in front
of its pairs. -/
theorem covers_readOperand (tokens : List Token) : (readOperand tokens).Covers 0 tokens := by
  rw [readOperand.eq_def]
  split
  · exact covers_refusedAtEnd _
  next name rest => exact (covers_found _ rest).cons _
  next digits rest =>
    split
    · exact (covers_found _ rest).cons _
    · exact (covers_refused _ rest).cons _
  next text rest => exact (covers_found _ rest).cons _
  next rest => exact (covers_found _ rest).cons _
  next rest => exact (covers_found _ rest).cons _
  next rest => exact (covers_readUnary .not rest).cons _
  next rest => exact (covers_readUnary .negate rest).cons _
  next rest => exact (covers_readGroup rest).cons _
  next rest => exact (covers_readCond rest).cons _
  next rest => exact (covers_readClosure rest).map.cons _
  next rest => exact (covers_readClosure rest).map.cons _
  next rest => exact (covers_readList rfl rest).map.cons _
  next rest => exact (covers_readPairs rest).map.cons _
  · exact ((covers_refused _ _).cons _).mono (Int.sub_nonpos_of_le (weight_noOperand_le _))
termination_by tokens.length * 8

/-- The operand of a unary operator covers its blocks. -/
theorem covers_readUnary (op : UnaryOp) (tokens : List Token) :
    (readUnary op tokens).Covers 0 tokens := by
  rw [readUnary]
  exact (covers_readExpr UnaryOp.strength tokens).map.widen
termination_by tokens.length * 8 + 2

/-- What stands in parentheses covers its blocks. -/
theorem covers_readGroup (tokens : List Token) : (readGroup tokens).Covers 0 tokens := by
  rw [readGroup]
  exact (covers_readExpr loosest tokens).andThen (Int.le_refl 0) fun inner rest hrest =>
    (covers_token rfl rest).map.widen
termination_by tokens.length * 8 + 2

/-- A conditional covers the blocks in its condition and its own ones. -/
theorem covers_readCond (tokens : List Token) : (readCond tokens).Covers 0 tokens := by
  rw [readCond]
  refine (covers_token rfl tokens).andThen (Int.le_refl 0) fun _ rest₁ hrest₁ => ?_
  refine (covers_readExpr loosest rest₁).andThen (Int.le_refl 0) fun condition rest₂ hrest₂ => ?_
  refine (covers_token rfl rest₂).andThen (Int.le_refl 0) fun _ rest₃ hrest₃ => ?_
  refine (covers_readBraced rest₃).andThen (Int.le_refl 0) fun consequence rest₄ hrest₄ => ?_
  exact (covers_readElse rest₄).map.widen
termination_by tokens.length * 8 + 2

/-- An alternative covers its block. -/
theorem covers_readElse (tokens : List Token) : (readElse tokens).Covers 0 tokens := by
  rw [readElse.eq_def]
  split
  next rest => exact (covers_readBraced rest).map.widen.cons _
  · exact covers_found none _
termination_by tokens.length * 8

/-- A function or macro covers its body. -/
theorem covers_readClosure (tokens : List Token) : (readClosure tokens).Covers 0 tokens := by
  rw [readClosure]
  refine (covers_token rfl tokens).andThen (Int.le_refl 0) fun _ rest₁ hrest₁ => ?_
  refine (covers_readParams rest₁).andThen (Int.le_refl 0) fun params rest₂ hrest₂ => ?_
  exact (covers_readBraced rest₂).map.widen
termination_by tokens.length * 8 + 5

/-- A block with its opening brace is owed nothing. -/
theorem covers_readBraced (tokens : List Token) : (readBraced tokens).Covers 0 tokens := by
  rw [readBraced]
  exact covers_token_andThen (Int.le_refl 0) fun _ rest hrest => (covers_readBlock rest).widen
termination_by tokens.length * 8 + 4

/-- A block is owed its opening brace: it closes that, or the text ends inside the block. -/
theorem covers_readBlock (tokens : List Token) : (readBlock tokens).Covers 1 tokens := by
  cases tokens with
  | nil =>
      rw [readBlock]
      exact covers_refusedAtEnd _
  | cons token rest =>
      by_cases hbrace : token = .rbrace
      · subst hbrace
        rw [readBlock]
        exact (covers_found [] rest).widen.cons _
      · rw [readBlock.eq_3 _ _ hbrace]
        exact (covers_readStmt (token :: rest)).recover fun rest₁ hrest₁ =>
          (covers_readBlock rest₁).widen
termination_by tokens.length * 8 + 3
decreasing_by all_goals simp_all only [List.length_cons]; omega

/-- A list whose closing token is no brace covers the blocks in its expressions. -/
theorem covers_readList {close : Token} (hclose : close.weight = 0) (tokens : List Token) :
    (readList close tokens).Covers 0 tokens := by
  rw [readList]
  split
  next hhead =>
    obtain ⟨rest, rfl⟩ := List.head?_eq_some_iff.mp hhead
    refine ((covers_found [] rest).widen.cons close).mono ?_
    rw [hclose]
    exact Int.le_refl _
  next hhead => exact covers_readItem hclose tokens
termination_by tokens.length * 8 + 3

/-- What follows an expression of a list covers its blocks. -/
theorem covers_readMoreItems {close : Token} (hclose : close.weight = 0) (tokens : List Token) :
    (readMoreItems close tokens).Covers 0 tokens := by
  rw [readMoreItems.eq_def]
  split
  next rest => exact (covers_readItem hclose rest).widen.cons _
  next hother => exact (covers_token hclose tokens).map
termination_by tokens.length * 8

/-- An expression of a list and what follows it cover their blocks. -/
theorem covers_readItem {close : Token} (hclose : close.weight = 0) (tokens : List Token) :
    (readItem close tokens).Covers 0 tokens := by
  rw [readItem]
  exact (covers_readExpr loosest tokens).andThen (Int.le_refl 0) fun item rest hrest =>
    (covers_readMoreItems hclose rest).map.widen
termination_by tokens.length * 8 + 2

/-- The pairs of a hash literal are owed the brace in front of them. -/
theorem covers_readPairs (tokens : List Token) : (readPairs tokens).Covers 1 tokens := by
  rw [readPairs.eq_def]
  split
  next rest => exact (covers_found [] rest).widen.cons _
  next hother =>
    refine (covers_readExpr loosest tokens).andThen Int.one_nonneg fun key rest₁ hrest₁ => ?_
    refine (covers_token rfl rest₁).andThen Int.one_nonneg fun _ rest₂ hrest₂ => ?_
    refine (covers_readExpr loosest rest₂).andThen Int.one_nonneg fun value rest₃ hrest₃ => ?_
    exact (covers_readMorePairs rest₃).map.widen
termination_by tokens.length * 8 + 2

/-- What follows a pair is owed the brace in front of all pairs. -/
theorem covers_readMorePairs (tokens : List Token) : (readMorePairs tokens).Covers 1 tokens := by
  rw [readMorePairs.eq_def]
  split
  next rest => exact (covers_found [] rest).widen.cons _
  next hother =>
    exact (covers_token rfl tokens).andThen Int.one_nonneg fun _ rest hrest =>
      (covers_readPairs rest).widen
termination_by tokens.length * 8 + 3

/-- A statement covers the blocks in its expression. What `let` cannot bind is not consumed. -/
theorem covers_readStmt (tokens : List Token) : (readStmt tokens).Covers 0 tokens := by
  rw [readStmt.eq_def]
  split
  next name rest => exact ((covers_readBinding name rest).widen.cons _).cons _
  next token rest hname => exact (covers_refused _ (token :: rest)).cons _
  · exact (covers_refusedAtEnd _).cons _
  next rest =>
    exact ((covers_readExpr loosest rest).andThen (Int.le_refl 0) fun value rest₁ hrest₁ =>
      (covers_statement (.ret value) rest₁).widen).cons _
  next hname hlet hlast hreturn =>
    exact (covers_readExpr loosest tokens).andThen (Int.le_refl 0) fun value rest hrest =>
      (covers_statement (.expr value) rest).widen
termination_by tokens.length * 8 + 2

/-- A binding covers the blocks in its value. -/
theorem covers_readBinding (name : String) (tokens : List Token) :
    (readBinding name tokens).Covers 0 tokens := by
  rw [readBinding]
  refine (covers_token rfl tokens).andThen (Int.le_refl 0) fun _ rest₁ hrest₁ => ?_
  exact (covers_readExpr loosest rest₁).andThen (Int.le_refl 0) fun value rest₂ hrest₂ =>
    (covers_statement (.bind name value) rest₂).widen
termination_by tokens.length * 8 + 2

end

/-! ## Programs -/

/-- The debt of a program is at most the excess of its tokens. -/
theorem debt_readProgram_le (tokens : List Token) :
    debt (readProgram tokens).errors ≤ excess tokens := by
  fun_induction attemptsInProgram tokens with
  | case1 =>
      rw [readProgram]
      exact Int.le_refl _
  | case2 token rest ih =>
      have hfirst : debt (errorsAt (token :: rest)) + excess (readStmt (token :: rest)).rest ≤
          excess (token :: rest) + 0 := covers_readStmt (token :: rest)
      rw [readProgram_cons, debt_append]
      omega

/-- Whatever the text, it has at most as many unterminated blocks as it has braces that are opened
and not closed, and errors that consume a closing brace. -/
theorem count_unterminated_le (source : String) :
    let errors := (parseWithErrors source).errors
    (errors.count .unterminatedBlock : Int) ≤
      excess (tokenize source) + errors.countP ParseError.swallowsBrace := by
  intro errors
  have hdebt : debt errors ≤ excess (lexemes source.toList) := debt_readProgram_le _
  have hexcess : excess (tokenize source) = excess (lexemes source.toList) := by
    rw [tokenize, excess_append]
    exact Int.add_zero _
  rw [debt_eq_sub] at hdebt
  omega

/-- No other error has the message of an unterminated block. -/
theorem eq_unterminatedBlock_of_message {error : ParseError}
    (h : error.message = ParseError.unterminatedBlock.message) : error = .unterminatedBlock := by
  have hhead : error.message.toList.head? = some 'u' := by
    rw [h]
    decide
  unfold ParseError.message at hhead
  split at hhead
  case h_6 => rfl
  all_goals simp at hhead

/-- If the braces of a text are balanced and none of its errors consumes a closing brace, then it
has no message about an unterminated block, whatever other errors it has. -/
theorem unterminated_not_mem_of_balanced (source : String) (hbalanced : Balanced (tokenize source))
    (hkept : ∀ error ∈ (parseWithErrors source).errors, error.swallowsBrace = false) :
    "unterminated block, expected \x7d" ∉
      (parseWithErrors source).errors.map ParseError.message := by
  intro hmem
  obtain ⟨error, herror, hmessage⟩ := List.mem_map.mp hmem
  rw [eq_unterminatedBlock_of_message hmessage] at herror
  have hcount : 0 < (parseWithErrors source).errors.count .unterminatedBlock :=
    List.count_pos_iff.mpr herror
  have hswallowed : (parseWithErrors source).errors.countP ParseError.swallowsBrace = 0 := by
    refine List.countP_eq_zero.mpr fun error herror => ?_
    simp [hkept error herror]
  have hle := count_unterminated_le source
  simp only [hbalanced.all_closed, hswallowed] at hle
  omega

/-- What `let` cannot bind stays where it is, so a name that is missing at the end of a block does
not take the brace away. -/
theorem unterminated_not_mem_of_balanced_let :
    (parseWithErrors "fn() \x7b let \x7d").errors = [.missingName .rbrace] ∧
    "unterminated block, expected \x7d" ∉
      (parseWithErrors "fn() \x7b let \x7d").errors.map ParseError.message := by
  have htokens : tokenize "fn() \x7b let \x7d" =
      [.kwFn, .lparen, .rparen, .lbrace, .kwLet, .rbrace, .eof] := by cbv
  have herrors : (parseWithErrors "fn() \x7b let \x7d").errors = [.missingName .rbrace] := by cbv
  refine ⟨herrors, unterminated_not_mem_of_balanced _ ?_ ?_⟩
  · rw [htokens]
    decide
  · rw [herrors]
    decide

/-- A value that is missing at the end of a block takes the brace away. The block is closed in the
text, and is still reported. -/
theorem unterminated_of_balanced_return :
    Balanced (tokenize "fn() \x7b return \x7d") ∧
    (parseWithErrors "fn() \x7b return \x7d").errors = [.noOperand .rbrace, .unterminatedBlock] ∧
    "unterminated block, expected \x7d" ∈
      (parseWithErrors "fn() \x7b return \x7d").errors.map ParseError.message := by
  have htokens : tokenize "fn() \x7b return \x7d" =
      [.kwFn, .lparen, .rparen, .lbrace, .kwReturn, .rbrace, .eof] := by cbv
  have herrors : (parseWithErrors "fn() \x7b return \x7d").errors =
      [.noOperand .rbrace, .unterminatedBlock] := by cbv
  refine ⟨?_, herrors, ?_⟩
  · rw [htokens]
    decide
  · rw [herrors]
    exact List.mem_cons_of_mem _ List.mem_cons_self

end MonkeyLang
