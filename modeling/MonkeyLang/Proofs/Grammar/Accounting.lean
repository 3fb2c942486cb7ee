import Mathlib
import MonkeyLang.Proofs.Grammar.Attempts
import MonkeyLang.Proofs.Grammar.Yields
import MonkeyLang.Proofs.Token.Lexer

/-!
# How the parser accounts for what it drops

`Reading.Accounts` ties a reading to the attempts inside it: what it drops is their errors, in
order, and every error is paid for by a token that is consumed. One lemma for each way to build a
reading says how attempts add up, and one for each reading function then follows its text. Read
`parseWithErrors_accounts` for what this comes to on a whole text.
-/

namespace MonkeyLang

namespace Reading

variable {α β : Type} {bound small large limit : Nat} {tokens : List Token}
  {attempts : List (List Token)}

/-- A reading from the front of `tokens` leaves the tokens at their end, and drops the errors of the
attempts inside it, in order. What it leaves and what it drops are together at most `limit`. -/
structure Accounts (tokens : List Token) (limit : Nat) (attempts : List (List Token))
    (reading : Reading bound α) : Prop where
  rest_suffix : reading.rest <:+ tokens
  attempts_le : ∀ start ∈ attempts, start.length ≤ limit
  dropped_eq : reading.dropped = attempts.flatMap errorsAt
  length_le : reading.dropped.length + reading.rest.length ≤ limit

/-- More tokens in front change nothing. -/
theorem Accounts.mono {tokens' : List Token} {limit' : Nat} {reading : Reading bound α}
    (h : reading.Accounts tokens limit attempts) (hsuffix : tokens <:+ tokens')
    (hle : limit ≤ limit') : reading.Accounts tokens' limit' attempts where
  rest_suffix := h.rest_suffix.trans hsuffix
  attempts_le start hstart := Nat.le_trans (h.attempts_le start hstart) hle
  dropped_eq := h.dropped_eq
  length_le := Nat.le_trans h.length_le hle

/-- A reading that drops nothing has no attempts to account for. -/
theorem accounts_nil {reading : Reading bound α} (hdropped : reading.dropped = [])
    (hsuffix : reading.rest <:+ tokens) (hle : reading.rest.length ≤ limit) :
    reading.Accounts tokens limit [] where
  rest_suffix := hsuffix
  attempts_le := by simp
  dropped_eq := hdropped
  length_le := by simpa [hdropped] using hle

/-- A construct that ends before `rest` has no attempts behind that. -/
theorem accounts_found (value : α) (rest : List Token) :
    (found value rest).Accounts rest rest.length [] :=
  accounts_nil rfl (List.suffix_refl _) (Nat.le_refl _)

/-- An error without a construct has no attempts. -/
theorem accounts_refused (error : ParseError) (rest : List Token) :
    (refused error rest : Reading _ α).Accounts rest rest.length [] :=
  accounts_nil rfl (List.suffix_refl _) (Nat.le_refl _)

/-- An error at the end of the tokens has no attempts. -/
theorem accounts_refusedAtEnd (error : ParseError) :
    (refusedAtEnd error : Reading bound α).Accounts tokens limit [] :=
  accounts_nil rfl (List.nil_suffix) (Nat.zero_le _)

/-- A fixed token has no attempts. -/
theorem accounts_token (wanted : Token) (tokens : List Token) :
    (token wanted tokens).Accounts tokens tokens.length [] := by
  unfold token
  split
  · exact accounts_refusedAtEnd _
  · split
    · exact accounts_nil rfl (List.suffix_cons _ _) (Nat.le_succ _)
    · exact accounts_refused _ _

/-- The end of a statement has no attempts. -/
theorem accounts_statement (statement : Stmt) (rest : List Token) :
    (Reading.statement statement rest).Accounts rest rest.length [] := by
  refine accounts_nil rfl ?_ (length_skipSemicolon_le rest)
  show skipSemicolon rest <:+ rest
  unfold skipSemicolon
  split
  · exact List.suffix_cons _ _
  · exact List.suffix_refl _

/-- A larger bound changes nothing. -/
theorem Accounts.widen {hle : small ≤ large} {reading : Reading small α}
    (h : reading.Accounts tokens limit attempts) :
    (reading.widen hle).Accounts tokens limit attempts := by
  cases reading <;> exact ⟨h.rest_suffix, h.attempts_le, h.dropped_eq, h.length_le⟩

/-- What is made of the construct changes nothing. -/
theorem Accounts.map {f : α → β} {reading : Reading bound α}
    (h : reading.Accounts tokens limit attempts) :
    (reading.map f).Accounts tokens limit attempts := by
  cases reading <;> exact ⟨h.rest_suffix, h.attempts_le, h.dropped_eq, h.length_le⟩

/-- What was dropped earlier comes first. -/
theorem dropped_after (earlier : List ParseError) (reading : Reading bound α) :
    (reading.after earlier).dropped = earlier ++ reading.dropped := by
  cases reading <;> rfl

/-- What was dropped earlier does not change what is left. -/
theorem rest_after (earlier : List ParseError) (reading : Reading bound α) :
    (reading.after earlier).rest = reading.rest := by
  cases reading <;> rfl

/-- What was dropped on the way to `rest` comes before what is dropped from there on. -/
theorem Accounts.after {earlier : List ParseError} {rest : List Token}
    {before : List (List Token)} {reading : Reading bound α}
    (h : reading.Accounts rest rest.length attempts) (hsuffix : rest <:+ tokens)
    (hbefore : ∀ start ∈ before, start.length ≤ limit)
    (hearlier : earlier = before.flatMap errorsAt) (hle : earlier.length + rest.length ≤ limit) :
    (reading.after earlier).Accounts tokens limit (before ++ attempts) where
  rest_suffix := by
    rw [rest_after]
    exact h.rest_suffix.trans hsuffix
  attempts_le start hstart := by
    rcases List.mem_append.mp hstart with hstart | hstart
    · exact hbefore start hstart
    · have hlater := h.attempts_le start hstart
      omega
  dropped_eq := by rw [dropped_after, List.flatMap_append, hearlier, h.dropped_eq]
  length_le := by
    have hlater := h.length_le
    rw [dropped_after, rest_after, List.length_append]
    omega

/-- A sequence accounts for the attempts in its first part, and for those behind it. -/
theorem Accounts.andThen {first : Reading small α} {hle : small ≤ large}
    {next : (value : α) → (rest : List Token) → rest.length < small → Reading large β}
    {later : (rest : List Token) → rest.length < small → List (List Token)}
    (hfirst : first.Accounts tokens limit attempts)
    (hnext : ∀ value rest hrest, (next value rest hrest).Accounts rest rest.length
      (later rest hrest)) :
    (first.andThen hle next).Accounts tokens limit (attempts ++ first.onward later) := by
  cases first with
  | done value dropped rest shorter =>
      exact (hnext value rest shorter).after hfirst.rest_suffix hfirst.attempts_le
        hfirst.dropped_eq hfirst.length_le
  | failed error dropped rest shorter =>
      change Accounts tokens limit (attempts ++ []) _
      rw [List.append_nil]
      exact ⟨hfirst.rest_suffix, hfirst.attempts_le, hfirst.dropped_eq, hfirst.length_le⟩

/-- A sequence whose second part has no attempts accounts for those in its first part. -/
theorem Accounts.andThen_nil {first : Reading small α} {hle : small ≤ large}
    {next : (value : α) → (rest : List Token) → rest.length < small → Reading large β}
    (hfirst : first.Accounts tokens limit attempts)
    (hnext : ∀ value rest hrest, (next value rest hrest).Accounts rest rest.length []) :
    (first.andThen hle next).Accounts tokens limit attempts := by
  have h : (first.andThen hle next).Accounts tokens limit
      (attempts ++ first.onward fun _ _ => []) := hfirst.andThen hnext
  cases first <;> simpa [onward] using h

/-- A statement that is tried in a list is an attempt of the list, and so are those behind it, also
if it is dropped. -/
theorem Accounts.recover {first : Reading (small + 1) α}
    {next : (rest : List Token) → rest.length ≤ small → Reading large (List α)}
    {later : List Token → List (List Token)} (hfirst : first.Accounts tokens small attempts)
    (hlength : tokens.length = small + 1) (herrors : first.errors = errorsAt tokens)
    (hnext : ∀ rest hrest, (next rest hrest).Accounts rest rest.length (later rest)) :
    (first.recover next).Accounts tokens (small + 1) (tokens :: later first.rest) := by
  have hself : ∀ start ∈ [tokens], start.length ≤ small + 1 := by simp [hlength]
  have herrors' : first.errors = [tokens].flatMap errorsAt := by simp [herrors]
  cases first with
  | done value dropped rest shorter =>
      exact (hnext rest (Nat.le_of_lt_succ shorter)).map.after hfirst.rest_suffix hself herrors'
        (Nat.le_succ_of_le hfirst.length_le)
  | failed error dropped rest shorter =>
      have hle : dropped.length + rest.length ≤ small := hfirst.length_le
      refine (hnext rest shorter).after hfirst.rest_suffix hself herrors' ?_
      rw [List.length_append, List.length_singleton]
      omega

/-- A construct that was read behind one token accounts for the same attempts. -/
theorem Accounts.cons {token : Token} {reading : Reading bound α}
    (h : reading.Accounts tokens tokens.length attempts) :
    reading.Accounts (token :: tokens) (token :: tokens).length attempts :=
  h.mono (List.suffix_cons _ _) (Nat.le_succ _)

/-- Behind the first token of a construct, at most the other tokens are left. -/
theorem Accounts.first {token : Token} {reading : Reading bound α}
    (h : reading.Accounts tokens tokens.length attempts) :
    reading.Accounts (token :: tokens) ((token :: tokens).length - 1) attempts :=
  h.mono (List.suffix_cons _ _) (Nat.le_refl _)

/-- What leaves one token less than there are leaves no more than there are. -/
theorem Accounts.loosen {reading : Reading bound α}
    (h : reading.Accounts tokens (tokens.length - 1) attempts) :
    reading.Accounts tokens tokens.length attempts :=
  h.mono (List.suffix_refl _) (Nat.sub_le _ _)

end Reading

open Reading

/-- A parameter list has no attempts behind its first name. -/
theorem accounts_readMoreParams (tokens : List Token) :
    (readMoreParams tokens).Accounts tokens tokens.length [] := by
  fun_induction readMoreParams tokens with
  | case1 name rest ih => exact ih.map.widen.cons.cons
  | case2 token rest hname => exact (accounts_refused _ rest).widen.cons.cons
  | case3 => exact accounts_refusedAtEnd _
  | case4 tokens => exact (accounts_token .rparen tokens).map

/-- A parameter list has no attempts. -/
theorem accounts_readParams (tokens : List Token) :
    (readParams tokens).Accounts tokens tokens.length [] := by
  unfold readParams
  split
  · exact accounts_refusedAtEnd _
  · exact (accounts_found _ _).widen.cons
  · exact (accounts_readMoreParams _).map.widen.cons
  · exact (accounts_refused _ _).widen.cons

mutual

/-- An expression accounts for the attempts in its operand and in what extends it. -/
theorem accounts_readExpr (strength : Nat) (tokens : List Token) :
    (readExpr strength tokens).Accounts tokens (tokens.length - 1)
      (attemptsInExpr strength tokens) := by
  rw [readExpr, attemptsInExpr]
  exact (accounts_readOperand tokens).andThen fun operand rest hrest =>
    (accounts_extendExpr strength operand rest).widen
termination_by tokens.length * 8 + 1

/-- What extends an expression accounts for its attempts, whatever it extends. -/
theorem accounts_extendExpr (strength : Nat) (left : Expr) (tokens : List Token) :
    (extendExpr strength left tokens).Accounts tokens tokens.length
      (attemptsInExtension strength tokens) := by
  cases tokens with
  | nil =>
      rw [extendExpr, attemptsInExtension]
      exact accounts_found left []
  | cons token rest =>
      rw [extendExpr, attemptsInExtension]
      cases token.continuationAbove? strength with
      | none => exact accounts_found left (token :: rest)
      | some continuation =>
          exact (accounts_continueExpr strength left continuation rest).widen.cons
termination_by tokens.length * 8

/-- A continuation accounts for the attempts behind its token. -/
theorem accounts_continueExpr (strength : Nat) (left : Expr) (continuation : Continuation)
    (tokens : List Token) :
    (continueExpr strength left continuation tokens).Accounts tokens tokens.length
      (attemptsInContinuation strength continuation tokens) := by
  cases continuation with
  | call =>
      rw [continueExpr, attemptsInContinuation]
      exact (accounts_readList .rparen tokens).andThen fun args rest hrest =>
        (accounts_extendExpr strength (.call left args) rest).widen
  | index =>
      rw [continueExpr, attemptsInContinuation]
      exact (accounts_readExpr loosest tokens).loosen.andThen fun position rest hrest =>
        (accounts_token .rbracket rest).andThen fun _ rest₁ hrest₁ =>
          (accounts_extendExpr strength (.index left position) rest₁).widen
  | operator op =>
      rw [continueExpr, attemptsInContinuation]
      exact (accounts_readExpr op.strength tokens).loosen.andThen fun right rest hrest =>
        (accounts_extendExpr strength (.binary left op right) rest).widen
termination_by tokens.length * 8 + 4

/-- An operand accounts for the attempts behind its first token. -/
theorem accounts_readOperand (tokens : List Token) :
    (readOperand tokens).Accounts tokens (tokens.length - 1) (attemptsInOperand tokens) := by
  rw [readOperand.eq_def]
  split
  · rw [attemptsInOperand.eq_def]
    exact accounts_refusedAtEnd _
  next name rest =>
    rw [attemptsInOperand.eq_def]
    exact (accounts_found _ rest).first
  next digits rest =>
    rw [attemptsInOperand.eq_def]
    dsimp only
    split
    · exact (accounts_found _ rest).first
    · exact (accounts_refused _ rest).first
  next text rest =>
    rw [attemptsInOperand.eq_def]
    exact (accounts_found _ rest).first
  next rest =>
    rw [attemptsInOperand.eq_def]
    exact (accounts_found _ rest).first
  next rest =>
    rw [attemptsInOperand.eq_def]
    exact (accounts_found _ rest).first
  next rest =>
    rw [attemptsInOperand]
    exact (accounts_readUnary .not rest).first
  next rest =>
    rw [attemptsInOperand]
    exact (accounts_readUnary .negate rest).first
  next rest =>
    rw [attemptsInOperand]
    exact (accounts_readGroup rest).first
  next rest =>
    rw [attemptsInOperand]
    exact (accounts_readCond rest).first
  next rest =>
    rw [attemptsInOperand]
    exact (accounts_readClosure rest).map.first
  next rest =>
    rw [attemptsInOperand]
    exact (accounts_readClosure rest).map.first
  next rest =>
    rw [attemptsInOperand]
    exact (accounts_readList .rbracket rest).map.first
  next rest =>
    rw [attemptsInOperand]
    exact (accounts_readPairs rest).map.first
  · -- No other token starts an operand.
    rw [attemptsInOperand]
    · exact (accounts_refused _ _).first
    all_goals simp_all
termination_by tokens.length * 8

/-- The operand of a unary operator accounts for its attempts. -/
theorem accounts_readUnary (op : UnaryOp) (tokens : List Token) :
    (readUnary op tokens).Accounts tokens tokens.length
      (attemptsInExpr UnaryOp.strength tokens) := by
  rw [readUnary]
  exact (accounts_readExpr UnaryOp.strength tokens).loosen.map.widen
termination_by tokens.length * 8 + 2

/-- What stands in parentheses accounts for its attempts. -/
theorem accounts_readGroup (tokens : List Token) :
    (readGroup tokens).Accounts tokens tokens.length (attemptsInExpr loosest tokens) := by
  rw [readGroup]
  exact (accounts_readExpr loosest tokens).loosen.andThen_nil fun inner rest hrest =>
    (accounts_token .rparen rest).map.widen
termination_by tokens.length * 8 + 2

/-- A conditional accounts for the attempts in its condition and its blocks. -/
theorem accounts_readCond (tokens : List Token) :
    (readCond tokens).Accounts tokens tokens.length (attemptsInCond tokens) := by
  rw [readCond, attemptsInCond]
  refine (accounts_token .lparen tokens).andThen fun _ rest₁ hrest₁ => ?_
  refine (accounts_readExpr loosest rest₁).loosen.andThen fun condition rest₂ hrest₂ => ?_
  refine (accounts_token .rparen rest₂).andThen fun _ rest₃ hrest₃ => ?_
  refine (accounts_readBraced rest₃).andThen fun consequence rest₄ hrest₄ => ?_
  exact (accounts_readElse rest₄).map.widen
termination_by tokens.length * 8 + 2

/-- An alternative accounts for the attempts in its block. -/
theorem accounts_readElse (tokens : List Token) :
    (readElse tokens).Accounts tokens tokens.length (attemptsInElse tokens) := by
  rw [readElse.eq_def]
  split
  next rest =>
    rw [attemptsInElse]
    exact (accounts_readBraced rest).map.widen.cons
  next hother =>
    rw [attemptsInElse.eq_2 _ hother]
    exact accounts_found none _
termination_by tokens.length * 8

/-- A function or macro accounts for the attempts in its body. -/
theorem accounts_readClosure (tokens : List Token) :
    (readClosure tokens).Accounts tokens tokens.length (attemptsInClosure tokens) := by
  rw [readClosure, attemptsInClosure]
  refine (accounts_token .lparen tokens).andThen fun _ rest₁ hrest₁ => ?_
  refine (accounts_readParams rest₁).andThen fun params rest₂ hrest₂ => ?_
  exact (accounts_readBraced rest₂).map.widen
termination_by tokens.length * 8 + 5

/-- A block accounts for the attempts behind its opening brace. -/
theorem accounts_readBraced (tokens : List Token) :
    (readBraced tokens).Accounts tokens tokens.length (attemptsInBraced tokens) := by
  rw [readBraced, attemptsInBraced]
  exact (accounts_token .lbrace tokens).andThen fun _ rest hrest => (accounts_readBlock rest).widen
termination_by tokens.length * 8 + 4

/-- A block accounts for each of its statements, whether they are read or dropped. -/
theorem accounts_readBlock (tokens : List Token) :
    (readBlock tokens).Accounts tokens tokens.length (attemptsInBlock tokens) := by
  cases tokens with
  | nil =>
      rw [readBlock, attemptsInBlock]
      exact accounts_refusedAtEnd _
  | cons token rest =>
      by_cases hbrace : token = .rbrace
      · subst hbrace
        rw [readBlock, attemptsInBlock]
        exact (accounts_found [] rest).widen.cons
      · rw [readBlock.eq_3 _ _ hbrace, attemptsInBlock.eq_3 _ _ hbrace]
        exact (accounts_readStmt (token :: rest)).recover rfl rfl fun rest₁ hrest₁ =>
          (accounts_readBlock rest₁).widen
termination_by tokens.length * 8 + 3
decreasing_by all_goals simp_all only [List.length_cons]; omega

/-- A list accounts for the attempts in its expressions. -/
theorem accounts_readList (close : Token) (tokens : List Token) :
    (readList close tokens).Accounts tokens tokens.length (attemptsInList close tokens) := by
  rw [readList, attemptsInList]
  split
  next hclose =>
    exact (accounts_found [] tokens.tail).widen.mono (List.tail_suffix _)
      (by rw [List.length_tail]; exact Nat.sub_le _ _)
  next hclose => exact accounts_readItem close tokens
termination_by tokens.length * 8 + 3

/-- What follows an expression of a list accounts for its attempts. -/
theorem accounts_readMoreItems (close : Token) (tokens : List Token) :
    (readMoreItems close tokens).Accounts tokens tokens.length
      (attemptsInMoreItems close tokens) := by
  rw [readMoreItems.eq_def]
  split
  next rest =>
    rw [attemptsInMoreItems]
    exact (accounts_readItem close rest).widen.cons
  next hother =>
    rw [attemptsInMoreItems.eq_2 _ _ hother]
    exact (accounts_token close tokens).map
termination_by tokens.length * 8

/-- An expression of a list and what follows it account for their attempts. -/
theorem accounts_readItem (close : Token) (tokens : List Token) :
    (readItem close tokens).Accounts tokens tokens.length (attemptsInItem close tokens) := by
  rw [readItem, attemptsInItem]
  exact (accounts_readExpr loosest tokens).loosen.andThen fun item rest hrest =>
    (accounts_readMoreItems close rest).map.widen
termination_by tokens.length * 8 + 2

/-- The pairs of a hash literal account for the attempts in keys and values. -/
theorem accounts_readPairs (tokens : List Token) :
    (readPairs tokens).Accounts tokens tokens.length (attemptsInPairs tokens) := by
  rw [readPairs.eq_def]
  split
  next rest =>
    rw [attemptsInPairs]
    exact (accounts_found [] rest).widen.cons
  next hother =>
    rw [attemptsInPairs.eq_2 _ hother]
    refine (accounts_readExpr loosest tokens).loosen.andThen fun key rest₁ hrest₁ => ?_
    refine (accounts_token .colon rest₁).andThen fun _ rest₂ hrest₂ => ?_
    refine (accounts_readExpr loosest rest₂).loosen.andThen fun value rest₃ hrest₃ => ?_
    exact (accounts_readMorePairs rest₃).map.widen
termination_by tokens.length * 8 + 2

/-- What follows a pair accounts for its attempts. -/
theorem accounts_readMorePairs (tokens : List Token) :
    (readMorePairs tokens).Accounts tokens tokens.length (attemptsInMorePairs tokens) := by
  rw [readMorePairs.eq_def]
  split
  next rest =>
    rw [attemptsInMorePairs]
    exact (accounts_found [] rest).widen.cons
  next hother =>
    rw [attemptsInMorePairs.eq_2 _ hother]
    exact (accounts_token .comma tokens).andThen fun _ rest hrest =>
      (accounts_readPairs rest).widen
termination_by tokens.length * 8 + 3

/-- A statement accounts for the attempts in its expression. -/
theorem accounts_readStmt (tokens : List Token) :
    (readStmt tokens).Accounts tokens (tokens.length - 1) (attemptsInStmt tokens) := by
  rw [readStmt.eq_def]
  split
  next name rest =>
    rw [attemptsInStmt]
    exact (accounts_readBinding name rest).widen.cons.first
  next token rest hname =>
    rw [attemptsInStmt.eq_2 _ (by simpa using hname)]
    exact (accounts_refused _ (token :: rest)).first
  · rw [attemptsInStmt.eq_2 _ (by simp)]
    exact accounts_refusedAtEnd _
  next rest =>
    rw [attemptsInStmt]
    exact ((accounts_readExpr loosest rest).loosen.andThen_nil fun value rest₁ hrest₁ =>
      (accounts_statement (.ret value) rest₁).widen).first
  next hname hlet hlast hreturn =>
    have hbare : ∀ rest, tokens = .kwLet :: rest → False
      | [] => hlast
      | token :: rest => hlet token rest
    rw [attemptsInStmt.eq_4 _ hname hbare hreturn]
    exact (accounts_readExpr loosest tokens).andThen_nil fun value rest hrest =>
      (accounts_statement (.expr value) rest).widen
termination_by tokens.length * 8 + 2

/-- A binding accounts for the attempts in its value. -/
theorem accounts_readBinding (name : String) (tokens : List Token) :
    (readBinding name tokens).Accounts tokens tokens.length
      ((Reading.token .assign tokens).onward fun rest _ => attemptsInExpr loosest rest) := by
  rw [readBinding]
  refine (accounts_token .assign tokens).andThen fun _ rest₁ hrest₁ => ?_
  exact (accounts_readExpr loosest rest₁).loosen.andThen_nil fun value rest₂ hrest₂ =>
    (accounts_statement (.bind name value) rest₂).widen
termination_by tokens.length * 8 + 2

end

/-! ## Programs -/

/-- What a successful reading leaves of errors is what was dropped inside it. -/
theorem Reading.errors_of_ne_none {α : Type} {bound : Nat} {reading : Reading bound α}
    (hvalue : reading.value? ≠ none) : reading.errors = reading.dropped := by
  cases reading with
  | done => rfl
  | failed => exact absurd rfl hvalue

/-- A failed reading leaves one error more than what was dropped inside it. -/
theorem Reading.errors_of_none {α : Type} {bound : Nat} {reading : Reading bound α}
    (hvalue : reading.value? = none) : ∃ error, reading.errors = reading.dropped ++ [error] := by
  cases reading with
  | done => cases hvalue
  | failed error => exact ⟨error, rfl⟩

/-- A statement that is read leaves the errors of the attempts inside it. -/
theorem errorsAt_of_ne_none {tokens : List Token} (hread : stmtAt? tokens ≠ none) :
    errorsAt tokens = (attemptsInStmt tokens).flatMap errorsAt :=
  (errors_of_ne_none hread).trans (accounts_readStmt tokens).dropped_eq

/-- A statement that cannot be read leaves the errors of the attempts inside it and one more. -/
theorem errorsAt_of_none {tokens : List Token} (hread : stmtAt? tokens = none) :
    ∃ error, errorsAt tokens = (attemptsInStmt tokens).flatMap errorsAt ++ [error] := by
  obtain ⟨error, herrors⟩ := errors_of_none hread
  exact ⟨error, by rw [errorsAt, herrors, (accounts_readStmt tokens).dropped_eq]⟩

/-- What is left behind a statement are the tokens that it does not consume. -/
theorem consumedAt_append_rest (tokens : List Token) :
    consumedAt tokens ++ (readStmt tokens).rest = tokens := by
  have hrest := List.suffix_iff_eq_drop.mp (accounts_readStmt tokens).rest_suffix
  calc consumedAt tokens ++ (readStmt tokens).rest
      = consumedAt tokens ++ tokens.drop (tokens.length - (readStmt tokens).rest.length) :=
        congrArg _ hrest
    _ = tokens := List.take_append_drop _ _

/-- No more errors come of a statement than it consumes tokens. -/
theorem length_errorsAt_add_rest_le (token : Token) (tokens : List Token) :
    (errorsAt (token :: tokens)).length + (readStmt (token :: tokens)).rest.length ≤
      (token :: tokens).length := by
  have hle := (accounts_readStmt (token :: tokens)).length_le
  by_cases hread : stmtAt? (token :: tokens) = none
  · obtain ⟨error, herrors⟩ := errors_of_none hread
    rw [errorsAt, herrors, List.length_append, List.length_singleton]
    simp only [List.length_cons] at hle ⊢
    omega
  · rw [errorsAt, errors_of_ne_none hread]
    exact Nat.le_trans hle (Nat.sub_le _ _)

/-- The first statement of a program is kept if it is read, its errors are kept in any case, and
reading goes on behind it. -/
theorem readProgram_cons (token : Token) (rest : List Token) :
    readProgram (token :: rest) =
      ⟨(stmtAt? (token :: rest)).toList ++ (readProgram (readStmt (token :: rest)).rest).program,
        errorsAt (token :: rest) ++ (readProgram (readStmt (token :: rest)).rest).errors⟩ := by
  rw [readProgram, stmtAt?, errorsAt]
  cases readStmt (token :: rest) with
  | done => rfl
  | failed error dropped =>
      rw [errors, List.append_assoc]
      rfl

/-- A program is the statements that could be read, and its errors are those of all attempts. -/
theorem readProgram_eq_attempts (tokens : List Token) :
    readProgram tokens =
      ⟨(attemptsInProgram tokens).filterMap stmtAt?,
        (attemptsInProgram tokens).flatMap errorsAt⟩ := by
  fun_induction attemptsInProgram tokens with
  | case1 =>
      rw [readProgram]
      rfl
  | case2 token rest ih =>
      rw [readProgram_cons, ih, List.flatMap_cons, List.filterMap_cons]
      cases stmtAt? (token :: rest) <;> rfl

/-- The attempts of a program consume all of its tokens. -/
theorem flatMap_consumedAt (tokens : List Token) :
    (attemptsInProgram tokens).flatMap consumedAt = tokens := by
  fun_induction attemptsInProgram tokens with
  | case1 => rfl
  | case2 token rest ih => rw [List.flatMap_cons, ih, consumedAt_append_rest]

/-- A program has no more errors than tokens. -/
theorem length_flatMap_errorsAt_le (tokens : List Token) :
    ((attemptsInProgram tokens).flatMap errorsAt).length ≤ tokens.length := by
  fun_induction attemptsInProgram tokens with
  | case1 => exact Nat.le_refl _
  | case2 token rest ih =>
      have hle := length_errorsAt_add_rest_le token rest
      rw [List.flatMap_cons, List.length_append]
      omega

/-- Nothing is tried inside a statement at the end of the tokens. -/
theorem attemptsInStmt_nil : attemptsInStmt [] = [] := by
  simp [attemptsInStmt, attemptsInExpr, attemptsInOperand, readOperand, refusedAtEnd, onward]

/-- An attempt inside another one is made at fewer tokens. -/
theorem length_lt_of_mem_attemptsInStmt {outer tokens : List Token}
    (hmem : tokens ∈ attemptsInStmt outer) : tokens.length < outer.length := by
  cases outer with
  | nil =>
      rw [attemptsInStmt_nil] at hmem
      cases hmem
  | cons token rest => exact Nat.lt_succ_of_le ((accounts_readStmt _).attempts_le tokens hmem)

/-- A statement leaves no errors exactly if it is read and no attempt inside it leaves any. -/
theorem errorsAt_eq_nil_iff {tokens : List Token} :
    errorsAt tokens = [] ↔
      stmtAt? tokens ≠ none ∧ ∀ inner ∈ attemptsInStmt tokens, errorsAt inner = [] := by
  by_cases hread : stmtAt? tokens = none
  · obtain ⟨error, herrors⟩ := errorsAt_of_none hread
    simp [herrors, hread]
  · simp [errorsAt_of_ne_none hread, hread]

/-- A program has no errors exactly if no attempt at any depth fails. -/
theorem flatMap_errorsAt_eq_nil_iff {program : List Token} :
    (attemptsInProgram program).flatMap errorsAt = [] ↔
      ∀ tokens, Attempted program tokens → stmtAt? tokens ≠ none := by
  rw [List.flatMap_eq_nil_iff]
  constructor
  · intro htop tokens hattempted
    -- An attempt that leaves no errors has only such attempts inside it.
    have hclean : errorsAt tokens = [] := by
      induction hattempted with
      | top hmem => exact htop _ hmem
      | nested _ hmem ih => exact (errorsAt_eq_nil_iff.mp ih).2 _ hmem
    exact (errorsAt_eq_nil_iff.mp hclean).1
  · intro hall
    have hclean : ∀ tokens, Attempted program tokens → errorsAt tokens = [] := by
      intro tokens
      induction hlength : tokens.length using Nat.strongRecOn generalizing tokens with
      | _ length ih =>
          intro hattempted
          refine errorsAt_eq_nil_iff.mpr ⟨hall tokens hattempted, fun inner hmem => ?_⟩
          exact ih _ (hlength ▸ length_lt_of_mem_attemptsInStmt hmem) inner rfl
            (hattempted.nested hmem)
    exact fun tokens hmem => hclean tokens (.top hmem)

/-- Whatever the text, its statements are tried one after the other and together consume all of its
tokens. At any depth, a statement that is read leaves exactly the errors of the attempts inside it,
and one that is dropped leaves exactly one more. So there are no errors exactly if no statement is
dropped at any depth, and never more errors than tokens. -/
theorem parseWithErrors_accounts (source : String) :
    let tokens := lexemes source.toList
    let result := parseWithErrors source
    (attemptsInProgram tokens).flatMap consumedAt = tokens ∧
    result.program = (attemptsInProgram tokens).filterMap stmtAt? ∧
    result.errors = (attemptsInProgram tokens).flatMap errorsAt ∧
    (∀ start, Attempted tokens start →
      (stmtAt? start = none →
        ∃ error, errorsAt start = (attemptsInStmt start).flatMap errorsAt ++ [error]) ∧
      (stmtAt? start ≠ none → errorsAt start = (attemptsInStmt start).flatMap errorsAt)) ∧
    (result.errors = [] ↔ ∀ start, Attempted tokens start → stmtAt? start ≠ none) ∧
    result.errors.length ≤ ((tokenize source).filter (· ≠ .eof)).length := by
  intro tokens result
  have hresult : result = _ := readProgram_eq_attempts tokens
  have herrors : result.errors = (attemptsInProgram tokens).flatMap errorsAt :=
    congrArg Parse.errors hresult
  have hcount : (tokenize source).filter (· ≠ .eof) = tokens := by
    have hmem : ∀ token ∈ tokens, decide (token ≠ .eof) = true := fun token hmem =>
      decide_eq_true fun heof => eof_not_mem_lexemes _ (heof ▸ hmem)
    rw [tokenize, List.filter_append, List.filter_eq_self.mpr hmem]
    exact List.append_nil tokens
  refine ⟨flatMap_consumedAt tokens, congrArg Parse.program hresult, herrors,
    fun start _ => ⟨errorsAt_of_none, errorsAt_of_ne_none⟩, ?_, ?_⟩
  · rw [herrors, flatMap_errorsAt_eq_nil_iff]
  · rw [herrors, hcount]
    exact length_flatMap_errorsAt_le tokens

/-- A function is read although two statements of its body are dropped: the first has no name to
bind, and the second starts with the semicolon that is left of it. -/
theorem parseWithErrors_accounts_dropped_in_block :
    let body : List Token := [.kwLet, .semicolon, .ident "x", .rbrace]
    let tokens : List Token := [.kwFn, .lparen, .rparen, .lbrace] ++ body
    lexemes "fn() \x7b let; x \x7d".toList = tokens ∧
    Attempted tokens tokens ∧ stmtAt? tokens ≠ none ∧
    errorsAt tokens = (attemptsInStmt tokens).flatMap errorsAt ∧
    Attempted tokens body ∧ stmtAt? body = none ∧
    (∃ error, errorsAt body = (attemptsInStmt body).flatMap errorsAt ++ [error]) ∧
    (parseWithErrors "fn() \x7b let; x \x7d").errors =
      [.missingName .semicolon, .noOperand .semicolon] := by
  intro body tokens
  have hlexemes : lexemes "fn() \x7b let; x \x7d".toList = tokens := by
    dsimp only [tokens, body]
    cbv
  have hprogram : attemptsInProgram tokens = [tokens] := by
    dsimp only [tokens, body]
    cbv
  have htop : Attempted tokens tokens := .top (hprogram ▸ List.mem_singleton_self tokens)
  have hinner : attemptsInStmt tokens =
      [body, [.semicolon, .ident "x", .rbrace], [.ident "x", .rbrace]] := by
    dsimp only [tokens, body]
    cbv
  have hbody : Attempted tokens body := htop.nested (hinner ▸ List.mem_cons_self)
  have hread : stmtAt? tokens = some (.expr (.function [] [.expr (.ident "x")])) := by
    dsimp only [tokens, body]
    cbv
  have hdropped : stmtAt? body = none := by
    dsimp only [body]
    cbv
  have herrors : errorsAt tokens = [.missingName .semicolon, .noOperand .semicolon] := by
    dsimp only [tokens, body]
    cbv
  obtain ⟨-, -, hall, hattempts, -⟩ := parseWithErrors_accounts "fn() \x7b let; x \x7d"
  rw [hlexemes] at hall hattempts
  have hread' : stmtAt? tokens ≠ none := by
    rw [hread]
    exact Option.some_ne_none _
  refine ⟨hlexemes, htop, hread', (hattempts tokens htop).2 hread', hbody, hdropped,
    (hattempts body hbody).1 hdropped, ?_⟩
  rw [hall, hprogram, List.flatMap_singleton, herrors]

end MonkeyLang
