import MonkeyLang.Proofs.Grammar.Strength
import MonkeyLang.Proofs.Grammar.Yields

/-!
# What is in the grammar is read

Each rule of the grammar is matched by a lemma about the function that reads the construct, and
`Phrase.reads` puts them together along a derivation. A phrase is read in front of any tokens that
may follow it on its level: the parser reads it and goes on extending it with what follows
(`Reads`). That form carries the induction through left operands, where the rest of the expression
is read by the same loop.
-/

namespace MonkeyLang.Grammar

open Reading

/-- What comes next may follow an expression on the level: it is not `else`, and if it continues
an expression then on the level or on a looser one. -/
def Follows (level : Level) (rest : List Token) : Prop :=
  ∀ token ∈ rest.head?, token ≠ .kwElse ∧
    ∀ continuation, token.continuation? = some continuation → continuation.level.rank ≤ level.rank

/-- What comes next ends an expression: it is not `else` and continues nothing. -/
def Ends (rest : List Token) : Prop :=
  ∀ token ∈ rest.head?, token ≠ .kwElse ∧ ¬ token.Continues

/-- A first token in an expression is none of those that may come after one or start another kind of
statement. -/
def Begins (tokens : List Token) : Prop :=
  ∃ token rest, tokens = token :: rest ∧
    token ∉ [Token.semicolon, .rbrace, .rparen, .rbracket, .kwElse, .kwLet, .kwReturn]

variable {strength : Nat} {level : Level} {tokens rest : List Token} {expr : Expr}

theorem ends_cons {token : Token} (helse : token ≠ .kwElse) (hcontinues : ¬ token.Continues) :
    Ends (token :: rest) := by
  intro next hnext
  obtain rfl : token = next := by simpa using hnext
  exact ⟨helse, hcontinues⟩

theorem ends_nil : Ends [] := by
  intro next hnext
  simp at hnext

/-- What ends an expression may follow it on any level. -/
theorem Ends.follows (h : Ends rest) : Follows level rest :=
  fun token htoken => ⟨(h token htoken).1, fun continuation hcontinuation =>
    absurd (Token.continues_iff.mpr ⟨continuation, hcontinuation⟩) (h token htoken).2⟩

/-- What ends an expression stops the loosest context. -/
theorem Ends.stops (h : Ends rest) : Stops loosest rest :=
  stops_loosest.mpr fun token htoken => (h token htoken).2

/-- What may follow on a loose level may follow on a tight one. -/
theorem Follows.mono {loose tight : Level} (hle : loose.rank ≤ tight.rank)
    (h : Follows loose rest) : Follows tight rest :=
  fun token htoken => ⟨(h token htoken).1, fun continuation hcontinuation =>
    Nat.le_trans ((h token htoken).2 continuation hcontinuation) hle⟩

/-- What may follow on the level of an operator stops the context of that operator. -/
theorem Follows.stops (hunary : level.rank ≤ Level.unary.rank) (h : Follows level rest) :
    Stops level.rank rest := by
  intro token htoken continuation hcontinuation
  have hle := (h token htoken).2 continuation hcontinuation
  cases continuation with
  | operator op =>
      rw [Continuation.strength, op.strength_eq_rank]
      exact hle
  | call | index => exact absurd (Nat.le_trans hle hunary) (by decide)

/-- Before a token that stops the context an expression is not extended. -/
theorem yields_extendExpr_of_stops (h : Stops strength rest) :
    (extendExpr strength expr rest).Yields expr rest := by
  cases rest with
  | nil =>
      rw [extendExpr]
      exact yields_found.mpr ⟨rfl, rfl⟩
  | cons token rest =>
      rw [extendExpr, stops_cons.mp h]
      exact yields_found.mpr ⟨rfl, rfl⟩

/-- Before a token that continues it more strongly than the context an expression is extended. -/
theorem yields_extendExpr {token : Token} {continuation : Continuation} {left : Expr}
    (htoken : token.continuation? = some continuation) (hlt : strength < continuation.strength)
    (h : (continueExpr strength left continuation tokens).Yields expr rest) :
    (extendExpr strength left (token :: tokens)).Yields expr rest := by
  rw [extendExpr, Token.continuationAbove?_eq_some.mpr ⟨htoken, hlt⟩]
  exact yields_widen.mpr h

/-! ## Expressions -/

/-- The tokens are read as the expression, which is then extended with what follows. A context
that is looser than the level reads them, and so does the context of a unary operator if the level
is that of unary operators. -/
def Reads (level : Level) (tokens : List Token) (expr : Expr) : Prop :=
  ∀ ⦃strength : Nat⦄ ⦃rest left : List Token⦄ ⦃result : Expr⦄, strength ≤ UnaryOp.strength →
    (strength < level.rank ∨ level = .unary) → Follows level rest →
    (extendExpr strength expr rest).Yields result left →
    (readExpr strength (tokens ++ rest)).Yields result left

/-- The tokens are read as an operand, whatever follows but `else`. -/
def ReadsOperand (tokens : List Token) (expr : Expr) : Prop :=
  ∀ ⦃rest : List Token⦄, (∀ token ∈ rest.head?, token ≠ .kwElse) →
    (readOperand (tokens ++ rest)).Yields expr rest

/-- A whole expression is read up to what ends it. -/
theorem Reads.whole (h : Reads .equality tokens expr) (hends : Ends rest) :
    (readExpr loosest (tokens ++ rest)).Yields expr rest :=
  h (Nat.zero_le _) (.inl (by decide)) hends.follows (yields_extendExpr_of_stops hends.stops)

/-- What is read as an operand is read as a chain. -/
theorem ReadsOperand.reads (h : ReadsOperand tokens expr) : Reads .chain tokens expr := by
  intro strength rest left result _ _ hfollows hextend
  have hoperand := h fun token htoken => (hfollows token htoken).1
  rw [readExpr]
  exact yields_andThen.mpr
    ⟨expr, rest, hoperand.length_lt, hoperand, yields_widen.mpr hextend⟩

theorem Reads.loosen {loose tight : Level} (hle : loose.rank ≤ tight.rank)
    (h : Reads tight tokens expr) : Reads loose tokens expr := by
  intro strength rest left result hstrength hlevel hfollows hextend
  refine h hstrength ?_ (hfollows.mono hle) hextend
  rcases hlevel with hlt | rfl
  · exact .inl (Nat.lt_of_lt_of_le hlt hle)
  · -- Only chains are tighter than unary operators, and every context reads them.
    cases tight with
    | unary => exact .inr rfl
    | chain => exact .inl (Nat.lt_succ_of_le hstrength)
    | _ => exact absurd hle (by decide)

theorem Reads.binary {op : BinaryOp} {tight : Level} {leftTokens rightTokens : List Token}
    {left right : Expr} (hleft : Reads op.level leftTokens left)
    (htight : op.level.rank < tight.rank) (hright : Reads tight rightTokens right) :
    Reads op.level (leftTokens ++ op.token :: rightTokens) (.binary left op right) := by
  intro strength rest last result hstrength hlevel hfollows hextend
  rw [List.append_assoc, List.cons_append]
  have hunary := Nat.le_of_lt op.level_rank_lt_unary
  have htoken := Token.continuation?_eq_operator.mpr (Eq.refl op.token)
  have hlt : strength < op.level.rank := by
    rcases hlevel with hlt | hunary
    · exact hlt
    · exact absurd hunary (by cases op <;> decide)
  have hnext : Follows op.level (op.token :: (rightTokens ++ rest)) := by
    intro token htoken'
    obtain rfl : op.token = token := by simpa using htoken'
    refine ⟨by cases op <;> decide, fun continuation hcontinuation => ?_⟩
    obtain rfl := Option.some.inj (htoken.symm.trans hcontinuation)
    exact Nat.le_refl _
  -- The right operand ends where the context of the operator does.
  have hoperand : (readExpr op.strength (rightTokens ++ rest)).Yields right rest := by
    refine hright ?_ ?_ (hfollows.mono (Nat.le_of_lt htight)) (yields_extendExpr_of_stops ?_)
    · rw [op.strength_eq_rank]
      exact hunary
    · rw [op.strength_eq_rank]
      exact .inl htight
    · rw [op.strength_eq_rank]
      exact hfollows.stops hunary
  refine hleft hstrength hlevel hnext (yields_extendExpr htoken ?_ ?_)
  · rw [Continuation.strength, op.strength_eq_rank]
    exact hlt
  · rw [continueExpr]
    exact yields_andThen.mpr
      ⟨right, rest, hoperand.length_lt, hoperand, yields_widen.mpr hextend⟩

theorem Reads.unary {op : UnaryOp} {operand : Expr} (h : Reads .unary tokens operand) :
    Reads .unary (op.token :: tokens) (.unary op operand) := by
  intro strength rest left result hstrength hlevel hfollows hextend
  -- The operand is read in the context of unary operators, which is not looser than its level.
  have hoperand : (readExpr UnaryOp.strength (tokens ++ rest)).Yields operand rest :=
    h (Nat.le_refl _) (.inr rfl) hfollows
      (yields_extendExpr_of_stops (hfollows.stops (Nat.le_refl _)))
  have hunary : (readOperand (op.token :: tokens ++ rest)).Yields (.unary op operand) rest := by
    have hread : (readUnary op (tokens ++ rest)).Yields (.unary op operand) rest := by
      rw [readUnary]
      exact yields_widen.mpr (yields_map.mpr ⟨operand, hoperand, rfl⟩)
    cases op with
    | not => rwa [UnaryOp.token, List.cons_append, readOperand]
    | negate => rwa [UnaryOp.token, List.cons_append, readOperand]
  rw [readExpr]
  exact yields_andThen.mpr
    ⟨_, rest, hunary.length_lt, hunary, yields_widen.mpr hextend⟩

/-- Anything that continues an expression and is not `else` may follow a chain. -/
theorem follows_chain {token : Token} (helse : token ≠ .kwElse) :
    Follows .chain (token :: rest) := by
  intro next hnext
  obtain rfl : token = next := by simpa using hnext
  exact ⟨helse, fun continuation _ => continuation.level.rank_le_chain⟩

/-- The tokens are read as the expressions of a list up to either closing token, and as a list that
is not empty if there is an expression. -/
def ReadsItems (tokens : List Token) (exprs : List Expr) : Prop :=
  ∀ ⦃close : Token⦄ ⦃rest : List Token⦄, close = .rparen ∨ close = .rbracket →
    (readList close (tokens ++ close :: rest)).Yields exprs rest ∧
      (exprs ≠ [] → (readItem close (tokens ++ close :: rest)).Yields exprs rest)

theorem Reads.call {calleeTokens argTokens : List Token} {callee : Expr} {args : List Expr}
    (hcallee : Reads .chain calleeTokens callee) (hargs : ReadsItems argTokens args) :
    Reads .chain (calleeTokens ++ .lparen :: (argTokens ++ [.rparen])) (.call callee args) := by
  intro strength rest left result hstrength _ _ hextend
  have hlist : (readList .rparen (argTokens ++ .rparen :: rest)).Yields args rest :=
    (hargs (.inl rfl)).1
  have htokens : calleeTokens ++ .lparen :: (argTokens ++ [.rparen]) ++ rest =
      calleeTokens ++ .lparen :: (argTokens ++ .rparen :: rest) := by simp
  rw [htokens]
  refine hcallee hstrength (.inl (Nat.lt_succ_of_le hstrength)) (follows_chain (by decide))
    (yields_extendExpr (Token.continuation?_eq_call.mpr rfl) (Nat.lt_succ_of_le hstrength) ?_)
  rw [continueExpr]
  exact yields_andThen.mpr ⟨args, rest, hlist.length_lt, hlist, yields_widen.mpr hextend⟩

theorem Reads.index {collectionTokens positionTokens : List Token} {collection position : Expr}
    (hcollection : Reads .chain collectionTokens collection)
    (hposition : Reads .equality positionTokens position) :
    Reads .chain (collectionTokens ++ .lbracket :: (positionTokens ++ [.rbracket]))
      (.index collection position) := by
  intro strength rest left result hstrength _ _ hextend
  have hinner : (readExpr loosest (positionTokens ++ .rbracket :: rest)).Yields position
      (.rbracket :: rest) := hposition.whole (ends_cons (by decide) (by decide))
  have hclose : (Reading.token .rbracket (.rbracket :: rest)).Yields () rest :=
    yields_token.mpr rfl
  have htokens : collectionTokens ++ .lbracket :: (positionTokens ++ [.rbracket]) ++ rest =
      collectionTokens ++ .lbracket :: (positionTokens ++ .rbracket :: rest) := by simp
  rw [htokens]
  refine hcollection hstrength (.inl (Nat.lt_succ_of_le hstrength)) (follows_chain (by decide))
    (yields_extendExpr (Token.continuation?_eq_index.mpr rfl) ?_ ?_)
  · exact Nat.lt_of_le_of_lt hstrength (by decide)
  rw [continueExpr]
  refine yields_andThen.mpr ⟨position, _, hinner.length_lt, hinner, ?_⟩
  exact yields_andThen.mpr ⟨(), rest, hclose.length_lt, hclose, yields_widen.mpr hextend⟩

/-! ## Lists, pairs and blocks -/

theorem Begins.append (h : Begins tokens) : Begins (tokens ++ rest) := by
  obtain ⟨token, left, rfl, htoken⟩ := h
  exact ⟨token, left ++ rest, rfl, htoken⟩

theorem ReadsItems.nil : ReadsItems [] [] := by
  intro close rest hclose
  refine ⟨?_, fun hne => absurd rfl hne⟩
  rw [List.nil_append, readList, if_pos List.head?_cons]
  exact yields_widen.mpr (yields_found.mpr ⟨rfl, rfl⟩)

/-- A list that is not empty is read from its first expression on. -/
theorem ReadsItems.of_item {exprs : List Expr} (hbegins : Begins tokens)
    (h : ∀ ⦃close : Token⦄ ⦃rest : List Token⦄, close = .rparen ∨ close = .rbracket →
      (readItem close (tokens ++ close :: rest)).Yields exprs rest) :
    ReadsItems tokens exprs := by
  intro close rest hclose
  refine ⟨?_, fun _ => h hclose⟩
  obtain ⟨token, left, rfl, htoken⟩ := hbegins
  have hne : ¬ (token :: left ++ close :: rest).head? = some close := by
    rintro ⟨rfl⟩
    rcases hclose with rfl | rfl <;> simp at htoken
  rw [readList, if_neg hne]
  exact h hclose

theorem ReadsItems.one (hbegins : Begins tokens) (h : Reads .equality tokens expr) :
    ReadsItems tokens [expr] := by
  refine ReadsItems.of_item hbegins ?_
  intro close rest hclose
  have hends : Ends (close :: rest) := by
    rcases hclose with rfl | rfl <;> exact ends_cons (by decide) (by decide)
  have hitem := h.whole hends
  have hmore : (readMoreItems close (close :: rest)).Yields [] rest := by
    have hcomma : ∀ left, close :: rest = .comma :: left → False := by
      rintro left ⟨rfl⟩
      rcases hclose with h | h <;> cases h
    rw [readMoreItems.eq_2 _ _ hcomma]
    exact yields_map.mpr ⟨(), yields_token.mpr rfl, rfl⟩
  rw [readItem]
  exact yields_andThen.mpr ⟨expr, _, hitem.length_lt, hitem,
    yields_widen.mpr (yields_map.mpr ⟨[], hmore, rfl⟩)⟩

theorem ReadsItems.more {restTokens : List Token} {next : Expr} {others : List Expr}
    (hbegins : Begins tokens) (h : Reads .equality tokens expr)
    (hrest : ReadsItems restTokens (next :: others)) :
    ReadsItems (tokens ++ .comma :: restTokens) (expr :: next :: others) := by
  refine ReadsItems.of_item hbegins.append ?_
  intro close rest hclose
  rw [List.append_assoc, List.cons_append]
  have hitem : (readExpr loosest (tokens ++ .comma :: (restTokens ++ close :: rest))).Yields expr
      (.comma :: (restTokens ++ close :: rest)) := h.whole (ends_cons (by decide) (by decide))
  have hmore : (readMoreItems close (.comma :: (restTokens ++ close :: rest))).Yields
      (next :: others) rest := by
    rw [readMoreItems]
    exact yields_widen.mpr ((hrest hclose).2 (List.cons_ne_nil _ _))
  rw [readItem]
  exact yields_andThen.mpr ⟨expr, _, hitem.length_lt, hitem,
    yields_widen.mpr (yields_map.mpr ⟨_, hmore, rfl⟩)⟩

/-- The tokens are read as the pairs of a hash literal up to its closing brace. -/
def ReadsPairs (tokens : List Token) (pairs : List (Expr × Expr)) : Prop :=
  ∀ rest : List Token, (readPairs (tokens ++ .rbrace :: rest)).Yields pairs rest

theorem ReadsPairs.nil : ReadsPairs [] [] := by
  intro rest
  rw [List.nil_append, readPairs]
  exact yields_widen.mpr (yields_found.mpr ⟨rfl, rfl⟩)

/-- A pair is read in front of whatever yields the other pairs. -/
theorem yields_readPairs_cons {keyTokens valueTokens behind : List Token} {key value : Expr}
    {others : List (Expr × Expr)} (hbegins : Begins keyTokens)
    (hkey : Reads .equality keyTokens key) (hvalue : Reads .equality valueTokens value)
    (hends : Ends behind) (hmore : (readMorePairs behind).Yields others rest) :
    (readPairs (keyTokens ++ .colon :: (valueTokens ++ behind))).Yields
      ((key, value) :: others) rest := by
  have hkeyRead : (readExpr loosest (keyTokens ++ .colon :: (valueTokens ++ behind))).Yields key
      (.colon :: (valueTokens ++ behind)) := hkey.whole (ends_cons (by decide) (by decide))
  have hcolon : (Reading.token .colon (.colon :: (valueTokens ++ behind))).Yields ()
      (valueTokens ++ behind) := yields_token.mpr rfl
  have hvalueRead := hvalue.whole hends
  have hbrace : ∀ left, keyTokens ++ .colon :: (valueTokens ++ behind) = .rbrace :: left →
      False := by
    intro left htokens
    obtain ⟨token, keyRest, rfl, htoken⟩ := hbegins
    rw [List.cons_append, List.cons.injEq] at htokens
    simp [htokens.1] at htoken
  rw [readPairs.eq_2 _ hbrace]
  refine yields_andThen.mpr ⟨key, _, hkeyRead.length_lt, hkeyRead, ?_⟩
  refine yields_andThen.mpr ⟨(), _, hcolon.length_lt, hcolon, ?_⟩
  refine yields_andThen.mpr ⟨value, _, hvalueRead.length_lt, hvalueRead, ?_⟩
  exact yields_widen.mpr (yields_map.mpr ⟨others, hmore, rfl⟩)

theorem ReadsPairs.one {keyTokens valueTokens : List Token} {key value : Expr}
    (hbegins : Begins keyTokens) (hkey : Reads .equality keyTokens key)
    (hvalue : Reads .equality valueTokens value) :
    ReadsPairs (keyTokens ++ .colon :: valueTokens) [(key, value)] := by
  intro rest
  have hmore : (readMorePairs (.rbrace :: rest)).Yields [] rest := by
    rw [readMorePairs]
    exact yields_widen.mpr (yields_found.mpr ⟨rfl, rfl⟩)
  rw [List.append_assoc, List.cons_append]
  exact yields_readPairs_cons hbegins hkey hvalue (ends_cons (by decide) (by decide)) hmore

theorem ReadsPairs.more {keyTokens valueTokens restTokens : List Token} {key value : Expr}
    {others : List (Expr × Expr)} (hbegins : Begins keyTokens)
    (hkey : Reads .equality keyTokens key) (hvalue : Reads .equality valueTokens value)
    (hrest : ReadsPairs restTokens others) :
    ReadsPairs (keyTokens ++ .colon :: (valueTokens ++ .comma :: restTokens))
      ((key, value) :: others) := by
  intro rest
  have hmore : (readMorePairs (.comma :: (restTokens ++ .rbrace :: rest))).Yields others rest := by
    have hcomma : (Reading.token .comma (.comma :: (restTokens ++ .rbrace :: rest))).Yields ()
        (restTokens ++ .rbrace :: rest) := yields_token.mpr rfl
    rw [readMorePairs.eq_2 _ (by rintro left ⟨⟩)]
    exact yields_andThen.mpr ⟨(), _, hcomma.length_lt, hcomma, yields_widen.mpr (hrest rest)⟩
  rw [List.append_assoc, List.cons_append, List.append_assoc, List.cons_append]
  exact yields_readPairs_cons hbegins hkey hvalue (ends_cons (by decide) (by decide)) hmore

/-- A first token in a statement is none of those that may come after one. -/
def Starts (tokens : List Token) : Prop :=
  ∃ token rest, tokens = token :: rest ∧ token ∉ [Token.semicolon, .rbrace, .kwElse]

/-- The tokens are read as the statement, with a semicolon behind it. -/
def ReadsStatement (tokens : List Token) (statement : Stmt) : Prop :=
  ∀ ⦃rest : List Token⦄, Ends rest →
    (readStmt (tokens ++ rest)).Yields statement (skipSemicolon rest)

/-- The tokens are read as the statements of a block, and as those of a program. -/
def ReadsStatements (tokens : List Token) (statements : List Stmt) : Prop :=
  (∀ rest : List Token, (readBlock (tokens ++ .rbrace :: rest)).Yields statements rest) ∧
    readProgram tokens = ⟨statements, []⟩

theorem ReadsStatement.bind (name : String) {value : Expr} (h : Reads .equality tokens value) :
    ReadsStatement (.kwLet :: .ident name :: .assign :: tokens) (.bind name value) := by
  intro rest hends
  have hassign : (Reading.token .assign (.assign :: (tokens ++ rest))).Yields ()
      (tokens ++ rest) := yields_token.mpr rfl
  have hvalue := h.whole hends
  simp only [List.cons_append]
  rw [readStmt, yields_widen, readBinding]
  refine yields_andThen.mpr ⟨(), _, hassign.length_lt, hassign, ?_⟩
  refine yields_andThen.mpr ⟨value, rest, hvalue.length_lt, hvalue, ?_⟩
  exact yields_widen.mpr (yields_statement.mpr ⟨rfl, rfl⟩)

theorem ReadsStatement.ret {value : Expr} (h : Reads .equality tokens value) :
    ReadsStatement (.kwReturn :: tokens) (.ret value) := by
  intro rest hends
  have hvalue := h.whole hends
  rw [List.cons_append, readStmt]
  refine yields_andThen.mpr ⟨value, rest, hvalue.length_lt, hvalue, ?_⟩
  exact yields_widen.mpr (yields_statement.mpr ⟨rfl, rfl⟩)

theorem ReadsStatement.of_expr {value : Expr} (hbegins : Begins tokens)
    (h : Reads .equality tokens value) : ReadsStatement tokens (.expr value) := by
  intro rest hends
  have hvalue := h.whole hends
  obtain ⟨token, left, rfl, htoken⟩ := hbegins
  have hlet : token ≠ .kwLet := by rintro rfl; simp at htoken
  have hreturn : token ≠ .kwReturn := by rintro rfl; simp at htoken
  rw [List.cons_append] at hvalue ⊢
  rw [readStmt.eq_5]
  · refine yields_andThen.mpr ⟨value, rest, hvalue.length_lt, hvalue, ?_⟩
    exact yields_widen.mpr (yields_statement.mpr ⟨rfl, rfl⟩)
  all_goals grind

theorem ReadsStatements.nil : ReadsStatements [] [] := by
  constructor
  · intro rest
    rw [List.nil_append, readBlock]
    exact yields_widen.mpr (yields_found.mpr ⟨rfl, rfl⟩)
  · rw [readProgram]

/-- A statement is read in front of other statements, whether the block or the program that they
stand in ends behind them. -/
theorem ReadsStatements.cons {middle restTokens : List Token} {statement : Stmt}
    {statements : List Stmt} (hstarts : Starts tokens) (h : ReadsStatement tokens statement)
    (hends : ∀ tail, Ends tail → Ends (middle ++ tail))
    (hskip : ∀ tail, Ends tail → skipSemicolon tail = tail →
      skipSemicolon (middle ++ tail) = restTokens ++ tail)
    (hrest : ReadsStatements restTokens statements) :
    ReadsStatements (tokens ++ middle) (statement :: statements) := by
  obtain ⟨token, left, rfl, htoken⟩ := hstarts
  constructor
  · intro rest
    have hbrace : Ends (.rbrace :: rest) := ends_cons (by decide) (by decide)
    have hstatement := h (hends _ hbrace)
    rw [hskip _ hbrace rfl] at hstatement
    have hne : token = .rbrace → False := by rintro rfl; simp at htoken
    rw [List.append_assoc, List.cons_append, readBlock.eq_3 _ _ hne]
    rw [List.cons_append] at hstatement
    exact yields_recover.mpr ⟨statement, _, Nat.le_of_lt_succ hstatement.length_lt, statements,
      hstatement, yields_widen.mpr (hrest.1 rest), rfl⟩
  · have hstatement := h (hends _ ends_nil)
    rw [hskip _ ends_nil rfl, List.append_nil, List.append_nil, List.cons_append] at hstatement
    obtain ⟨hlength, hdone⟩ := hstatement.eq_done
    rw [List.cons_append, readProgram, hdone]
    simp only [hrest.2, List.append_nil]

theorem ReadsStatements.closed {restTokens : List Token} {statement : Stmt}
    {statements : List Stmt} (hstarts : Starts tokens) (h : ReadsStatement tokens statement)
    (hrest : ReadsStatements restTokens statements) :
    ReadsStatements (tokens ++ .semicolon :: restTokens) (statement :: statements) :=
  .cons hstarts h (fun _ _ => ends_cons (by decide) (by decide)) (fun _ _ _ => rfl) hrest

theorem ReadsStatements.unclosed {restTokens : List Token} {statement : Stmt}
    {statements : List Stmt} (hstarts : Starts tokens) (h : ReadsStatement tokens statement)
    (hnext : ∀ next ∈ restTokens.head?, ¬ next.Continues)
    (hrestStarts : restTokens = [] ∨ Starts restTokens)
    (hrest : ReadsStatements restTokens statements) :
    ReadsStatements (tokens ++ restTokens) (statement :: statements) := by
  rcases hrestStarts with rfl | ⟨next, left, rfl, hfirst⟩
  · refine .cons hstarts h (fun _ htail => htail) ?_ hrest
    exact fun _ _ hskip => hskip
  · refine .cons hstarts h (fun tail _ => ends_cons ?_ (hnext next rfl)) (fun tail _ _ => ?_) hrest
    · rintro rfl
      simp at hfirst
    · rw [List.cons_append, skipSemicolon]
      rintro left' ⟨rfl, _⟩
      simp at hfirst

/-- A block is read with its braces. -/
theorem ReadsStatements.braced {block : Block} (h : ReadsStatements tokens block) :
    (readBraced (.lbrace :: (tokens ++ .rbrace :: rest))).Yields block rest := by
  have hopen : (Reading.token .lbrace (.lbrace :: (tokens ++ .rbrace :: rest))).Yields ()
      (tokens ++ .rbrace :: rest) := yields_token.mpr rfl
  rw [readBraced]
  exact yields_andThen.mpr ⟨(), _, hopen.length_lt, hopen, yields_widen.mpr (h.1 rest)⟩

/-- The parameters and the body of a function or macro are read. -/
theorem ReadsStatements.closure (params : List String) {body : Block}
    (h : ReadsStatements tokens body) :
    (readClosure (.lparen :: (paramTokens params ++ .rparen :: .lbrace ::
      (tokens ++ .rbrace :: rest)))).Yields (params, body) rest := by
  have hopen : (Reading.token .lparen (.lparen :: (paramTokens params ++ .rparen :: .lbrace ::
      (tokens ++ .rbrace :: rest)))).Yields () (paramTokens params ++ .rparen :: .lbrace ::
      (tokens ++ .rbrace :: rest)) := yields_token.mpr rfl
  have hparams : (readParams (paramTokens params ++ .rparen :: .lbrace ::
      (tokens ++ .rbrace :: rest))).Yields params (.lbrace :: (tokens ++ .rbrace :: rest)) :=
    yields_readParams.mpr rfl
  rw [readClosure]
  refine yields_andThen.mpr ⟨(), _, hopen.length_lt, hopen, ?_⟩
  refine yields_andThen.mpr ⟨params, _, hparams.length_lt, hparams, ?_⟩
  exact yields_widen.mpr (yields_map.mpr ⟨body, h.braced, rfl⟩)

/-! ## Primary expressions -/

theorem ReadsOperand.int {digits : String} (h : number digits ≤ 2 ^ 63 - 1) :
    ReadsOperand [.int digits] (.int (.ofNat (number digits))) := by
  intro rest _
  rw [List.cons_append, List.nil_append, readOperand,
    wordOfDigits?_eq_some.mpr ⟨h, rfl⟩]
  exact yields_found.mpr ⟨rfl, rfl⟩

theorem ReadsOperand.group (h : Reads .equality tokens expr) :
    ReadsOperand (.lparen :: (tokens ++ [.rparen])) expr := by
  intro rest _
  have hinner : (readExpr loosest (tokens ++ .rparen :: rest)).Yields expr (.rparen :: rest) :=
    h.whole (ends_cons (by decide) (by decide))
  rw [List.cons_append, List.append_assoc, readOperand, readGroup]
  refine yields_andThen.mpr ⟨expr, _, hinner.length_lt, hinner, ?_⟩
  exact yields_widen.mpr (yields_map.mpr ⟨(), yields_token.mpr rfl, rfl⟩)

/-- A conditional is read if what stands behind its first block is read as the alternative. -/
theorem yields_readCond {conditionTokens behind : List Token} {condition : Expr}
    {consequence : Block} {alternative : Option Block}
    (hcondition : Reads .equality conditionTokens condition)
    (hconsequence : ReadsStatements tokens consequence)
    (halternative : (readElse behind).Yields alternative rest) :
    (readCond (.lparen :: (conditionTokens ++ .rparen :: .lbrace ::
      (tokens ++ .rbrace :: behind)))).Yields (.cond condition consequence alternative) rest := by
  have hopen : (Reading.token .lparen (.lparen :: (conditionTokens ++ .rparen :: .lbrace ::
      (tokens ++ .rbrace :: behind)))).Yields () (conditionTokens ++ .rparen :: .lbrace ::
      (tokens ++ .rbrace :: behind)) := yields_token.mpr rfl
  have hread : (readExpr loosest (conditionTokens ++ .rparen :: .lbrace ::
      (tokens ++ .rbrace :: behind))).Yields condition (.rparen :: .lbrace ::
      (tokens ++ .rbrace :: behind)) := hcondition.whole (ends_cons (by decide) (by decide))
  have hclose : (Reading.token .rparen (.rparen :: .lbrace ::
      (tokens ++ .rbrace :: behind))).Yields () (.lbrace :: (tokens ++ .rbrace :: behind)) :=
    yields_token.mpr rfl
  have hblock : (readBraced (.lbrace :: (tokens ++ .rbrace :: behind))).Yields consequence behind :=
    hconsequence.braced
  rw [readCond]
  refine yields_andThen.mpr ⟨(), _, hopen.length_lt, hopen, ?_⟩
  refine yields_andThen.mpr ⟨condition, _, hread.length_lt, hread, ?_⟩
  refine yields_andThen.mpr ⟨(), _, hclose.length_lt, hclose, ?_⟩
  refine yields_andThen.mpr ⟨consequence, _, hblock.length_lt, hblock, ?_⟩
  exact yields_widen.mpr (yields_map.mpr ⟨alternative, halternative, rfl⟩)

theorem ReadsOperand.cond {conditionTokens : List Token} {condition : Expr} {consequence : Block}
    (hcondition : Reads .equality conditionTokens condition)
    (hconsequence : ReadsStatements tokens consequence) :
    ReadsOperand
      (.kwIf :: .lparen :: (conditionTokens ++ .rparen :: .lbrace :: (tokens ++ [.rbrace])))
      (.cond condition consequence none) := by
  intro rest helse
  have hnone : (readElse rest).Yields none rest := by
    rw [readElse.eq_2]
    · exact yields_found.mpr ⟨rfl, rfl⟩
    · rintro left rfl
      exact helse .kwElse rfl rfl
  have htokens : .kwIf :: .lparen :: (conditionTokens ++ .rparen :: .lbrace ::
      (tokens ++ [.rbrace])) ++ rest = .kwIf :: .lparen :: (conditionTokens ++ .rparen :: .lbrace ::
      (tokens ++ .rbrace :: rest)) := by simp
  rw [htokens, readOperand]
  exact yields_readCond hcondition hconsequence hnone

theorem ReadsOperand.condElse {conditionTokens elseTokens : List Token} {condition : Expr}
    {consequence alternative : Block} (hcondition : Reads .equality conditionTokens condition)
    (hconsequence : ReadsStatements tokens consequence)
    (halternative : ReadsStatements elseTokens alternative) :
    ReadsOperand
      (.kwIf :: .lparen :: (conditionTokens ++ .rparen :: .lbrace ::
        (tokens ++ .rbrace :: .kwElse :: .lbrace :: (elseTokens ++ [.rbrace]))))
      (.cond condition consequence (some alternative)) := by
  intro rest _
  have hsome : (readElse (.kwElse :: .lbrace :: (elseTokens ++ .rbrace :: rest))).Yields
      (some alternative) rest := by
    rw [readElse]
    exact yields_widen.mpr (yields_map.mpr ⟨alternative, halternative.braced, rfl⟩)
  have htokens : .kwIf :: .lparen :: (conditionTokens ++ .rparen :: .lbrace ::
      (tokens ++ .rbrace :: .kwElse :: .lbrace :: (elseTokens ++ [.rbrace]))) ++ rest =
      .kwIf :: .lparen :: (conditionTokens ++ .rparen :: .lbrace ::
        (tokens ++ .rbrace :: .kwElse :: .lbrace :: (elseTokens ++ .rbrace :: rest))) := by simp
  rw [htokens, readOperand]
  exact yields_readCond hcondition hconsequence hsome

/-- The tokens of a parameter list and a block, in front of what follows them. -/
theorem closure_tokens (first : Token) (params : List String) (tokens rest : List Token) :
    first :: .lparen :: (paramTokens params ++ .rparen :: .lbrace :: (tokens ++ [.rbrace])) ++
        rest =
      first :: .lparen :: (paramTokens params ++ .rparen :: .lbrace ::
        (tokens ++ .rbrace :: rest)) := by
  simp

theorem ReadsOperand.function (params : List String) {body : Block}
    (h : ReadsStatements tokens body) :
    ReadsOperand (.kwFn :: .lparen :: (paramTokens params ++ .rparen :: .lbrace ::
      (tokens ++ [.rbrace]))) (.function params body) := by
  intro rest _
  rw [closure_tokens, readOperand]
  exact yields_map.mpr ⟨(params, body), h.closure params, rfl⟩

theorem ReadsOperand.macroLit (params : List String) {body : Block}
    (h : ReadsStatements tokens body) :
    ReadsOperand (.kwMacro :: .lparen :: (paramTokens params ++ .rparen :: .lbrace ::
      (tokens ++ [.rbrace]))) (.macroLit params body) := by
  intro rest _
  rw [closure_tokens, readOperand]
  exact yields_map.mpr ⟨(params, body), h.closure params, rfl⟩

theorem ReadsOperand.array {elements : List Expr} (h : ReadsItems tokens elements) :
    ReadsOperand (.lbracket :: (tokens ++ [.rbracket])) (.array elements) := by
  intro rest _
  rw [List.cons_append, List.append_assoc, readOperand]
  exact yields_map.mpr ⟨elements, (h (.inr rfl)).1, rfl⟩

theorem ReadsOperand.hash {pairs : List (Expr × Expr)} (h : ReadsPairs tokens pairs) :
    ReadsOperand (.lbrace :: (tokens ++ [.rbrace])) (.hash pairs) := by
  intro rest _
  rw [List.cons_append, List.append_assoc, readOperand]
  exact yields_map.mpr ⟨pairs, h rest, rfl⟩

/-! ## First tokens -/

theorem Primary.begins (h : Primary tokens expr) : Begins tokens := by
  cases h <;> exact ⟨_, _, rfl, by simp⟩

theorem Phrase.begins : ∀ {level : Level} {tokens : List Token} {expr : Expr},
    Phrase level tokens expr → Begins tokens
  | _, _, _, .loosen _ h => h.begins
  | _, _, _, .binary h _ _ => h.begins.append
  | _, _, _, @Phrase.unary op _ _ _ => ⟨op.token, _, rfl, by cases op <;> simp [UnaryOp.token]⟩
  | _, _, _, .call h _ => h.begins.append
  | _, _, _, .index h _ => h.begins.append
  | _, _, _, .primary h => h.begins

theorem Statement.starts {statement : Stmt} (h : Statement tokens statement) : Starts tokens := by
  cases h with
  | bind | ret => exact ⟨_, _, rfl, by simp⟩
  | expr h =>
      obtain ⟨token, rest, rfl, htoken⟩ := h.begins
      refine ⟨token, rest, rfl, ?_⟩
      simp only [List.mem_cons] at htoken ⊢
      grind

theorem Starts.append (h : Starts tokens) : Starts (tokens ++ rest) := by
  obtain ⟨token, left, rfl, htoken⟩ := h
  exact ⟨token, left ++ rest, rfl, htoken⟩

theorem Statements.starts {statements : List Stmt} (h : Statements tokens statements) :
    tokens = [] ∨ Starts tokens := by
  cases h with
  | nil => exact .inl rfl
  | closed h _ => exact .inr h.starts.append
  | unclosed h _ _ => exact .inr h.starts.append

/-! ## Derivations -/

mutual

/-- A phrase of the grammar is read. -/
theorem Phrase.reads : ∀ {level : Level} {tokens : List Token} {expr : Expr},
    Phrase level tokens expr → Reads level tokens expr
  | _, _, _, .loosen hle h => h.reads.loosen hle
  | _, _, _, .binary hleft htight hright => hleft.reads.binary htight hright.reads
  | _, _, _, .unary h => h.reads.unary
  | _, _, _, .call hcallee hargs => hcallee.reads.call hargs.reads
  | _, _, _, .index hcollection hposition => hcollection.reads.index hposition.reads
  | _, _, _, .primary h => h.reads.reads

/-- A primary expression of the grammar is read as an operand. -/
theorem Primary.reads : ∀ {tokens : List Token} {expr : Expr},
    Primary tokens expr → ReadsOperand tokens expr
  | _, _, .ident _ | _, _, .str _ | _, _, .kwTrue | _, _, .kwFalse => by
      intro rest _
      rw [List.cons_append, List.nil_append, readOperand]
      exact yields_found.mpr ⟨rfl, rfl⟩
  | _, _, .int h => .int h
  | _, _, .group h => .group h.reads
  | _, _, .cond hcondition hconsequence => .cond hcondition.reads hconsequence.reads
  | _, _, .condElse hcondition hconsequence halternative =>
      .condElse hcondition.reads hconsequence.reads halternative.reads
  | _, _, .function params h => .function params h.reads
  | _, _, .macroLit params h => .macroLit params h.reads
  | _, _, .array h => .array h.reads
  | _, _, .hash h => .hash h.reads

/-- The expressions of a list are read. -/
theorem Items.reads : ∀ {tokens : List Token} {exprs : List Expr},
    Items tokens exprs → ReadsItems tokens exprs
  | _, _, .nil => .nil
  | _, _, .one h => .one h.begins h.reads
  | _, _, .more h hrest => .more h.begins h.reads hrest.reads

/-- The pairs of a hash literal are read. -/
theorem Pairs.reads : ∀ {tokens : List Token} {pairs : List (Expr × Expr)},
    Pairs tokens pairs → ReadsPairs tokens pairs
  | _, _, .nil => .nil
  | _, _, .one hkey hvalue => .one hkey.begins hkey.reads hvalue.reads
  | _, _, .more hkey hvalue hrest => .more hkey.begins hkey.reads hvalue.reads hrest.reads

/-- A statement of the grammar is read. -/
theorem Statement.reads : ∀ {tokens : List Token} {statement : Stmt},
    Statement tokens statement → ReadsStatement tokens statement
  | _, _, .bind name h => .bind name h.reads
  | _, _, .ret h => .ret h.reads
  | _, _, .expr h => .of_expr h.begins h.reads

/-- The statements of a block or program are read. -/
theorem Statements.reads : ∀ {tokens : List Token} {statements : List Stmt},
    Statements tokens statements → ReadsStatements tokens statements
  | _, _, .nil => .nil
  | _, _, .closed h hrest => .closed h.starts h.reads hrest.reads
  | _, _, .unclosed h hnext hrest => .unclosed h.starts h.reads hnext hrest.starts hrest.reads

end

end MonkeyLang.Grammar
