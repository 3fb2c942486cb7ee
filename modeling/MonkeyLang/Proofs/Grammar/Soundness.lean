import MonkeyLang.Proofs.Grammar.Strength
import MonkeyLang.Proofs.Grammar.Yields

/-!
# What the parser reads is in the grammar

Read `readProgram_sound` first: whatever is read without an error is a rendering of the statements
that it is read as. An expression that is read in a context of some strength fits every level that
is tighter (`Fits`), and while it is being extended it is a left operand for whatever comes next
(`Extendable`). Both hold because reading stops only before a token that is not stronger than the
context.
-/

namespace MonkeyLang

namespace Grammar

/-- The tokens are a rendering of the expression on every level that a context of the strength
admits. -/
def Fits (strength : Nat) (tokens : List Token) (expr : Expr) : Prop :=
  ∀ level : Level, level.rank ≤ strength + 1 → level.rank ≤ Level.unary.rank →
    Phrase level tokens expr

/-- The tokens are a rendering of the expression on the level on which the token after them, if it
continues an expression, wants its left operand. -/
def Extendable (tokens : List Token) (expr : Expr) (rest : List Token) : Prop :=
  ∀ token ∈ rest.head?, ∀ continuation, token.continuation? = some continuation →
    Phrase continuation.level tokens expr

variable {strength : Nat} {level : Level} {tokens rest : List Token} {expr : Expr}

/-- A chain fits everywhere. -/
theorem Fits.of_chain (h : Phrase .chain tokens expr) : Fits strength tokens expr :=
  fun level _ _ => .loosen level.rank_le_chain h

/-- A chain can be extended by anything. -/
theorem Extendable.of_chain (h : Phrase .chain tokens expr) : Extendable tokens expr rest :=
  fun _ _ continuation _ => .loosen continuation.level.rank_le_chain h

/-- A rendering on a level fits every context that is looser. -/
theorem Fits.of_level (hlevel : strength < level.rank) (h : Phrase level tokens expr) :
    Fits strength tokens expr :=
  fun _ hle _ => .loosen (Nat.le_trans hle hlevel) h

/-- A rendering on a level can be extended by what is not tighter than the level. -/
theorem Extendable.of_stops (hunary : level.rank ≤ Level.unary.rank)
    (h : Phrase level tokens expr) (hstops : Stops level.rank rest) :
    Extendable tokens expr rest := by
  intro token htoken continuation hcontinuation
  have hle := hstops token htoken continuation hcontinuation
  exact .loosen (Continuation.level_rank_le hunary hle) h

/-- What fits the loosest context is an expression on the loosest level. -/
theorem Fits.equality (h : Fits loosest tokens expr) : Phrase .equality tokens expr :=
  h .equality (Nat.le_refl _) (by decide)

/-- What fits the context of a unary operator is its operand. -/
theorem Fits.unary (h : Fits UnaryOp.strength tokens expr) : Phrase .unary tokens expr :=
  h .unary (Nat.le_succ _) (Nat.le_refl _)

/-- What fits the context of a binary operator is on a tighter level. -/
theorem Fits.right {op : BinaryOp} (h : Fits op.strength tokens expr) :
    ∃ tight : Level, op.level.rank < tight.rank ∧ Phrase tight tokens expr := by
  cases op with
  | equal | notEqual => exact ⟨.comparison, by decide, h .comparison (by decide) (by decide)⟩
  | less | greater => exact ⟨.sum, by decide, h .sum (by decide) (by decide)⟩
  | add | subtract => exact ⟨.product, by decide, h .product (by decide) (by decide)⟩
  | multiply | divide => exact ⟨.unary, by decide, h .unary (by decide) (by decide)⟩

/-- A semicolon behind a statement belongs to it, and without one the next token must not continue
the statement. -/
theorem Statements.cons {middle restTokens : List Token} {statement : Stmt}
    {statements : List Stmt} (hstatement : Statement tokens statement)
    (hstops : Stops loosest middle) (hskip : skipSemicolon middle = restTokens ++ rest)
    (hrest : Statements restTokens statements) :
    ∃ more, middle = more ++ rest ∧ Statements (tokens ++ more) (statement :: statements) := by
  unfold skipSemicolon at hskip
  split at hskip
  next left =>
    exact ⟨.semicolon :: restTokens, by rw [hskip, List.cons_append], .closed hstatement hrest⟩
  next left hsemicolon =>
    refine ⟨restTokens, hskip, .unclosed hstatement ?_ hrest⟩
    intro next hnext
    refine stops_loosest.mp hstops next ?_
    rw [hskip, List.head?_append, Option.mem_def.mp hnext]
    rfl

end Grammar

open Grammar Reading

mutual

/-- An expression that is read in a context fits the context, and reading stops where the context
does. -/
theorem readExpr_sound {strength : Nat} {tokens rest : List Token} {expr : Expr}
    (h : (readExpr strength tokens).Yields expr rest) :
    ∃ front, tokens = front ++ rest ∧ Fits strength front expr ∧ Stops strength rest := by
  rw [readExpr, yields_andThen] at h
  obtain ⟨operand, middle, hmiddle, hoperand, hextend⟩ := h
  rw [yields_widen] at hextend
  obtain ⟨front, hfront, hchain | ⟨hunary, hstops⟩⟩ := readOperand_sound hoperand
  · obtain ⟨more, hmore, hfits, hstops⟩ :=
      extendExpr_sound (.of_chain hchain) (.of_chain hchain) hextend
    exact ⟨front ++ more, by rw [hfront, hmore, List.append_assoc], hfits, hstops⟩
  · -- A unary operator is no chain. It is a left operand for what follows only because its own
    -- operand took all that is tighter.
    have hfits : Fits strength front operand :=
      fun level _ hlevel => .loosen hlevel hunary
    obtain ⟨more, hmore, hfits, hstops⟩ :=
      extendExpr_sound hfits (.of_stops (Nat.le_refl _) hunary hstops) hextend
    exact ⟨front ++ more, by rw [hfront, hmore, List.append_assoc], hfits, hstops⟩
termination_by tokens.length * 8 + 1

/-- Extending an expression that fits its context gives one that does. -/
theorem extendExpr_sound {strength : Nat} {front tokens rest : List Token} {left expr : Expr}
    (hfits : Fits strength front left) (hleft : Extendable front left tokens)
    (h : (extendExpr strength left tokens).Yields expr rest) :
    ∃ more, tokens = more ++ rest ∧ Fits strength (front ++ more) expr ∧ Stops strength rest := by
  cases tokens with
  | nil =>
      rw [extendExpr, yields_found] at h
      obtain ⟨rfl, rfl⟩ := h
      exact ⟨[], rfl, by rwa [List.append_nil], stops_nil strength⟩
  | cons token tokens =>
      rw [extendExpr] at h
      split at h
      next continuation habove =>
        rw [yields_widen] at h
        obtain ⟨hcontinuation, hlt⟩ := Token.continuationAbove?_eq_some.mp habove
        have hphrase := hleft token rfl continuation hcontinuation
        obtain ⟨more, hmore, hfits', hstops⟩ :=
          continueExpr_sound hlt hcontinuation hphrase h
        exact ⟨token :: more, by rw [hmore, List.cons_append], hfits', hstops⟩
      next hnone =>
        rw [yields_found] at h
        obtain ⟨rfl, rfl⟩ := h
        exact ⟨[], rfl, by rwa [List.append_nil], stops_cons.mpr hnone⟩
termination_by tokens.length * 8

/-- What follows the token of a continuation completes it, and the expression so far is on the
level of the continuation again. -/
theorem continueExpr_sound {strength : Nat} {front tokens rest : List Token} {left expr : Expr}
    {token : Token} {continuation : Continuation} (hlt : strength < continuation.strength)
    (htoken : token.continuation? = some continuation)
    (hleft : Phrase continuation.level front left)
    (h : (continueExpr strength left continuation tokens).Yields expr rest) :
    ∃ more, tokens = more ++ rest ∧ Fits strength (front ++ token :: more) expr ∧
      Stops strength rest := by
  cases continuation with
  | call =>
      obtain rfl := Token.continuation?_eq_call.mp htoken
      rw [continueExpr, yields_andThen] at h
      obtain ⟨args, middle, hmiddle, hargs, hextend⟩ := h
      rw [yields_widen] at hextend
      obtain ⟨argTokens, hargTokens, hitems⟩ := readList_sound hargs
      have hcall := Phrase.call hleft hitems
      obtain ⟨more, hmore, hfits, hstops⟩ :=
        extendExpr_sound (.of_chain hcall) (.of_chain hcall) hextend
      refine ⟨argTokens ++ .rparen :: more, by rw [hargTokens, hmore]; simp, ?_, hstops⟩
      simpa using hfits
  | index =>
      obtain rfl := Token.continuation?_eq_index.mp htoken
      rw [continueExpr, yields_andThen] at h
      obtain ⟨position, middle, hmiddle, hposition, h⟩ := h
      rw [yields_andThen] at h
      obtain ⟨_, after, hafter, hclose, hextend⟩ := h
      rw [yields_token] at hclose
      rw [yields_widen] at hextend
      obtain ⟨positionTokens, hpositionTokens, hfits, _⟩ := readExpr_sound hposition
      have hindex := Phrase.index hleft hfits.equality
      obtain ⟨more, hmore, hfits, hstops⟩ :=
        extendExpr_sound (.of_chain hindex) (.of_chain hindex) hextend
      refine ⟨positionTokens ++ .rbracket :: more, by
        rw [hpositionTokens, hclose, hmore]; simp, ?_, hstops⟩
      simpa using hfits
  | operator op =>
      obtain rfl := Token.continuation?_eq_operator.mp htoken
      rw [continueExpr, yields_andThen] at h
      obtain ⟨right, middle, hmiddle, hright, hextend⟩ := h
      rw [yields_widen] at hextend
      obtain ⟨rightTokens, hrightTokens, hfits, hstops⟩ := readExpr_sound hright
      obtain ⟨tight, htight, hphrase⟩ := hfits.right
      have hbinary := Phrase.binary hleft htight hphrase
      -- The right operand stopped before everything tighter than the operator, so whatever comes
      -- next may have the whole as its left operand: operators of one level group to the left.
      rw [op.strength_eq_rank] at hstops
      rw [Continuation.strength, op.strength_eq_rank] at hlt
      obtain ⟨more, hmore, hfits, hstops⟩ :=
        extendExpr_sound (.of_level hlt hbinary)
          (.of_stops (Nat.le_of_lt op.level_rank_lt_unary) hbinary hstops) hextend
      refine ⟨rightTokens ++ more, by rw [hrightTokens, hmore]; simp, ?_, hstops⟩
      simpa using hfits
termination_by tokens.length * 8 + 4

/-- An operand is a primary expression, or a unary operator with all that it takes. -/
theorem readOperand_sound {tokens rest : List Token} {expr : Expr}
    (h : (readOperand tokens).Yields expr rest) :
    ∃ front, tokens = front ++ rest ∧
      (Phrase .chain front expr ∨ Phrase .unary front expr ∧ Stops UnaryOp.strength rest) := by
  have hprimary : ∀ {front}, tokens = front ++ rest → Primary front expr →
      ∃ front, tokens = front ++ rest ∧
        (Phrase .chain front expr ∨ Phrase .unary front expr ∧ Stops UnaryOp.strength rest) :=
    fun htokens hprimary => ⟨_, htokens, .inl (.primary hprimary)⟩
  rw [readOperand.eq_def] at h
  split at h
  · exact (yields_refusedAtEnd h).elim
  next name left =>
    obtain ⟨rfl, rfl⟩ := yields_found.mp h
    exact hprimary rfl (.ident name)
  next digits left =>
    split at h
    next value hvalue =>
      obtain ⟨rfl, rfl⟩ := yields_found.mp h
      obtain ⟨hle, rfl⟩ := wordOfDigits?_eq_some.mp hvalue
      exact hprimary rfl (.int hle)
    · exact (yields_refused h).elim
  next text left =>
    obtain ⟨rfl, rfl⟩ := yields_found.mp h
    exact hprimary rfl (.str text)
  next left =>
    obtain ⟨rfl, rfl⟩ := yields_found.mp h
    exact hprimary rfl .kwTrue
  next left =>
    obtain ⟨rfl, rfl⟩ := yields_found.mp h
    exact hprimary rfl .kwFalse
  next left =>
    obtain ⟨front, hfront, hunary, hstops⟩ := readUnary_sound h
    exact ⟨.bang :: front, by rw [hfront, List.cons_append], .inr ⟨hunary, hstops⟩⟩
  next left =>
    obtain ⟨front, hfront, hunary, hstops⟩ := readUnary_sound h
    exact ⟨.minus :: front, by rw [hfront, List.cons_append], .inr ⟨hunary, hstops⟩⟩
  next left =>
    obtain ⟨front, hfront, hgroup⟩ := readGroup_sound h
    exact hprimary hfront hgroup
  next left =>
    obtain ⟨front, hfront, hcond⟩ := readCond_sound h
    exact hprimary hfront hcond
  next left =>
    obtain ⟨⟨params, body⟩, hclosure, rfl⟩ := yields_map.mp h
    obtain ⟨front, hfront, hbody⟩ := readClosure_sound hclosure
    exact hprimary (by rw [hfront]; simp) (.function params hbody)
  next left =>
    obtain ⟨⟨params, body⟩, hclosure, rfl⟩ := yields_map.mp h
    obtain ⟨front, hfront, hbody⟩ := readClosure_sound hclosure
    exact hprimary (by rw [hfront]; simp) (.macroLit params hbody)
  next left =>
    obtain ⟨elements, hlist, rfl⟩ := yields_map.mp h
    obtain ⟨front, hfront, hitems⟩ := readList_sound hlist
    exact hprimary (by rw [hfront]; simp) (.array hitems)
  next left =>
    obtain ⟨pairs, hlist, rfl⟩ := yields_map.mp h
    obtain ⟨front, hfront, hpairs⟩ := readPairs_sound hlist
    exact hprimary (by rw [hfront]; simp) (.hash hpairs)
  · exact (yields_refused h).elim
termination_by tokens.length * 8

/-- The operand of a unary operator extends as far as calls and index positions do. -/
theorem readUnary_sound {op : UnaryOp} {tokens rest : List Token} {expr : Expr}
    (h : (readUnary op tokens).Yields expr rest) :
    ∃ front, tokens = front ++ rest ∧ Phrase .unary (op.token :: front) expr ∧
      Stops UnaryOp.strength rest := by
  rw [readUnary, yields_widen, yields_map] at h
  obtain ⟨operand, hoperand, rfl⟩ := h
  obtain ⟨front, hfront, hfits, hstops⟩ := readExpr_sound hoperand
  exact ⟨front, hfront, .unary hfits.unary, hstops⟩
termination_by tokens.length * 8 + 2

/-- What stands in parentheses is an expression of any kind. -/
theorem readGroup_sound {tokens rest : List Token} {expr : Expr}
    (h : (readGroup tokens).Yields expr rest) :
    ∃ front, .lparen :: tokens = front ++ rest ∧ Primary front expr := by
  rw [readGroup, yields_andThen] at h
  obtain ⟨inner, middle, hmiddle, hinner, h⟩ := h
  rw [yields_widen, yields_map] at h
  obtain ⟨_, hclose, rfl⟩ := h
  rw [yields_token] at hclose
  obtain ⟨front, hfront, hfits, _⟩ := readExpr_sound hinner
  exact ⟨_, by rw [hfront, hclose]; simp, .group hfits.equality⟩
termination_by tokens.length * 8 + 2

/-- What follows `if` is a condition in parentheses and one or two blocks. -/
theorem readCond_sound {tokens rest : List Token} {expr : Expr}
    (h : (readCond tokens).Yields expr rest) :
    ∃ front, .kwIf :: tokens = front ++ rest ∧ Primary front expr := by
  rw [readCond, yields_andThen] at h
  obtain ⟨_, rest₁, hrest₁, hopen, h⟩ := h
  rw [yields_token] at hopen
  rw [yields_andThen] at h
  obtain ⟨condition, rest₂, hrest₂, hcondition, h⟩ := h
  rw [yields_andThen] at h
  obtain ⟨_, rest₃, hrest₃, hclose, h⟩ := h
  rw [yields_token] at hclose
  rw [yields_andThen] at h
  obtain ⟨consequence, rest₄, hrest₄, hconsequence, h⟩ := h
  rw [yields_widen, yields_map] at h
  obtain ⟨alternative, halternative, rfl⟩ := h
  obtain ⟨conditionTokens, hconditionTokens, hfits, _⟩ := readExpr_sound hcondition
  obtain ⟨block, hblock, hstatements⟩ := readBraced_sound hconsequence
  obtain ⟨rfl, rfl⟩ | ⟨elseBlock, elseTokens, rfl, helse, helseStatements⟩ :=
    readElse_sound halternative
  · exact ⟨_, by rw [hopen, hconditionTokens, hclose, hblock]; simp,
      .cond hfits.equality hstatements⟩
  · exact ⟨_, by rw [hopen, hconditionTokens, hclose, hblock, helse]; simp,
      .condElse hfits.equality hstatements helseStatements⟩
termination_by tokens.length * 8 + 2

/-- An alternative is read only behind `else`. -/
theorem readElse_sound {tokens rest : List Token} {alternative : Option Block}
    (h : (readElse tokens).Yields alternative rest) :
    alternative = none ∧ tokens = rest ∨
      ∃ block front, alternative = some block ∧
        tokens = .kwElse :: .lbrace :: (front ++ .rbrace :: rest) ∧ Statements front block := by
  rw [readElse.eq_def] at h
  split at h
  next left =>
    rw [yields_widen, yields_map] at h
    obtain ⟨block, hblock, rfl⟩ := h
    obtain ⟨front, hfront, hstatements⟩ := readBraced_sound hblock
    exact .inr ⟨block, front, rfl, by rw [hfront], hstatements⟩
  · obtain ⟨rfl, rfl⟩ := yields_found.mp h
    exact .inl ⟨rfl, rfl⟩
termination_by tokens.length * 8

/-- What follows `fn` or `macro` is a parameter list and a block. -/
theorem readClosure_sound {tokens rest : List Token} {params : List String} {body : Block}
    (h : (readClosure tokens).Yields (params, body) rest) :
    ∃ front, tokens = .lparen :: (paramTokens params ++ .rparen :: .lbrace ::
      (front ++ .rbrace :: rest)) ∧ Statements front body := by
  rw [readClosure, yields_andThen] at h
  obtain ⟨_, rest₁, hrest₁, hopen, h⟩ := h
  rw [yields_token] at hopen
  rw [yields_andThen] at h
  obtain ⟨names, rest₂, hrest₂, hnames, h⟩ := h
  rw [yields_readParams] at hnames
  rw [yields_widen, yields_map] at h
  obtain ⟨block, hblock, hpair⟩ := h
  obtain ⟨rfl, rfl⟩ := Prod.mk.inj hpair
  obtain ⟨front, hfront, hstatements⟩ := readBraced_sound hblock
  exact ⟨front, by rw [hopen, hnames, hfront], hstatements⟩
termination_by tokens.length * 8 + 5

/-- A block stands between braces. -/
theorem readBraced_sound {tokens rest : List Token} {block : Block}
    (h : (readBraced tokens).Yields block rest) :
    ∃ front, tokens = .lbrace :: (front ++ .rbrace :: rest) ∧ Statements front block := by
  rw [readBraced, yields_andThen] at h
  obtain ⟨_, rest₁, hrest₁, hopen, h⟩ := h
  rw [yields_token] at hopen
  rw [yields_widen] at h
  obtain ⟨front, hfront, hstatements⟩ := readBlock_sound h
  exact ⟨front, by rw [hopen, hfront], hstatements⟩
termination_by tokens.length * 8 + 4

/-- The statements of a block extend to its closing brace. -/
theorem readBlock_sound {tokens rest : List Token} {block : Block}
    (h : (readBlock tokens).Yields block rest) :
    ∃ front, tokens = front ++ .rbrace :: rest ∧ Statements front block := by
  cases tokens with
  | nil =>
      rw [readBlock] at h
      exact (yields_refusedAtEnd h).elim
  | cons token left =>
      by_cases hbrace : token = .rbrace
      · subst hbrace
        rw [readBlock, yields_widen, yields_found] at h
        obtain ⟨rfl, rfl⟩ := h
        exact ⟨[], rfl, .nil⟩
      · rw [readBlock.eq_3 _ _ hbrace, yields_recover] at h
        obtain ⟨statement, middle, hmiddle, statements, hstatement, hrest, rfl⟩ := h
        rw [yields_widen] at hrest
        obtain ⟨front, after, htokens, hfront, hstops, hskip⟩ := readStmt_sound hstatement
        obtain ⟨restTokens, hrestTokens, hstatements⟩ := readBlock_sound hrest
        obtain ⟨more, hmore, hall⟩ := hstatements.cons hfront hstops (hskip.trans hrestTokens)
        exact ⟨front ++ more, by rw [htokens, hmore, List.append_assoc], hall⟩
termination_by tokens.length * 8 + 3
decreasing_by all_goals subst_vars; simp only [List.length_cons]; omega

/-- A list extends to the token that closes it. -/
theorem readList_sound {close : Token} {tokens rest : List Token} {exprs : List Expr}
    (h : (readList close tokens).Yields exprs rest) :
    ∃ front, tokens = front ++ close :: rest ∧ Items front exprs := by
  rw [readList] at h
  split at h
  next hclose =>
    rw [yields_widen, yields_found] at h
    obtain ⟨rfl, rfl⟩ := h
    obtain ⟨left, rfl⟩ := List.head?_eq_some_iff.mp hclose
    exact ⟨[], rfl, .nil⟩
  next hclose =>
    obtain ⟨front, first, others, hfront, rfl, hitems⟩ := readItem_sound h
    exact ⟨front, hfront, hitems⟩
termination_by tokens.length * 8 + 3

/-- Behind an expression of a list stands the closing token, or a comma and another expression. -/
theorem readMoreItems_sound {close : Token} {tokens rest : List Token} {exprs : List Expr}
    (h : (readMoreItems close tokens).Yields exprs rest) :
    exprs = [] ∧ tokens = close :: rest ∨
      ∃ front first others, tokens = .comma :: (front ++ close :: rest) ∧
        exprs = first :: others ∧ Items front (first :: others) := by
  rw [readMoreItems.eq_def] at h
  split at h
  next left =>
    rw [yields_widen] at h
    obtain ⟨front, first, others, hfront, hexprs, hitems⟩ := readItem_sound h
    exact .inr ⟨front, first, others, by rw [hfront], hexprs, hitems⟩
  · rw [yields_map] at h
    obtain ⟨_, hclose, rfl⟩ := h
    exact .inl ⟨rfl, yields_token.mp hclose⟩
termination_by tokens.length * 8

/-- A list that is not empty has its expressions between commas. -/
theorem readItem_sound {close : Token} {tokens rest : List Token} {exprs : List Expr}
    (h : (readItem close tokens).Yields exprs rest) :
    ∃ front first others, tokens = front ++ close :: rest ∧ exprs = first :: others ∧
      Items front (first :: others) := by
  rw [readItem, yields_andThen] at h
  obtain ⟨item, middle, hmiddle, hitem, h⟩ := h
  rw [yields_widen, yields_map] at h
  obtain ⟨others, hothers, rfl⟩ := h
  obtain ⟨itemTokens, hitemTokens, hfits, _⟩ := readExpr_sound hitem
  obtain ⟨rfl, hclose⟩ | ⟨front, first, others, hfront, rfl, hitems⟩ :=
    readMoreItems_sound hothers
  · exact ⟨itemTokens, item, [], by rw [hitemTokens, hclose], rfl, .one hfits.equality⟩
  · exact ⟨_, item, first :: others, by rw [hitemTokens, hfront]; simp, rfl,
      .more hfits.equality hitems⟩
termination_by tokens.length * 8 + 2

/-- The pairs of a hash literal extend to its closing brace. -/
theorem readPairs_sound {tokens rest : List Token} {pairs : List (Expr × Expr)}
    (h : (readPairs tokens).Yields pairs rest) :
    ∃ front, tokens = front ++ .rbrace :: rest ∧ Pairs front pairs := by
  rw [readPairs.eq_def] at h
  split at h
  next left =>
    rw [yields_widen, yields_found] at h
    obtain ⟨rfl, rfl⟩ := h
    exact ⟨[], rfl, .nil⟩
  · rw [yields_andThen] at h
    obtain ⟨key, rest₁, hrest₁, hkey, h⟩ := h
    rw [yields_andThen] at h
    obtain ⟨_, rest₂, hrest₂, hcolon, h⟩ := h
    rw [yields_token] at hcolon
    rw [yields_andThen] at h
    obtain ⟨value, rest₃, hrest₃, hvalue, h⟩ := h
    rw [yields_widen, yields_map] at h
    obtain ⟨others, hothers, rfl⟩ := h
    obtain ⟨keyTokens, hkeyTokens, hkeyFits, _⟩ := readExpr_sound hkey
    obtain ⟨valueTokens, hvalueTokens, hvalueFits, _⟩ := readExpr_sound hvalue
    obtain ⟨rfl, hclose⟩ | ⟨front, hfront, hpairs⟩ := readMorePairs_sound hothers
    · exact ⟨_, by rw [hkeyTokens, hcolon, hvalueTokens, hclose]; simp,
        .one hkeyFits.equality hvalueFits.equality⟩
    · exact ⟨_, by rw [hkeyTokens, hcolon, hvalueTokens, hfront]; simp,
        .more hkeyFits.equality hvalueFits.equality hpairs⟩
termination_by tokens.length * 8 + 2

/-- Behind a pair stands the closing brace, or a comma and more pairs. -/
theorem readMorePairs_sound {tokens rest : List Token} {pairs : List (Expr × Expr)}
    (h : (readMorePairs tokens).Yields pairs rest) :
    pairs = [] ∧ tokens = .rbrace :: rest ∨
      ∃ front, tokens = .comma :: (front ++ .rbrace :: rest) ∧ Pairs front pairs := by
  rw [readMorePairs.eq_def] at h
  split at h
  next left =>
    rw [yields_widen, yields_found] at h
    obtain ⟨rfl, rfl⟩ := h
    exact .inl ⟨rfl, rfl⟩
  · rw [yields_andThen] at h
    obtain ⟨_, rest₁, hrest₁, hcomma, h⟩ := h
    rw [yields_token] at hcomma
    rw [yields_widen] at h
    obtain ⟨front, hfront, hpairs⟩ := readPairs_sound h
    exact .inr ⟨front, by rw [hcomma, hfront], hpairs⟩
termination_by tokens.length * 8 + 3

/-- A statement extends as far as its expression does, and takes a semicolon behind it. -/
theorem readStmt_sound {tokens rest : List Token} {statement : Stmt}
    (h : (readStmt tokens).Yields statement rest) :
    ∃ front middle, tokens = front ++ middle ∧ Statement front statement ∧
      Stops loosest middle ∧ skipSemicolon middle = rest := by
  rw [readStmt.eq_def] at h
  split at h
  next name left =>
    rw [yields_widen] at h
    obtain ⟨front, middle, hleft, hstatement, hstops, hskip⟩ := readBinding_sound h
    exact ⟨_, middle, by rw [hleft, List.cons_append, List.cons_append], hstatement, hstops,
      hskip⟩
  · exact (yields_refused h).elim
  · exact (yields_refusedAtEnd h).elim
  next left =>
    rw [yields_andThen] at h
    obtain ⟨value, middle, hmiddle, hvalue, h⟩ := h
    rw [yields_widen, yields_statement] at h
    obtain ⟨rfl, hskip⟩ := h
    obtain ⟨front, hfront, hfits, hstops⟩ := readExpr_sound hvalue
    exact ⟨_, middle, by rw [hfront, List.cons_append], .ret hfits.equality, hstops, hskip⟩
  · rw [yields_andThen] at h
    obtain ⟨value, middle, hmiddle, hvalue, h⟩ := h
    rw [yields_widen, yields_statement] at h
    obtain ⟨rfl, hskip⟩ := h
    obtain ⟨front, hfront, hfits, hstops⟩ := readExpr_sound hvalue
    exact ⟨_, middle, hfront, .expr hfits.equality, hstops, hskip⟩
termination_by tokens.length * 8 + 2

/-- A binding is a name, the sign of assignment and an expression. -/
theorem readBinding_sound {name : String} {tokens rest : List Token} {statement : Stmt}
    (h : (readBinding name tokens).Yields statement rest) :
    ∃ front middle, tokens = front ++ middle ∧
      Statement (.kwLet :: .ident name :: front) statement ∧ Stops loosest middle ∧
      skipSemicolon middle = rest := by
  rw [readBinding, yields_andThen] at h
  obtain ⟨_, rest₁, hrest₁, hassign, h⟩ := h
  rw [yields_token] at hassign
  rw [yields_andThen] at h
  obtain ⟨value, middle, hmiddle, hvalue, h⟩ := h
  rw [yields_widen, yields_statement] at h
  obtain ⟨rfl, hskip⟩ := h
  obtain ⟨front, hfront, hfits, hstops⟩ := readExpr_sound hvalue
  exact ⟨.assign :: front, middle, by rw [hassign, hfront, List.cons_append],
    .bind name hfits.equality, hstops, hskip⟩
termination_by tokens.length * 8 + 2

end

/-- A program that is read without errors is a rendering of the statements it is read as. -/
theorem readProgram_sound {tokens : List Token} (h : (readProgram tokens).errors = []) :
    Statements tokens (readProgram tokens).program := by
  fun_induction readProgram tokens with
  | case1 => exact .nil
  | case2 token rest statement dropped rest₁ hdone hread remaining ih =>
      obtain ⟨hdropped, hremaining⟩ := List.append_eq_nil_iff.mp h
      have hyields : (readStmt (token :: rest)).Yields statement rest₁ := by
        rw [hread]
        exact ⟨rfl, hdropped, rfl⟩
      obtain ⟨front, middle, htokens, hstatement, hstops, hskip⟩ := readStmt_sound hyields
      obtain ⟨more, hmore, hall⟩ :=
        (ih hremaining).cons hstatement hstops (hskip.trans (List.append_nil _).symm)
      rw [htokens, hmore, List.append_nil]
      exact hall
  | case3 token rest error dropped rest₁ hfailed hread remaining ih =>
      exact absurd (List.append_eq_nil_iff.mp h).2 (List.cons_ne_nil _ _)

end MonkeyLang
