import MonkeyLang.Expr.Render
import MonkeyLang.Proofs.Grammar.WellFormed

/-!
# The tokens of printed programs

`Expr.tokens` gives the tokens of the printed form of an expression without printing it. Read
`Expr.All.cutsApart` first: the printed form of a well-formed expression is cut into these tokens.
-/

namespace MonkeyLang

open Grammar (paramTokens)

/-- The tokens of statements in braces. -/
def bracedTokens (statements : List (List Token)) : List Token :=
  .lbrace :: (statements.flatten ++ [.rbrace])

/-- The tokens of a parameter list and a body after the word that introduces them. -/
def closureTokens (keyword : Token) (params : List String) (statements : List (List Token)) :
    List Token :=
  keyword :: .lparen :: (paramTokens params ++ .rparen :: bracedTokens statements)

/-- The tokens of items between commas. -/
def commaTokens (items : List (List Token)) : List Token :=
  [Token.comma].intercalate items

mutual

/-- The tokens of the printed form of an expression. -/
def Expr.tokens : Expr → List Token
  | .ident name => [.ident name]
  | .int value =>
      if value.toInt < 0 then [.minus, .int value.toInt.natAbs.repr]
      else [.int value.toInt.natAbs.repr]
  | .bool value => [if value then .kwTrue else .kwFalse]
  | .str text => [.str text]
  | .unary op operand => .lparen :: op.token :: (operand.tokens ++ [.rparen])
  | .binary left op right =>
      .lparen :: (left.tokens ++ op.token :: (right.tokens ++ [.rparen]))
  | .cond condition consequence none =>
      .kwIf :: (condition.tokens ++ bracedTokens (stmtsTokens consequence))
  | .cond condition consequence (some alternative) =>
      .kwIf :: (condition.tokens ++ (bracedTokens (stmtsTokens consequence) ++
        .kwElse :: bracedTokens (stmtsTokens alternative)))
  | .function params body => closureTokens .kwFn params (stmtsTokens body)
  | .macroLit params body => closureTokens .kwMacro params (stmtsTokens body)
  | .call callee args =>
      callee.tokens ++ .lparen :: (commaTokens (exprsTokens args) ++ [.rparen])
  | .array elements => .lbracket :: (commaTokens (exprsTokens elements) ++ [.rbracket])
  | .hash pairs => .lbrace :: (commaTokens (pairsTokens pairs) ++ [.rbrace])
  | .index collection position =>
      .lparen :: (collection.tokens ++ .lbracket :: (position.tokens ++ [.rbracket, .rparen]))

/-- The tokens of the printed form of a statement. -/
def Stmt.tokens : Stmt → List Token
  | .bind name value => .kwLet :: .ident name :: .assign :: (value.tokens ++ [.semicolon])
  | .ret value => .kwReturn :: (value.tokens ++ [.semicolon])
  | .expr value => value.tokens

/-- The tokens of the printed forms of statements. -/
def stmtsTokens : List Stmt → List (List Token)
  | [] => []
  | statement :: statements => statement.tokens :: stmtsTokens statements

/-- The tokens of the printed forms of expressions. -/
def exprsTokens : List Expr → List (List Token)
  | [] => []
  | expr :: exprs => expr.tokens :: exprsTokens exprs

/-- The tokens of the printed forms of the pairs of a hash literal. -/
def pairsTokens : List (Expr × Expr) → List (List Token)
  | [] => []
  | (key, value) :: pairs => (key.tokens ++ .colon :: value.tokens) :: pairsTokens pairs

end

/-- The tokens of statements are those of each. -/
theorem stmtsTokens_eq_map (statements : List Stmt) :
    stmtsTokens statements = statements.map Stmt.tokens := by
  induction statements with
  | nil => rfl
  | cons statement statements ih => rw [stmtsTokens, ih, List.map_cons]

/-- The tokens of expressions are those of each. -/
theorem exprsTokens_eq_map (exprs : List Expr) : exprsTokens exprs = exprs.map Expr.tokens := by
  induction exprs with
  | nil => rfl
  | cons expr exprs ih => rw [exprsTokens, ih, List.map_cons]

/-- The tokens of pairs are those of each. -/
theorem pairsTokens_eq_map (pairs : List (Expr × Expr)) :
    pairsTokens pairs = pairs.map fun pair => pair.1.tokens ++ .colon :: pair.2.tokens := by
  induction pairs with
  | nil => rfl
  | cons pair pairs ih => rw [pairsTokens, ih, List.map_cons]

/-! ## The pieces of printed text -/

theorem punctuates_lparen : Punctuates "(" [.lparen] :=
  punctuates_of_symbols '(' [] rfl rfl

theorem punctuates_rparen : Punctuates ")" [.rparen] :=
  punctuates_of_symbols ')' [] rfl rfl

theorem punctuates_lbracket : Punctuates "[" [.lbracket] :=
  punctuates_of_symbols '[' [] rfl rfl

theorem punctuates_comma : Punctuates ", " [.comma] :=
  punctuates_of_symbols ',' [' '] rfl rfl

theorem punctuates_semicolon : Punctuates ";" [.semicolon] :=
  punctuates_of_symbols ';' [] rfl rfl

theorem punctuates_blank : Punctuates " " [] :=
  punctuates_of_symbols ' ' [] rfl rfl

/-- The sign of a binding stands between blanks. -/
theorem punctuates_assign : Punctuates " = " [.assign] := by
  constructor
  · intro rest
    show lexemes (' ' :: '=' :: ' ' :: rest) = _
    rw [lexemes_of_isWhiteSpace (by decide), lexemes_of_not_isWhiteSpace (by decide)]
    simp [lexeme, lexemes_of_isWhiteSpace (show isWhiteSpace ' ' = true by decide)]
  · intro rest
    show Separates (' ' :: '=' :: ' ' :: rest)
    simp [Separates, isWordPart]

/-- A binary operator stands between blanks. -/
theorem punctuates_binary (op : BinaryOp) : Punctuates (" " ++ op.symbol ++ " ") [op.token] := by
  have hblank : isWhiteSpace ' ' = true := by decide
  cases op with
  | add => exact punctuates_of_symbols ' ' ['+', ' '] rfl rfl
  | subtract => exact punctuates_of_symbols ' ' ['-', ' '] rfl rfl
  | multiply => exact punctuates_of_symbols ' ' ['*', ' '] rfl rfl
  | divide => exact punctuates_of_symbols ' ' ['/', ' '] rfl rfl
  | less => exact punctuates_of_symbols ' ' ['<', ' '] rfl rfl
  | greater => exact punctuates_of_symbols ' ' ['>', ' '] rfl rfl
  | equal =>
      constructor
      · intro rest
        show lexemes (' ' :: '=' :: '=' :: ' ' :: rest) = _
        rw [lexemes_of_isWhiteSpace hblank, lexemes_of_not_isWhiteSpace (by decide)]
        simp [lexeme, lexemes_of_isWhiteSpace hblank, BinaryOp.token]
      · intro rest
        show Separates (' ' :: '=' :: '=' :: ' ' :: rest)
        simp [Separates, isWordPart]
  | notEqual =>
      constructor
      · intro rest
        show lexemes (' ' :: '!' :: '=' :: ' ' :: rest) = _
        rw [lexemes_of_isWhiteSpace hblank, lexemes_of_not_isWhiteSpace (by decide)]
        simp [lexeme, lexemes_of_isWhiteSpace hblank, BinaryOp.token]
      · intro rest
        show Separates (' ' :: '!' :: '=' :: ' ' :: rest)
        simp [Separates, isWordPart]

/-- A unary operator stands right before its operand, which must not start with `=` because `!=` is
one token. -/
theorem CutsApart.unary {text : String} {tokens : List Token} (op : UnaryOp)
    (htext : CutsApart text tokens)
    (hopening : ∃ first more, text.toList = first :: more ∧ first ≠ '=') :
    CutsApart (op.symbol ++ text) (op.token :: tokens) := by
  cases op with
  | negate =>
      have hminus : Punctuates "-" [.minus] :=
        punctuates_of_symbols '-' [] rfl rfl
      exact hminus.cuts.appendApart htext
  | not =>
      intro rest hrest
      obtain ⟨first, more, hchars, hne⟩ := hopening
      have hlexemes := htext rest hrest
      rw [hchars, List.cons_append] at hlexemes
      have hbang : ("!" ++ text).toList ++ rest = '!' :: first :: (more ++ rest) := by
        rw [String.toList_append, hchars]
        rfl
      show lexemes (("!" ++ text).toList ++ rest) = _
      rw [hbang, lexemes_of_not_isWhiteSpace (by decide)]
      simp [lexeme, hne, hlexemes, UnaryOp.token]

/-- The decimal form of an integer is a number, after a minus sign if it is negative. -/
theorem cutsApart_decimal (value : Int64) :
    CutsApart (decimal value.toInt) (Expr.int value).tokens := by
  have hdigits := cutsApart_repr value.toInt.natAbs
  unfold decimal Expr.tokens
  split
  · have hminus : Punctuates "-" [.minus] :=
      punctuates_of_symbols '-' [] rfl rfl
    exact hminus.cuts.appendApart hdigits
  · exact hdigits

/-- A word of letters is cut apart. -/
theorem cutsApart_keyword {word : String} (first : Char) (more : List Char)
    (hword : word = String.ofList (first :: more))
    (hchars : isWordStart first && more.all isWordPart) : CutsApart word [.ofWord word] := by
  rw [Bool.and_eq_true, List.all_eq_true] at hchars
  refine cutsApart_of_word ?_ hchars.1 hchars.2
  rw [hword, String.toList_ofList]

theorem cuts_let : Cuts "let " [.kwLet] :=
  (cutsApart_keyword 'l' ['e', 't'] rfl rfl).append punctuates_blank

theorem cuts_return : Cuts "return " [.kwReturn] :=
  (cutsApart_keyword 'r' ['e', 't', 'u', 'r', 'n'] rfl rfl).append
    punctuates_blank

theorem cuts_if : Cuts "if " [.kwIf] :=
  (cutsApart_keyword 'i' ['f'] rfl rfl).append punctuates_blank

theorem cuts_else : Cuts " else " [.kwElse] :=
  punctuates_blank.cuts.append
    ((cutsApart_keyword 'e' ['l', 's', 'e'] rfl rfl).append punctuates_blank)

/-! ## Lists -/

/-- Without separators, lists are put one behind the other. -/
theorem nil_intercalate (lists : List (List Token)) :
    ([] : List Token).intercalate lists = lists.flatten := by
  induction lists with
  | nil => rfl
  | cons list lists ih =>
      cases lists with
      | nil => simp
      | cons next lists =>
          rw [List.intercalate_cons_cons, ih, List.append_nil]
          rfl

/-- The tokens of a parameter list are those of the names between commas. -/
theorem paramTokens_eq_commaTokens (params : List String) :
    paramTokens params = commaTokens (params.map fun name => [.ident name]) := by
  induction params with
  | nil => rfl
  | cons name params ih =>
      cases params with
      | nil => rfl
      | cons next params =>
          have hsplit : paramTokens (name :: next :: params) =
            .ident name :: .comma :: paramTokens (next :: params) := rfl
          rw [hsplit, ih]
          simp [commaTokens]

/-- Expressions between commas are cut one by one. -/
theorem cutsApart_exprs {exprs : List Expr}
    (hexprs : ∀ expr ∈ exprs, CutsApart expr.render expr.tokens) :
    CutsApart (", ".intercalate (renderExprs exprs)) (commaTokens (exprsTokens exprs)) := by
  rw [renderExprs_eq_map, exprsTokens_eq_map]
  exact CutsApart.intercalate punctuates_comma exprs hexprs

/-- Pairs between commas are cut one by one. -/
theorem cutsApart_pairs {pairs : List (Expr × Expr)}
    (hkeys : ∀ pair ∈ pairs, CutsApart pair.1.render pair.1.tokens)
    (hvalues : ∀ pair ∈ pairs, CutsApart pair.2.render pair.2.tokens) :
    CutsApart (", ".intercalate (renderPairs pairs)) (commaTokens (pairsTokens pairs)) := by
  have hcolon : Punctuates ": " [.colon] :=
    punctuates_of_symbols ':' [' '] rfl rfl
  rw [renderPairs_eq_map, pairsTokens_eq_map]
  refine CutsApart.intercalate punctuates_comma pairs fun pair hmem => ?_
  have hpair := ((hkeys pair hmem).append hcolon).appendApart (hvalues pair hmem)
  rw [List.append_assoc] at hpair
  exact hpair

/-- Parameters between commas are cut one by one. -/
theorem cutsApart_params {params : List String} (hparams : ∀ name ∈ params, IsIdentifier name) :
    CutsApart (", ".intercalate params) (paramTokens params) := by
  have hnames : CutsApart (", ".intercalate (params.map id))
      (commaTokens (params.map fun name => [.ident name])) :=
    CutsApart.intercalate punctuates_comma params fun name hmem => (hparams name hmem).cutsApart
  rw [List.map_id] at hnames
  rw [paramTokens_eq_commaTokens]
  exact hnames

/-- A statement is cut into its tokens. -/
theorem cutsApart_stmt {statement : Stmt}
    (hname : ∀ name value, statement = .bind name value → IsIdentifier name)
    (hvalue : CutsApart statement.value.render statement.value.tokens) :
    CutsApart statement.render statement.tokens := by
  cases statement with
  | bind name value =>
      have hbinding := cuts_let.append
        ((((hname name value rfl).cutsApart.append punctuates_assign).appendApart hvalue).append
          punctuates_semicolon)
      simpa [Stmt.render, Stmt.tokens, Stmt.value, String.append_assoc] using hbinding.apart
  | ret value =>
      have hreturn := (cuts_return.appendApart hvalue).append punctuates_semicolon
      simpa [Stmt.render, Stmt.tokens, Stmt.value, String.append_assoc] using hreturn.apart
  | expr value => exact hvalue

/-- Statements between blanks are cut one by one. -/
theorem cutsApart_renderProgram {block : Block} (hblock : block.WellFormed)
    (hvalues : ∀ statement ∈ block,
      CutsApart statement.value.render statement.value.tokens) :
    CutsApart (renderProgram block) (stmtsTokens block).flatten := by
  rw [renderProgram, renderStmts_eq_map, stmtsTokens_eq_map, ← nil_intercalate]
  refine CutsApart.intercalate punctuates_blank block fun statement hmem => ?_
  refine cutsApart_stmt (fun name value heq => hblock name value ?_) (hvalues statement hmem)
  exact heq ▸ hmem

/-- A block is cut into its tokens. -/
theorem cuts_braced {block : Block} (hblock : block.WellFormed)
    (hvalues : ∀ statement ∈ block,
      CutsApart statement.value.render statement.value.tokens) :
    Cuts (braced (renderStmts block)) (bracedTokens (stmtsTokens block)) := by
  have hopen : Punctuates "\x7b " [.lbrace] :=
    punctuates_of_symbols '\x7b' [' '] rfl rfl
  have hclose : Punctuates " \x7d" [.rbrace] :=
    punctuates_of_symbols ' ' ['\x7d'] rfl rfl
  exact (hopen.cuts.appendApart (cutsApart_renderProgram hblock hvalues)).append hclose

/-- A function or macro literal is cut into its tokens. -/
theorem cuts_closure {word : String} {keyword : Token} {params : List String} {body : Block}
    (hword : CutsApart word [keyword]) (hparams : ∀ name ∈ params, IsIdentifier name)
    (hbody : Cuts (braced (renderStmts body)) (bracedTokens (stmtsTokens body))) :
    Cuts (renderClosure word params (renderStmts body))
      (closureTokens keyword params (stmtsTokens body)) := by
  have hclose : Punctuates ") " [.rparen] :=
    punctuates_of_symbols ')' [' '] rfl rfl
  have hclosure := (((hword.append punctuates_lparen).appendApart
    (cutsApart_params hparams)).append hclose).append hbody
  simpa [renderClosure, closureTokens, String.append_assoc] using hclosure

/-! ## Expressions -/

/-- No printed expression starts with `=`. -/
theorem Expr.All.opening {expr : Expr} (h : expr.All Expr.WellFormed Block.WellFormed) :
    ∃ first more, expr.render.toList = first :: more ∧ first ≠ '=' := by
  -- Only a call does not start with a character of its own, but with its callee.
  induction h with
  | ident hname =>
      obtain ⟨first, more, hchars, hfirst, _⟩ := hname.spelled
      refine ⟨first, more, hchars, ?_⟩
      rintro rfl
      exact absurd hfirst (by decide)
  | @int value _ =>
      obtain ⟨first, more, hchars, hfirst, _⟩ := toList_repr_eq_cons value.toInt.natAbs
      by_cases hnegative : value.toInt < 0
      · exact ⟨'-', _, by simp [Expr.render, decimal, hnegative]; rfl, by decide⟩
      · refine ⟨first, more, by simp [Expr.render, decimal, hnegative, hchars], ?_⟩
        rintro rfl
        exact absurd hfirst (by decide)
  | @bool value _ => cases value <;> exact ⟨_, _, rfl, by decide⟩
  | str => exact ⟨'"', _, by simp [Expr.render]; rfl, by decide⟩
  | unary | binary | index => exact ⟨'(', _, by simp [Expr.render]; rfl, by decide⟩
  | cond | condElse => exact ⟨'i', _, by simp [Expr.render]; rfl, by decide⟩
  | function => exact ⟨'f', _, by simp [Expr.render, renderClosure]; rfl, by decide⟩
  | macroLit => exact ⟨'m', _, by simp [Expr.render, renderClosure]; rfl, by decide⟩
  | call _ _ _ ih =>
      obtain ⟨first, more, hchars, hne⟩ := ih
      exact ⟨first, _, by simp [Expr.render, hchars]; rfl, hne⟩
  | array => exact ⟨'[', _, by simp [Expr.render]; rfl, by decide⟩
  | hash => exact ⟨'\x7b', _, by simp [Expr.render]; rfl, by decide⟩

/-- The printed form of a well-formed expression is cut into its tokens. -/
theorem Expr.All.cutsApart {expr : Expr} (h : expr.All Expr.WellFormed Block.WellFormed) :
    CutsApart expr.render expr.tokens := by
  induction h with
  | ident hname => exact IsIdentifier.cutsApart hname
  | int => exact cutsApart_decimal _
  | @bool value _ =>
      cases value with
      | true => exact cutsApart_keyword 't' ['r', 'u', 'e'] rfl rfl
      | false => exact cutsApart_keyword 'f' ['a', 'l', 's', 'e'] rfl rfl
  | str htext => exact (cuts_quoted htext).apart
  | @unary op operand _ hoperand ih =>
      have hunary := (punctuates_lparen.cuts.appendApart (ih.unary op hoperand.opening)).append
        punctuates_rparen
      simpa [Expr.render, Expr.tokens, String.append_assoc] using hunary.apart
  | @binary left right op _ _ _ ihleft ihright =>
      have hbinary := (((punctuates_lparen.cuts.appendApart ihleft).append
        (punctuates_binary op)).appendApart ihright).append punctuates_rparen
      simpa [Expr.render, Expr.tokens, String.append_assoc] using hbinary.apart
  | cond _ _ hblock _ ihcondition ihbody =>
      have hcond := ((cuts_if.appendApart ihcondition).append punctuates_blank).append
        (cuts_braced hblock ihbody)
      simpa [Expr.render, Expr.tokens, String.append_assoc] using hcond.apart
  | condElse _ _ hblock _ helse _ ihcondition ihbody ihelse =>
      have hcond := ((((cuts_if.appendApart ihcondition).append punctuates_blank).append
        (cuts_braced hblock ihbody)).append cuts_else).append (cuts_braced helse ihelse)
      simpa [Expr.render, Expr.tokens, String.append_assoc] using hcond.apart
  | function hparams hblock _ ihbody =>
      have hword := cutsApart_keyword 'f' ['n'] rfl rfl
      exact (cuts_closure hword hparams (cuts_braced hblock ihbody)).apart
  | macroLit hparams hblock _ ihbody =>
      have hword := cutsApart_keyword 'm' ['a', 'c', 'r', 'o'] rfl rfl
      exact (cuts_closure hword hparams (cuts_braced hblock ihbody)).apart
  | call _ _ _ ihcallee ihargs =>
      have hcall := ((ihcallee.append punctuates_lparen).appendApart
        (cutsApart_exprs ihargs)).append punctuates_rparen
      simpa [Expr.render, Expr.tokens, String.append_assoc] using hcall.apart
  | array _ _ ihelements =>
      have hclose : Punctuates "]" [.rbracket] :=
        punctuates_of_symbols ']' [] rfl rfl
      have harray := (punctuates_lbracket.cuts.appendApart (cutsApart_exprs ihelements)).append
        hclose
      simpa [Expr.render, Expr.tokens, String.append_assoc] using harray.apart
  | hash _ _ _ ihkeys ihvalues =>
      have hopen : Punctuates "\x7b" [.lbrace] :=
        punctuates_of_symbols '\x7b' [] rfl rfl
      have hclose : Punctuates "\x7d" [.rbrace] :=
        punctuates_of_symbols '\x7d' [] rfl rfl
      have hhash := (hopen.cuts.appendApart (cutsApart_pairs ihkeys ihvalues)).append hclose
      simpa [Expr.render, Expr.tokens, String.append_assoc] using hhash.apart
  | index _ _ _ ihcollection ihposition =>
      have hclose : Punctuates "])" [.rbracket, .rparen] :=
        punctuates_of_symbols ']' [')'] rfl rfl
      have hindex := (((punctuates_lparen.cuts.appendApart ihcollection).append
        punctuates_lbracket).appendApart ihposition).append hclose
      simpa [Expr.render, Expr.tokens, String.append_assoc] using hindex.apart

end MonkeyLang
