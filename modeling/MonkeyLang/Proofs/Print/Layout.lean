import MonkeyLang.Proofs.Print.Listing
import MonkeyLang.Proofs.Print.Tokens

/-!
# The layout of printed programs

The text of each construct is laid out as the texts of its parts and of what follows it. Names,
pairs, statements and blocks stand in lists, and each of them is the only one that can stand where
it does if the expressions in it are: read `blockText_inj`.
-/

namespace MonkeyLang

/-- The names in an expression are identifiers, and no string in it has a quote inside. -/
abbrev Expr.Proper (expr : Expr) : Prop :=
  expr.All Expr.WellFormed Block.WellFormed

/-- The names in a statement are identifiers, and no string in it has a quote inside. -/
structure Stmt.Proper (statement : Stmt) : Prop where
  name : ∀ name value, statement = .bind name value → IsIdentifier name
  value : statement.value.Proper

theorem Block.All.proper {block : Block} (h : block.All Expr.WellFormed Block.WellFormed) :
    ∀ statement ∈ block, statement.Proper :=
  fun statement hmem => ⟨fun name value heq => h.own name value (heq ▸ hmem),
    h.values statement hmem⟩

/-! ## Items -/

/-- The first token of an expression. -/
theorem Expr.head_startsExpr : ∀ expr : Expr, ∃ token ∈ expr.tokens.head?, token.startsExpr
  | .ident _ | .str _ | .unary .. | .binary .. | .array _ | .hash _ | .index .. => ⟨_, rfl, rfl⟩
  | .cond _ _ none | .cond _ _ (some _) | .function .. | .macroLit .. => ⟨_, rfl, rfl⟩
  | .bool true | .bool false => ⟨_, rfl, rfl⟩
  | .int value => by
      by_cases hnegative : value.toInt < 0
      · exact ⟨.minus, by simp [Expr.tokens, hnegative], rfl⟩
      · exact ⟨.int value.toInt.natAbs.repr, by simp [Expr.tokens, hnegative], rfl⟩
  | .call callee args => by
      obtain ⟨token, htoken, hstarts⟩ := callee.head_startsExpr
      exact ⟨token, List.mem_head?_append_of_mem_head? htoken, hstarts⟩

/-- No other token is the first one of an expression. -/
theorem Expr.tokens_append_ne (expr : Expr) {token : Token} (htoken : token.startsExpr = false)
    (more rest : List Token) : expr.tokens ++ more ≠ token :: rest := by
  intro h
  obtain ⟨first, hfirst, hstarts⟩ := expr.head_startsExpr
  have hhead : first ∈ (expr.tokens ++ more).head? := List.mem_head?_append_of_mem_head? hfirst
  rw [h] at hhead
  cases hhead
  rw [hstarts] at htoken
  cases htoken

theorem Token.continuesList_of_startsExpr {token : Token} (h : token.startsExpr) :
    token.continuesList := by
  simp [continuesList, h]

/-- How expressions are printed. -/
def exprPrinting : Printing Expr where
  render := Expr.render
  tokens := Expr.tokens
  Proper := Expr.Proper
  cuts _ hproper := hproper.cutsApart
  starts expr _ := by
    obtain ⟨token, htoken, hstarts⟩ := expr.head_startsExpr
    exact ⟨token, htoken, Token.continuesList_of_startsExpr hstarts⟩

/-- How statements are printed. -/
def stmtPrinting : Printing Stmt where
  render := Stmt.render
  tokens := Stmt.tokens
  Proper := Stmt.Proper
  cuts _ hproper := cutsApart_stmt hproper.name hproper.value.cutsApart
  starts statement _ := by
    cases statement with
    | bind => exact ⟨_, rfl, rfl⟩
    | ret => exact ⟨_, rfl, rfl⟩
    | expr value =>
        obtain ⟨token, htoken, hstarts⟩ := value.head_startsExpr
        exact ⟨token, htoken, Token.continuesList_of_startsExpr hstarts⟩

/-- How the pairs of a hash literal are printed. -/
def pairPrinting : Printing (Expr × Expr) where
  render pair := pair.1.render ++ ": " ++ pair.2.render
  tokens pair := pair.1.tokens ++ .colon :: pair.2.tokens
  Proper pair := pair.1.Proper ∧ pair.2.Proper
  cuts pair hproper := by
    have hcolon : Punctuates ": " [.colon] :=
      punctuates_of_symbols ':' [' '] rfl rfl
    have hpair := (hproper.1.cutsApart.append hcolon).appendApart hproper.2.cutsApart
    rwa [List.append_assoc] at hpair
  starts pair _ := by
    obtain ⟨token, htoken, hstarts⟩ := pair.1.head_startsExpr
    exact ⟨token, List.mem_head?_append_of_mem_head? htoken,
      Token.continuesList_of_startsExpr hstarts⟩

/-- How parameters are printed. -/
def namePrinting : Printing String where
  render := id
  tokens name := [.ident name]
  Proper := IsIdentifier
  cuts _ hname := hname.cutsApart
  starts name _ := ⟨.ident name, rfl, rfl⟩

theorem separatesItems_comma : SeparatesItems ", " [.comma] where
  toPunctuates := punctuates_comma
  continues := by simp [Token.continuesList]
  not_call := by simp

theorem separatesItems_blank : SeparatesItems " " [] where
  toPunctuates := punctuates_blank
  continues := by simp
  not_call := by simp

/-! ## Layout -/

section Layout

variable (rest : List Char)

theorem toList_renderStmts (block : Block) :
    (" ".intercalate (renderStmts block)).toList ++ rest = stmtPrinting.listing " " block rest := by
  rw [renderStmts_eq_map]
  exact stmtPrinting.toList_intercalate_append " " block rest

theorem toList_renderExprs (exprs : List Expr) :
    (", ".intercalate (renderExprs exprs)).toList ++ rest =
      exprPrinting.listing ", " exprs rest := by
  rw [renderExprs_eq_map]
  exact exprPrinting.toList_intercalate_append ", " exprs rest

theorem toList_renderPairs (pairs : List (Expr × Expr)) :
    (", ".intercalate (renderPairs pairs)).toList ++ rest =
      pairPrinting.listing ", " pairs rest := by
  rw [renderPairs_eq_map]
  exact pairPrinting.toList_intercalate_append ", " pairs rest

theorem toList_params (params : List String) :
    (", ".intercalate params).toList ++ rest = namePrinting.listing ", " params rest := by
  have h := namePrinting.toList_intercalate_append ", " params rest
  rwa [show params.map namePrinting.render = params from List.map_id params] at h

/-- The text of a block and of what follows it. -/
def blockText (block : Block) (rest : List Char) : List Char :=
  '\x7b' :: ' ' :: stmtPrinting.listing " " block (' ' :: '\x7d' :: rest)

theorem toList_braced (block : Block) :
    (braced (renderStmts block)).toList ++ rest = blockText block rest := by
  simp [braced, blockText, ← toList_renderStmts]

theorem toList_unary (op : UnaryOp) (operand : Expr) :
    (Expr.unary op operand).render.toList ++ rest =
      '(' :: (op.symbol.toList ++ (operand.render.toList ++ ')' :: rest)) := by
  simp [Expr.render]

theorem toList_binary (left right : Expr) (op : BinaryOp) :
    (Expr.binary left op right).render.toList ++ rest =
      '(' :: (left.render.toList ++
        ' ' :: (op.symbol.toList ++ ' ' :: (right.render.toList ++ ')' :: rest))) := by
  simp [Expr.render]

theorem toList_index (collection position : Expr) :
    (Expr.index collection position).render.toList ++ rest =
      '(' :: (collection.render.toList ++
        '[' :: (position.render.toList ++ ']' :: ')' :: rest)) := by
  simp [Expr.render]

/-- The text of an alternative, if there is one, and of what follows. -/
def elseText : Option Block → List Char → List Char
  | none, rest => rest
  | some alternative, rest => " else ".toList ++ blockText alternative rest

theorem toList_cond (condition : Expr) (consequence : Block) (alternative : Option Block) :
    (Expr.cond condition consequence alternative).render.toList ++ rest =
      "if ".toList ++ (condition.render.toList ++
        ' ' :: blockText consequence (elseText alternative rest)) := by
  cases alternative <;> simp [Expr.render, elseText, ← toList_braced]

theorem toList_closure (keyword : String) (params : List String) (body : Block) :
    (renderClosure keyword params (renderStmts body)).toList ++ rest =
      keyword.toList ++
        '(' :: namePrinting.listing ", " params (')' :: ' ' :: blockText body rest) := by
  simp [renderClosure, ← toList_braced, ← toList_params]

theorem toList_array (elements : List Expr) :
    (Expr.array elements).render.toList ++ rest =
      '[' :: exprPrinting.listing ", " elements (']' :: rest) := by
  simp [Expr.render, ← toList_renderExprs]

theorem toList_hash (pairs : List (Expr × Expr)) :
    (Expr.hash pairs).render.toList ++ rest =
      '\x7b' :: pairPrinting.listing ", " pairs ('\x7d' :: rest) := by
  simp [Expr.render, ← toList_renderPairs]

end Layout

/-! ## Items are unique if the expressions in them are -/

theorem closesList_rparen (rest : List Char) : ClosesList (')' :: rest) :=
  closesList_symbol rfl (by decide) rfl rest

theorem closesList_rbracket (rest : List Char) : ClosesList (']' :: rest) :=
  closesList_symbol rfl (by decide) rfl rest

theorem closesList_rbrace (rest : List Char) : ClosesList ('\x7d' :: rest) :=
  closesList_symbol rfl (by decide) rfl rest

/-- A name is read up to its last character. -/
theorem unique_name {name : String} (hname : IsIdentifier name) : namePrinting.Unique name := by
  intro other rest rest' hother hrest hrest' h
  have htokens := namePrinting.tokens_append_eq hname hother hrest.separates hrest'.separates h
  have hnames : name = other := by simpa [namePrinting] using List.head_eq_of_cons_eq htokens
  subst hnames
  exact ⟨rfl, List.append_cancel_left h⟩

/-- A pair is unique if its key and its value are. -/
theorem unique_pair {pair : Expr × Expr} (hkey : exprPrinting.Unique pair.1)
    (hvalue : exprPrinting.Unique pair.2) : pairPrinting.Unique pair := by
  intro other rest rest' hother hrest hrest' h
  have hlayout : ∀ (pair : Expr × Expr) (rest : List Char),
      (pairPrinting.render pair).toList ++ rest =
        pair.1.render.toList ++ ':' :: ' ' :: (pair.2.render.toList ++ rest) := by
    intro pair rest
    simp [pairPrinting]
  rw [hlayout, hlayout] at h
  obtain ⟨hkeys, hmore⟩ := hkey hother.1 (ends_symbol rfl (by decide) _)
    (ends_symbol rfl (by decide) _) h
  simp only [List.cons.injEq, true_and] at hmore
  obtain ⟨hvalues, hends⟩ := hvalue hother.2 hrest hrest' hmore
  exact ⟨Prod.ext hkeys hvalues, hends⟩

/-- A statement is unique if its expression is. -/
theorem unique_stmt {statement : Stmt} (hproper : statement.Proper)
    (hvalue : exprPrinting.Unique statement.value) : stmtPrinting.Unique statement := by
  intro other rest rest' hother hrest hrest' h
  have htokens : statement.tokens ++ lexemes rest = other.tokens ++ lexemes rest' :=
    stmtPrinting.tokens_append_eq hproper hother hrest.separates hrest'.separates h
  -- The semicolon of a binding or a return ends its expression.
  have hclosed : ∀ value', value'.Proper →
      statement.value.render.toList ++ ';' :: rest = value'.render.toList ++ ';' :: rest' →
      statement.value = value' ∧ rest = rest' := by
    intro value' hvalue' h
    have hends : ∀ rest, Ends (';' :: rest) := ends_symbol rfl (by decide)
    obtain ⟨hvalues, hmore⟩ := hvalue hvalue' (hends rest) (hends rest') h
    exact ⟨hvalues, List.tail_eq_of_cons_eq hmore⟩
  cases statement with
  | bind name value =>
      cases other with
      | bind name' value' =>
          obtain ⟨rfl, -⟩ : name = name' ∧ _ := by simpa [Stmt.tokens] using htokens
          obtain ⟨hvalues, hmore⟩ := hclosed value' hother.value (by
            simpa [stmtPrinting, Stmt.render, Stmt.value] using h)
          exact ⟨congrArg (Stmt.bind name) hvalues, hmore⟩
      | ret value' => cases htokens
      | expr value' => exact absurd htokens.symm (value'.tokens_append_ne rfl _ _)
  | ret value =>
      cases other with
      | bind name' value' => cases htokens
      | ret value' =>
          obtain ⟨hvalues, hmore⟩ := hclosed value' hother.value (by
            simpa [stmtPrinting, Stmt.render, Stmt.value] using h)
          exact ⟨congrArg Stmt.ret hvalues, hmore⟩
      | expr value' => exact absurd htokens.symm (value'.tokens_append_ne rfl _ _)
  | expr value =>
      cases other with
      | bind name' value' => exact absurd htokens (value.tokens_append_ne rfl _ _)
      | ret value' => exact absurd htokens (value.tokens_append_ne rfl _ _)
      | expr value' =>
          obtain ⟨hvalues, hmore⟩ := hvalue hother.value hrest hrest' h
          exact ⟨congrArg Stmt.expr hvalues, hmore⟩

/-- A block is unique if the expressions in it are, whatever follows it. -/
theorem blockText_inj {block other : Block} {rest rest' : List Char}
    (hproper : ∀ statement ∈ block, statement.Proper)
    (hunique : ∀ statement ∈ block, exprPrinting.Unique statement.value)
    (hother : ∀ statement ∈ other, statement.Proper)
    (h : blockText block rest = blockText other rest') : block = other ∧ rest = rest' := by
  simp only [blockText, List.cons.injEq, true_and] at h
  obtain ⟨hblocks, hclose⟩ := Printing.listing_inj separatesItems_blank
    (fun statement hmem => unique_stmt (hproper statement hmem) (hunique statement hmem)) hproper
    hother (closesList_rbrace rest).blank (closesList_rbrace rest').blank h
  simp only [List.cons.injEq, true_and] at hclose
  exact ⟨hblocks, hclose⟩

/-- A parameter list and a body are unique if the expressions in the body are. -/
theorem renderClosure_inj {keyword : String} {params others : List String} {body other : Block}
    {rest rest' : List Char} (hparams : ∀ name ∈ params, IsIdentifier name)
    (hproper : ∀ statement ∈ body, statement.Proper)
    (hunique : ∀ statement ∈ body, exprPrinting.Unique statement.value)
    (hothers : ∀ name ∈ others, IsIdentifier name)
    (hother : ∀ statement ∈ other, statement.Proper)
    (h : (renderClosure keyword params (renderStmts body)).toList ++ rest =
      (renderClosure keyword others (renderStmts other)).toList ++ rest') :
    params = others ∧ body = other := by
  rw [toList_closure, toList_closure] at h
  obtain ⟨hnames, hbodies⟩ := Printing.listing_inj separatesItems_comma
    (fun name hmem => unique_name (hparams name hmem)) hparams hothers (closesList_rparen _)
    (closesList_rparen _) (List.tail_eq_of_cons_eq (List.append_cancel_left h))
  simp only [List.cons.injEq, true_and] at hbodies
  exact ⟨hnames, (blockText_inj hproper hunique hother hbodies).1⟩

end MonkeyLang
