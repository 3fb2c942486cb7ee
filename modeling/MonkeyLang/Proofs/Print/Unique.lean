import Mathlib
import MonkeyLang.Proofs.Print.Layout
import MonkeyLang.Proofs.Print.Reread

/-!
# Different programs print differently

The printed form of a well-formed program is that of no other one: read `renderProgram_injective`.
An expression at the front of a text is found there by its first token and the uniqueness of its
parts. What follows it must not be taken for a part of it (`Ends`), with one exception: arguments
may follow a callee. So uniqueness is first shown for what is not a call (`Expr.UniqueHead`), then
up to the calls behind it (`Expr.UniqueUpToCalls`).
-/

namespace MonkeyLang

/-! ## Calls -/

/-- The expression after it was called with lists of arguments, one after the other. -/
def Expr.applied (callee : Expr) (lists : List (List Expr)) : Expr :=
  lists.foldl .call callee

/-- The text of lists of arguments, each in its parentheses, and of what follows. -/
def argumentsText : List (List Expr) → List Char → List Char
  | [], rest => rest
  | args :: lists, rest =>
      '(' :: exprPrinting.listing ", " args (')' :: argumentsText lists rest)

theorem argumentsText_append (lists others : List (List Expr)) (rest : List Char) :
    argumentsText (lists ++ others) rest = argumentsText lists (argumentsText others rest) := by
  induction lists with
  | nil => rfl
  | cons args lists ih => rw [List.cons_append, argumentsText, argumentsText, ih]

theorem Expr.applied_append (callee : Expr) (lists : List (List Expr)) (args : List Expr) :
    callee.applied (lists ++ [args]) = .call (callee.applied lists) args :=
  List.foldl_concat ..

theorem toList_call (callee : Expr) (args : List Expr) (rest : List Char) :
    (Expr.call callee args).render.toList ++ rest =
      callee.render.toList ++ argumentsText [args] rest := by
  simp [Expr.render, argumentsText, ← toList_renderExprs]

theorem stops_argumentsText {rest : List Char} (hrest : Stops rest) (lists : List (List Expr)) :
    Stops (argumentsText lists rest) := by
  cases lists with
  | nil => exact hrest
  | cons args lists =>
      refine ⟨by simp [Separates, argumentsText, isWordPart], ?_⟩
      rw [argumentsText, lexemes_of_ofSymbol? (show Token.ofSymbol? '(' = some .lparen from rfl)]
      simp

/-- Lists of arguments do not end an expression. -/
theorem eq_nil_of_ends {lists : List (List Expr)} {rest : List Char}
    (h : Ends (argumentsText lists rest)) : lists = [] := by
  cases lists with
  | nil => rfl
  | cons args lists => exact absurd rfl h.not_call

/-- Of two expressions at the front of one text, one is the other one after calls. -/
def Expr.UniqueUpToCalls (expr : Expr) : Prop :=
  ∀ ⦃other rest rest'⦄, other.Proper → Stops rest → Stops rest' →
    expr.render.toList ++ rest = other.render.toList ++ rest' →
    (∃ lists, other = expr.applied lists ∧ rest = argumentsText lists rest') ∨
      ∃ lists, expr = other.applied lists ∧ rest' = argumentsText lists rest

/-- If no arguments follow, there are no calls. -/
theorem Expr.UniqueUpToCalls.unique {expr : Expr} (h : expr.UniqueUpToCalls) :
    exprPrinting.Unique expr := by
  intro other rest rest' hother hrest hrest' htext
  rcases h hother hrest.toStops hrest'.toStops htext with
    ⟨lists, happlied, hmore⟩ | ⟨lists, happlied, hmore⟩
  · cases eq_nil_of_ends (hmore ▸ hrest)
    exact ⟨happlied.symm, hmore⟩
  · cases eq_nil_of_ends (hmore ▸ hrest')
    exact ⟨happlied, hmore.symm⟩

/-- Whether an expression is a call. -/
def Expr.isCall : Expr → Bool
  | .call .. => true
  | _ => false

/-- An expression that is not a call is the only such one at the front of a text. -/
def Expr.UniqueHead (expr : Expr) : Prop :=
  ∀ ⦃other rest rest'⦄, other.Proper → other.isCall = false → Stops rest → Stops rest' →
    expr.render.toList ++ rest = other.render.toList ++ rest' → expr = other

/-- Every expression is one that is not a call, after calls. -/
theorem Expr.exists_head : ∀ expr : Expr, ∃ (head : Expr) (lists : List (List Expr)),
    head.isCall = false ∧ expr = head.applied lists
  | .call callee args => by
      obtain ⟨head, lists, hhead, happlied⟩ := callee.exists_head
      exact ⟨head, lists ++ [args], hhead, by rw [applied_append, ← happlied]⟩
  | .ident _ | .int _ | .bool _ | .str _ | .unary .. | .binary .. | .cond .. | .function ..
  | .macroLit .. | .array _ | .hash _ | .index .. => ⟨_, [], rfl, rfl⟩

/-- An expression that is called, and the arguments, are the parts of the calls. -/
theorem Expr.proper_applied {expr : Expr} {lists : List (List Expr)} :
    (expr.applied lists).Proper ↔
      expr.Proper ∧ ∀ args ∈ lists, ∀ arg ∈ args, arg.Proper := by
  induction lists generalizing expr with
  | nil => exact ⟨fun h => ⟨h, fun _ hnone => nomatch hnone⟩, fun h => h.1⟩
  | cons args lists ih =>
      rw [List.forall_mem_cons, ← and_assoc]
      refine ih.trans (and_congr_left fun _ => ⟨fun h => ?_, fun h => .call trivial h.1 h.2⟩)
      cases h with
      | call _ hexpr hargs => exact ⟨hexpr, hargs⟩

theorem toList_applied (expr : Expr) (lists : List (List Expr)) (rest : List Char) :
    (expr.applied lists).render.toList ++ rest =
      expr.render.toList ++ argumentsText lists rest := by
  induction lists generalizing expr with
  | nil => rfl
  | cons args lists ih =>
      show ((Expr.call expr args).applied lists).render.toList ++ rest = _
      rw [ih, toList_call]
      rfl

/-- The calls at the front of a text begin with the expression that is not a call. -/
theorem Expr.UniqueHead.upToCalls {expr : Expr} (h : expr.UniqueHead) : expr.UniqueUpToCalls := by
  intro other rest rest' hother hrest hrest' htext
  obtain ⟨head, lists, hhead, rfl⟩ := other.exists_head
  rw [toList_applied] at htext
  cases h (proper_applied.mp hother).1 hhead hrest (stops_argumentsText hrest' lists) htext
  exact Or.inl ⟨lists, rfl, List.append_cancel_left htext⟩

/-- A call is unique up to more calls if its callee and its arguments are. -/
theorem Expr.UniqueUpToCalls.call {callee : Expr} {args : List Expr}
    (hcallee : callee.UniqueUpToCalls) (hargs : ∀ arg ∈ args, exprPrinting.Unique arg)
    (hproper : ∀ arg ∈ args, arg.Proper) : (Expr.call callee args).UniqueUpToCalls := by
  intro other rest rest' hother hrest hrest' htext
  rw [toList_call] at htext
  rcases hcallee hother (stops_argumentsText hrest [args]) hrest' htext with
    ⟨lists, rfl, hmore⟩ | ⟨lists, rfl, hmore⟩
  · cases lists with
    | nil => exact Or.inr ⟨[args], rfl, hmore.symm⟩
    | cons others lists =>
        -- The first list behind the callee is the one of this call.
        have hothers : ∀ other ∈ others, other.Proper :=
          (proper_applied.mp hother).2 others List.mem_cons_self
        obtain ⟨rfl, hclose⟩ := Printing.listing_inj separatesItems_comma hargs hproper hothers
          (closesList_rparen _) (closesList_rparen _) (List.tail_eq_of_cons_eq hmore)
        exact Or.inl ⟨lists, rfl, List.tail_eq_of_cons_eq hclose⟩
  · refine Or.inr ⟨lists ++ [args], (applied_append ..).symm, ?_⟩
    rw [hmore, argumentsText_append]

/-! ## What is not a call -/

/-- What an expression that begins with the token is, unless it is a call. -/
def Token.Shapes : Token → Expr → Prop
  | .ident name, expr => expr = .ident name
  | .int digits, expr =>
      ∃ value, expr = .int value ∧ 0 ≤ value.toInt ∧ digits = value.toInt.natAbs.repr
  | .minus, expr => ∃ value, expr = .int value ∧ value.toInt < 0
  | .str text, expr => expr = .str text
  | .kwTrue, expr => expr = .bool true
  | .kwFalse, expr => expr = .bool false
  | .lparen, expr => expr.IsOperation
  | .kwIf, expr => ∃ condition consequence alternative,
      expr = .cond condition consequence alternative
  | .kwFn, expr => ∃ params body, expr = .function params body
  | .kwMacro, expr => ∃ params body, expr = .macroLit params body
  | .lbracket, expr => ∃ elements, expr = .array elements
  | .lbrace, expr => ∃ pairs, expr = .hash pairs
  | _, _ => False

/-- The first token of an expression that is not a call says what it is. -/
theorem Expr.shapes_of_tokens {expr : Expr} (hcall : expr.isCall = false) {token : Token}
    {more rest : List Token} (h : expr.tokens ++ more = token :: rest) : token.Shapes expr := by
  cases expr with
  | call => cases hcall
  | int value =>
      by_cases hnegative : value.toInt < 0
      · simp only [tokens, if_pos hnegative] at h
        cases h
        exact ⟨value, rfl, hnegative⟩
      · simp only [tokens, if_neg hnegative] at h
        cases h
        exact ⟨value, rfl, Int.not_lt.mp hnegative, rfl⟩
  | bool value => cases value <;> cases h <;> rfl
  | cond condition consequence alternative =>
      cases alternative <;> cases h <;> exact ⟨_, _, _, rfl⟩
  | function | macroLit => cases h; exact ⟨_, _, rfl⟩
  | array | hash => cases h; exact ⟨_, rfl⟩
  | unary | binary | index => cases h; trivial
  | ident | str => cases h; rfl

/-- Two expressions at the front of one text begin with the same tokens. -/
theorem Expr.tokens_append_eq {expr other : Expr} {rest rest' : List Char} (hexpr : expr.Proper)
    (hother : other.Proper) (hrest : Separates rest) (hrest' : Separates rest')
    (h : expr.render.toList ++ rest = other.render.toList ++ rest') :
    expr.tokens ++ lexemes rest = other.tokens ++ lexemes rest' :=
  exprPrinting.tokens_append_eq hexpr hother hrest hrest' h

/-- The first token of an expression says what another one at the front of the same text is, so it
is enough to compare two of one kind. -/
theorem uniqueHead_of_first {expr : Expr} {token : Token} {more : List Token}
    (hexpr : expr.Proper) (htokens : expr.tokens = token :: more)
    (hkind : ∀ ⦃other rest rest'⦄, token.Shapes other → other.Proper → Stops rest → Stops rest' →
      expr.render.toList ++ rest = other.render.toList ++ rest' → expr = other) :
    expr.UniqueHead := by
  intro other rest rest' hother hcall hrest hrest' h
  have heq := Expr.tokens_append_eq hexpr hother hrest.separates hrest'.separates h
  rw [htokens] at heq
  exact hkind (Expr.shapes_of_tokens hcall heq.symm) hother hrest hrest' h

/-- Numbers with the same digits are equal. -/
theorem eq_of_repr_eq {number number' : Nat} (h : number.repr = number'.repr) :
    number = number' := by
  have hdigits := congrArg (fun digits => Nat.ofDigitChars 10 digits.toList 0) h
  simpa only [Nat.toList_repr, Nat.ofDigitChars_ten_toDigits] using hdigits

/-- An integer is read up to its last digit. -/
theorem uniqueHead_int (value : Int64) : (Expr.int value).UniqueHead := by
  intro other rest rest' hother hcall hrest hrest' h
  have heq := Expr.tokens_append_eq (.int trivial) hother hrest.separates hrest'.separates h
  have habs : ∃ value' : Int64, other = .int value' ∧
      value'.toInt.natAbs = value.toInt.natAbs ∧ (value'.toInt < 0 ↔ value.toInt < 0) := by
    by_cases hnegative : value.toInt < 0
    · simp only [Expr.tokens, if_pos hnegative] at heq
      obtain ⟨value', rfl, hnegative'⟩ : Token.Shapes .minus other :=
        Expr.shapes_of_tokens hcall heq.symm
      simp only [Expr.tokens, if_pos hnegative', List.cons_append, List.cons.injEq, true_and,
        Token.int.injEq] at heq
      exact ⟨value', rfl, (eq_of_repr_eq heq.1).symm, iff_of_true hnegative' hnegative⟩
    · simp only [Expr.tokens, if_neg hnegative] at heq
      obtain ⟨value', rfl, hsign', hdigits⟩ : Token.Shapes (.int _) other :=
        Expr.shapes_of_tokens hcall heq.symm
      exact ⟨value', rfl, (eq_of_repr_eq hdigits).symm,
        iff_of_false (Int.not_lt.mpr hsign') hnegative⟩
  obtain ⟨value', rfl, hdigits, hsign⟩ := habs
  exact congrArg Expr.int (Int64.toInt_inj.mp (by omega))

/-- An array literal is unique if its elements are. -/
theorem uniqueHead_array {elements : List Expr} (hproper : ∀ element ∈ elements, element.Proper)
    (hunique : ∀ element ∈ elements, exprPrinting.Unique element) :
    (Expr.array elements).UniqueHead := by
  refine uniqueHead_of_first (.array trivial hproper) rfl ?_
  intro other rest rest' hshape hother _ _ h
  obtain ⟨elements', rfl⟩ := hshape
  rw [toList_array, toList_array] at h
  cases hother with
  | array _ hproper' =>
      have hlists := Printing.listing_inj separatesItems_comma hunique hproper hproper'
        (closesList_rbracket rest) (closesList_rbracket rest') (List.tail_eq_of_cons_eq h)
      exact congrArg Expr.array hlists.1

/-- A hash literal is unique if its keys and its values are. -/
theorem uniqueHead_hash {pairs : List (Expr × Expr)}
    (hproper : ∀ pair ∈ pairs, pair.1.Proper ∧ pair.2.Proper)
    (hunique : ∀ pair ∈ pairs, pairPrinting.Unique pair) : (Expr.hash pairs).UniqueHead := by
  refine uniqueHead_of_first (.hash trivial (fun pair hmem => (hproper pair hmem).1)
    fun pair hmem => (hproper pair hmem).2) rfl ?_
  intro other rest rest' hshape hother _ _ h
  obtain ⟨pairs', rfl⟩ := hshape
  rw [toList_hash, toList_hash] at h
  cases hother with
  | hash _ hkeys' hvalues' =>
      have hlists := Printing.listing_inj separatesItems_comma hunique hproper
        (fun pair hmem => ⟨hkeys' pair hmem, hvalues' pair hmem⟩)
        (closesList_rbrace rest) (closesList_rbrace rest') (List.tail_eq_of_cons_eq h)
      exact congrArg Expr.hash hlists.1

/-- The parts of a conditional. -/
theorem Expr.proper_cond {condition : Expr} {consequence : Block} {alternative : Option Block}
    (h : (Expr.cond condition consequence alternative).Proper) :
    condition.Proper ∧ (∀ statement ∈ consequence, statement.Proper) ∧
      ∀ block ∈ alternative, ∀ statement ∈ block, statement.Proper := by
  cases h with
  | cond _ hcondition hown hvalues =>
      exact ⟨hcondition, Block.All.proper ⟨hown, hvalues⟩, fun _ hnone => nomatch hnone⟩
  | condElse _ hcondition hown hvalues hown' hvalues' =>
      refine ⟨hcondition, Block.All.proper ⟨hown, hvalues⟩, fun block hblock => ?_⟩
      cases hblock
      exact Block.All.proper ⟨hown', hvalues'⟩

/-- After a block, `else` tells whether there is another one. -/
theorem elseText_inj {alternative alternative' : Option Block} {rest rest' : List Char}
    (hrest : Stops rest) (hrest' : Stops rest')
    (hproper : ∀ block ∈ alternative, ∀ statement ∈ block, statement.Proper)
    (hunique : ∀ block ∈ alternative, ∀ statement ∈ block, exprPrinting.Unique statement.value)
    (hproper' : ∀ block ∈ alternative', ∀ statement ∈ block, statement.Proper)
    (h : elseText alternative rest = elseText alternative' rest') :
    alternative = alternative' := by
  have helse : ∀ block rest, (lexemes (elseText (some block) rest)).head? = some .kwElse := by
    intro block rest
    rw [elseText, cuts_else]
    rfl
  cases alternative with
  | none =>
      cases alternative' with
      | none => rfl
      | some block' =>
          have hother := helse block' rest'
          rw [← h] at hother
          exact absurd hother hrest.not_else
  | some block =>
      cases alternative' with
      | none =>
          have hself := helse block rest
          rw [h] at hself
          exact absurd hself hrest'.not_else
      | some block' =>
          exact congrArg some (blockText_inj (hproper block rfl) (hunique block rfl)
            (hproper' block' rfl) (List.append_cancel_left h)).1

/-- A conditional is unique if its condition and the expressions in its blocks are. -/
theorem uniqueHead_cond {condition : Expr} {consequence : Block} {alternative : Option Block}
    (hexpr : (Expr.cond condition consequence alternative).Proper)
    (hcondition : exprPrinting.Unique condition)
    (hconsequence : ∀ statement ∈ consequence, exprPrinting.Unique statement.value)
    (halternative : ∀ block ∈ alternative, ∀ statement ∈ block,
      exprPrinting.Unique statement.value) :
    (Expr.cond condition consequence alternative).UniqueHead := by
  obtain ⟨more, hfirst⟩ : ∃ more,
      (Expr.cond condition consequence alternative).tokens = .kwIf :: more := by
    cases alternative <;> exact ⟨_, rfl⟩
  refine uniqueHead_of_first hexpr hfirst ?_
  intro other rest rest' hshape hother hrest hrest' h
  obtain ⟨condition', consequence', alternative', rfl⟩ := hshape
  obtain ⟨-, hblock, helse⟩ := Expr.proper_cond hexpr
  obtain ⟨hproper', hblock', helse'⟩ := Expr.proper_cond hother
  rw [toList_cond, toList_cond] at h
  have hbrace : ∀ block rest, Ends (' ' :: blockText block rest) := by
    intro block rest
    refine ends_blank ?_
    rw [blockText, lexemes_of_ofSymbol? (show Token.ofSymbol? '\x7b' = some .lbrace from rfl)]
    simp
  obtain ⟨rfl, hblocks⟩ := hcondition hproper' (hbrace _ _) (hbrace _ _)
    (List.append_cancel_left h)
  obtain ⟨rfl, helses⟩ := blockText_inj hblock hconsequence hblock'
    (List.tail_eq_of_cons_eq hblocks)
  rw [elseText_inj hrest hrest' helse halternative helse' helses]

/-- A function literal is unique if the expressions in its body are. -/
theorem uniqueHead_function {params : List String} {body : Block}
    (hparams : ∀ name ∈ params, IsIdentifier name)
    (hbody : body.All Expr.WellFormed Block.WellFormed)
    (hunique : ∀ statement ∈ body, exprPrinting.Unique statement.value) :
    (Expr.function params body).UniqueHead := by
  refine uniqueHead_of_first (.function hparams hbody.own hbody.values) rfl ?_
  intro other rest rest' hshape hother _ _ h
  obtain ⟨params', body', rfl⟩ := hshape
  cases hother with
  | function hparams' hown' hvalues' =>
      obtain ⟨rfl, rfl⟩ := renderClosure_inj hparams hbody.proper hunique hparams'
        (Block.All.proper ⟨hown', hvalues'⟩) h
      rfl

/-- A macro literal is unique if the expressions in its body are. -/
theorem uniqueHead_macroLit {params : List String} {body : Block}
    (hparams : ∀ name ∈ params, IsIdentifier name)
    (hbody : body.All Expr.WellFormed Block.WellFormed)
    (hunique : ∀ statement ∈ body, exprPrinting.Unique statement.value) :
    (Expr.macroLit params body).UniqueHead := by
  refine uniqueHead_of_first (.macroLit hparams hbody.own hbody.values) rfl ?_
  intro other rest rest' hshape hother _ _ h
  obtain ⟨params', body', rfl⟩ := hshape
  cases hother with
  | macroLit hparams' hown' hvalues' =>
      obtain ⟨rfl, rfl⟩ := renderClosure_inj hparams hbody.proper hunique hparams'
        (Block.All.proper ⟨hown', hvalues'⟩) h
      rfl

/-! ## Operations -/

/-- Calls of a negative number are printed as those of the number, after the sign. -/
theorem toList_applied_negative {value negative : Int64}
    (hsign : (Expr.int negative).render.toList = '-' :: (Expr.int value).render.toList)
    (lists : List (List Expr)) :
    ((Expr.int negative).applied lists).render.toList =
      '-' :: ((Expr.int value).applied lists).render.toList := by
  have happlied := toList_applied (.int negative) lists []
  have hvalue := toList_applied (.int value) lists []
  rw [List.append_nil] at happlied hvalue
  rw [happlied, hvalue, hsign, List.cons_append]

/-- If a minus sign and an expression are at the front of one text with another expression, both are
calls of numbers: the sign belongs to the number of the second one, and could belong to that of the
first one. -/
theorem exists_signed {operand left : Expr} {rest rest' : List Char} (hoperand : operand.Proper)
    (hleft : left.Proper) (hrest : Stops rest) (hrest' : Stops rest')
    (h : '-' :: (operand.render.toList ++ rest) = left.render.toList ++ rest') :
    (∃ negated : Expr, negated.Proper ∧
      negated.render.toList = '-' :: operand.render.toList) ∧
    ∃ unsigned : Expr, unsigned.Proper ∧
      left.render.toList = '-' :: unsigned.render.toList := by
  obtain ⟨head, lists, hhead, rfl⟩ := operand.exists_head
  obtain ⟨head', lists', hhead', rfl⟩ := left.exists_head
  obtain ⟨hproper, hargs⟩ := Expr.proper_applied.mp hoperand
  obtain ⟨hproper', hargs'⟩ := Expr.proper_applied.mp hleft
  rw [toList_applied, toList_applied] at h
  have hlexemes := congrArg lexemes h
  rw [lexemes_of_ofSymbol? (show Token.ofSymbol? '-' = some .minus from rfl),
    hproper.cutsApart _ (stops_argumentsText hrest lists).separates,
    hproper'.cutsApart _ (stops_argumentsText hrest' lists').separates] at hlexemes
  obtain ⟨negative, rfl, hnegative⟩ : Token.Shapes .minus head' :=
    Expr.shapes_of_tokens hhead' hlexemes.symm
  simp only [Expr.tokens, if_pos hnegative, List.cons_append, List.cons.injEq, true_and]
    at hlexemes
  obtain ⟨value, rfl, hvalue, hdigits⟩ : Token.Shapes (.int _) head :=
    Expr.shapes_of_tokens hhead hlexemes
  have hsign : (Expr.int negative).render.toList = '-' :: (Expr.int value).render.toList := by
    simp [Expr.render, decimal, hnegative, Int.not_lt.mpr hvalue, hdigits]
  exact ⟨⟨_, Expr.proper_applied.mpr ⟨hproper', hargs⟩, toList_applied_negative hsign lists⟩,
    _, Expr.proper_applied.mpr ⟨hproper, hargs'⟩, toList_applied_negative hsign lists'⟩

/-- What stands in parentheses behind a unary operator does not begin with an expression that
something else follows. -/
theorem unary_text_ne {op : UnaryOp} {operand left : Expr} {rest rest' : List Char}
    (hoperand : operand.Proper) (hleft : left.Proper)
    (hunique : exprPrinting.Unique operand ∨ exprPrinting.Unique left) (hrest' : Ends rest')
    (hclose : rest'.head? ≠ some ')') :
    op.symbol.toList ++ (operand.render.toList ++ ')' :: rest) ≠
      left.render.toList ++ rest' := by
  intro h
  have hparen : Ends (')' :: rest) := (closesList_rparen rest).toEnds
  have hlexemes := congrArg lexemes h
  rw [← List.append_assoc, ← String.toList_append,
    hoperand.cutsApart.unary op hoperand.opening _ hparen.separates,
    hleft.cutsApart _ hrest'.separates] at hlexemes
  cases op with
  | not => exact left.tokens_append_ne rfl _ _ hlexemes.symm
  | negate =>
      obtain ⟨⟨negated, hnegated, hoperandText⟩, unsigned, hunsigned, hleftText⟩ :=
        exists_signed hoperand hleft hparen.toStops hrest'.toStops h
      -- Moving the sign from one side to the other leaves two expressions at the front of one text.
      have hmore : ')' :: rest = rest' := by
        rcases hunique with hunique | hunique
        · rw [hleftText] at h
          exact (hunique hunsigned hparen hrest' (List.tail_eq_of_cons_eq h)).2
        · refine (hunique hnegated hrest' hparen ?_).2.symm
          show left.render.toList ++ rest' = negated.render.toList ++ _
          rw [hoperandText]
          exact h.symm
      exact hclose (hmore ▸ rfl)

/-- An operator between blanks ends the operand before it. -/
theorem ends_binary (op : BinaryOp) (rest : List Char) :
    Ends (' ' :: (op.symbol.toList ++ ' ' :: rest)) := by
  have hcuts : lexemes (' ' :: (op.symbol.toList ++ ' ' :: rest)) = op.token :: lexemes rest := by
    simpa using (punctuates_binary op).cuts rest
  rw [lexemes_of_isWhiteSpace (by decide)] at hcuts
  refine ends_blank ?_
  rw [hcuts]
  cases op <;> simp [BinaryOp.token]

/-- A bracket ends the expression before it. -/
theorem ends_lbracket (rest : List Char) : Ends ('[' :: rest) :=
  ends_symbol rfl (by decide) rest

/-- An operator is read up to the blank behind it. -/
theorem symbol_inj {op op' : BinaryOp} {rest rest' : List Char}
    (h : op.symbol.toList ++ ' ' :: rest = op'.symbol.toList ++ ' ' :: rest') : op = op' := by
  cases op <;> cases op' <;> first | rfl | simp [BinaryOp.symbol] at h

/-- A unary operation is unique if its operand is. -/
theorem uniqueHead_unary {op : UnaryOp} {operand : Expr} (hproper : operand.Proper)
    (hunique : exprPrinting.Unique operand) : (Expr.unary op operand).UniqueHead := by
  refine uniqueHead_of_first (.unary trivial hproper) rfl ?_
  intro other rest rest' hshape hother _ _ h
  rw [toList_unary] at h
  cases hother with
  | @unary op' operand' _ hproper' =>
      rw [toList_unary] at h
      have hop : op = op' := by
        cases op <;> cases op' <;> first | rfl | cases List.tail_eq_of_cons_eq h
      subst hop
      have hoperands := List.append_cancel_left (List.tail_eq_of_cons_eq h)
      exact congrArg (Expr.unary op) (hunique hproper' (closesList_rparen rest).toEnds
        (closesList_rparen rest').toEnds hoperands).1
  | binary _ hleft _ =>
      rw [toList_binary] at h
      exact absurd (List.tail_eq_of_cons_eq h)
        (unary_text_ne hproper hleft (.inl hunique) (ends_binary _ _) (by simp))
  | index _ hcollection _ =>
      rw [toList_index] at h
      exact absurd (List.tail_eq_of_cons_eq h)
        (unary_text_ne hproper hcollection (.inl hunique) (ends_lbracket _) (by simp))
  | _ => exact hshape.elim

/-- A binary operation is unique if its operands are. -/
theorem uniqueHead_binary {left right : Expr} {op : BinaryOp} (hleft : left.Proper)
    (hright : right.Proper) (huniqueLeft : exprPrinting.Unique left)
    (huniqueRight : exprPrinting.Unique right) : (Expr.binary left op right).UniqueHead := by
  refine uniqueHead_of_first (.binary trivial hleft hright) rfl ?_
  intro other rest rest' hshape hother _ _ h
  rw [toList_binary] at h
  cases hother with
  | unary _ hproper' =>
      rw [toList_unary] at h
      exact absurd (List.tail_eq_of_cons_eq h).symm
        (unary_text_ne hproper' hleft (.inr huniqueLeft) (ends_binary _ _) (by simp))
  | binary _ hleft' hright' =>
      rw [toList_binary] at h
      obtain ⟨rfl, hmore⟩ := huniqueLeft hleft' (ends_binary _ _) (ends_binary _ _)
        (List.tail_eq_of_cons_eq h)
      have hops := List.tail_eq_of_cons_eq hmore
      obtain rfl := symbol_inj hops
      have hrights := List.tail_eq_of_cons_eq (List.append_cancel_left hops)
      rw [(huniqueRight hright' (closesList_rparen rest).toEnds (closesList_rparen rest').toEnds
        hrights).1]
  | index _ hcollection' _ =>
      rw [toList_index] at h
      have hmore := (huniqueLeft hcollection' (ends_binary _ _) (ends_lbracket _)
        (List.tail_eq_of_cons_eq h)).2
      cases hmore
  | _ => exact hshape.elim

/-- An index operation is unique if its operands are. -/
theorem uniqueHead_index {collection position : Expr} (hcollection : collection.Proper)
    (hposition : position.Proper) (huniqueCollection : exprPrinting.Unique collection)
    (huniquePosition : exprPrinting.Unique position) :
    (Expr.index collection position).UniqueHead := by
  refine uniqueHead_of_first (.index trivial hcollection hposition) rfl ?_
  intro other rest rest' hshape hother _ _ h
  rw [toList_index] at h
  cases hother with
  | unary _ hproper' =>
      rw [toList_unary] at h
      exact absurd (List.tail_eq_of_cons_eq h).symm
        (unary_text_ne hproper' hcollection (.inr huniqueCollection) (ends_lbracket _) (by simp))
  | binary _ hleft' _ =>
      rw [toList_binary] at h
      have hmore := (huniqueCollection hleft' (ends_lbracket _) (ends_binary _ _)
        (List.tail_eq_of_cons_eq h)).2
      cases hmore
  | index _ hcollection' hposition' =>
      rw [toList_index] at h
      obtain ⟨rfl, hmore⟩ := huniqueCollection hcollection' (ends_lbracket _) (ends_lbracket _)
        (List.tail_eq_of_cons_eq h)
      rw [(huniquePosition hposition' (closesList_rbracket _).toEnds
        (closesList_rbracket _).toEnds (List.tail_eq_of_cons_eq hmore)).1]
  | _ => exact hshape.elim

/-! ## Programs -/

/-- At the front of a text, an expression is unique up to the calls behind it. -/
theorem Expr.All.uniqueUpToCalls {expr : Expr} (h : expr.All Expr.WellFormed Block.WellFormed) :
    expr.UniqueUpToCalls := by
  -- Only a call is extended by what may follow it, so all others are heads.
  induction h with
  | ident hname =>
      exact (uniqueHead_of_first (.ident hname) rfl fun _ _ _ hshape _ _ _ _ =>
        hshape.symm).upToCalls
  | int => exact (uniqueHead_int _).upToCalls
  | @bool value _ =>
      refine (uniqueHead_of_first (.bool trivial) rfl fun _ _ _ hshape _ _ _ _ => ?_).upToCalls
      cases value <;> exact hshape.symm
  | str htext =>
      exact (uniqueHead_of_first (.str htext) rfl fun _ _ _ hshape _ _ _ _ =>
        hshape.symm).upToCalls
  | unary _ hoperand ih => exact (uniqueHead_unary hoperand ih.unique).upToCalls
  | binary _ hleft hright ihleft ihright =>
      exact (uniqueHead_binary hleft hright ihleft.unique ihright.unique).upToCalls
  | cond hexpr hcondition hown hvalues ihcondition ihbody =>
      refine (uniqueHead_cond (.cond hexpr hcondition hown hvalues) ihcondition.unique
        (fun statement hmem => (ihbody statement hmem).unique) ?_).upToCalls
      exact fun _ hnone => nomatch hnone
  | condElse hexpr hcondition hown hvalues hown' hvalues' ihcondition ihbody ihothers =>
      refine (uniqueHead_cond (.condElse hexpr hcondition hown hvalues hown' hvalues')
        ihcondition.unique (fun statement hmem => (ihbody statement hmem).unique) ?_).upToCalls
      intro block hblock statement hmem
      cases hblock
      exact (ihothers statement hmem).unique
  | function hparams hown hvalues ihbody =>
      exact (uniqueHead_function hparams ⟨hown, hvalues⟩
        fun statement hmem => (ihbody statement hmem).unique).upToCalls
  | macroLit hparams hown hvalues ihbody =>
      exact (uniqueHead_macroLit hparams ⟨hown, hvalues⟩
        fun statement hmem => (ihbody statement hmem).unique).upToCalls
  | call _ _ hargs ihcallee ihargs =>
      exact ihcallee.call (fun arg hmem => (ihargs arg hmem).unique) hargs
  | array _ helements ihelements =>
      exact (uniqueHead_array helements fun element hmem =>
        (ihelements element hmem).unique).upToCalls
  | hash _ hkeys hvalues ihkeys ihvalues =>
      exact (uniqueHead_hash (fun pair hmem => ⟨hkeys pair hmem, hvalues pair hmem⟩)
        fun pair hmem => unique_pair (ihkeys pair hmem).unique
          (ihvalues pair hmem).unique).upToCalls
  | index _ hcollection hposition ihcollection ihposition =>
      exact (uniqueHead_index hcollection hposition ihcollection.unique
        ihposition.unique).upToCalls

/-- Every accepted program is well formed, and two well-formed programs that print the same are the
same. Integers may be negative. -/
theorem renderProgram_injective :
    (∀ (source : String) (program : Program), parse source = .ok program →
      Block.All Expr.WellFormed Block.WellFormed program) ∧
    ∀ program other : Program, Block.All Expr.WellFormed Block.WellFormed program →
      Block.All Expr.WellFormed Block.WellFormed other →
      renderProgram program = renderProgram other → program = other := by
  constructor
  · intro source program hparse
    exact (all_accepted_of_parse hparse).mono (fun _ hexpr => hexpr.1) fun _ hblock => hblock
  · intro program other hprogram hother h
    -- In braces, both programs are followed by what closes a list of statements.
    have hblocks : blockText program [] = blockText other [] := by
      rw [blockText, blockText, ← toList_renderStmts, ← toList_renderStmts]
      exact congrArg (fun text => '\x7b' :: ' ' :: (text.toList ++ [' ', '\x7d'])) h
    exact (blockText_inj hprogram.proper
      (fun statement hmem => (hprogram.values statement hmem).uniqueUpToCalls.unique)
      hother.proper hblocks).1

/-- A call with a negative number and a statement with a sign after another one differ in a blank
only, and not in their tokens. -/
theorem renderProgram_injective_sign :
    let called : Program := [.expr (.call (.ident "f") [.int (-5)])]
    let apart : Program := [.expr (.ident "f"), .expr (.unary .negate (.int 5))]
    lexemes (renderProgram called).toList = lexemes (renderProgram apart).toList ∧
      renderProgram called ≠ renderProgram apart ∧
      (parseWithErrors "f; (-5)").program = apart := by
  intro called apart
  have hname : IsIdentifier "f" := ⟨⟨'f', [], rfl, rfl, by simp⟩, rfl⟩
  have hcalled : Block.All Expr.WellFormed Block.WellFormed called := by
    refine ⟨by simp [Block.WellFormed, called], List.forall_mem_singleton.mpr ?_⟩
    exact .call trivial (.ident hname) (List.forall_mem_singleton.mpr (.int trivial))
  have hparse : parse "f; (-5)" = .ok (parseWithErrors "f; (-5)").program := by cbv
  have hparsed := renderProgram_injective.1 _ _ hparse
  have hapart : Block.All Expr.WellFormed Block.WellFormed apart := by
    refine ⟨by simp [Block.WellFormed, apart], List.forall_mem_cons.mpr ⟨.ident hname, ?_⟩⟩
    exact List.forall_mem_singleton.mpr (.unary trivial (.int trivial))
  have hprinted : renderProgram (parseWithErrors "f; (-5)").program = renderProgram apart := by
    cbv
  refine ⟨by cbv, fun h => ?_, renderProgram_injective.2 _ _ hparsed hapart hprinted⟩
  have hsame := renderProgram_injective.2 called apart hcalled hapart h
  simp [called, apart] at hsame

end MonkeyLang
