import Mathlib
import MonkeyLang.Proofs.Grammar.Parse
import MonkeyLang.Proofs.Print.Tokens

/-!
# Printed programs read back

Printing a program and parsing the text gives the program back, unless the printed form is
ambiguous. It is so in two places only: a condition that is printed without parentheses, and an
expression statement that a bracket follows. Read `parse_renderProgram` first.
-/

namespace MonkeyLang

open Grammar

/-- Whether an expression is printed in parentheses. -/
def Expr.IsOperation : Expr → Prop
  | .unary .. | .binary .. | .index .. => True
  | _ => False

/-- Whether the condition of a conditional is printed in parentheses. -/
def Expr.ParenthesizesCondition : Expr → Prop
  | .cond condition _ _ => condition.IsOperation
  | _ => True

/-- Whether a statement is an expression. -/
def Stmt.IsExpr : Stmt → Prop
  | .expr _ => True
  | _ => False

/-- Whether a statement is an expression whose printed form begins with a bracket. -/
def Stmt.OpensBracket : Stmt → Prop
  | .expr value => value.render.toList.head? = some '(' ∨ value.render.toList.head? = some '['
  | _ => False

/-- Whether no expression statement is followed at once by one that begins with a bracket. -/
def Block.Separated (block : Block) : Prop :=
  ∀ pair ∈ block.zip block.tail, pair.1.IsExpr → ¬ pair.2.OpensBracket

/-- What an expression of a program that reads back is like. -/
def Expr.Rereadable (expr : Expr) : Prop :=
  expr.Unsigned ∧ expr.ParenthesizesCondition

/-! ## First tokens -/

/-- If the first token of an expression could continue the one before, it is a bracket and the
printed form begins with it. -/
theorem Expr.All.opensBracket {expr : Expr} {onBlock : Block → Prop}
    (h : expr.All Expr.Rereadable onBlock) :
    ∃ token more, expr.tokens = token :: more ∧
      (token.Continues → Stmt.OpensBracket (.expr expr)) := by
  induction h with
  | @int value hvalue =>
      have hunsigned : ¬ value.toInt < 0 := Int.not_lt.mpr hvalue.1
      refine ⟨.int value.toInt.natAbs.repr, [], ?_, by simp [Token.Continues]⟩
      simp [Expr.tokens, hunsigned]
  | @bool value _ => cases value <;> exact ⟨_, _, rfl, by simp [Token.Continues]⟩
  | ident | str | cond | condElse | function | macroLit | hash =>
      exact ⟨_, _, rfl, by simp [Token.Continues]⟩
  | unary | binary | index => exact ⟨_, _, rfl, fun _ => Or.inl (by simp [Expr.render])⟩
  | array => exact ⟨_, _, rfl, fun _ => Or.inr (by simp [Expr.render])⟩
  | call _ _ _ ih =>
      obtain ⟨token, more, htokens, hopens⟩ := ih
      refine ⟨token, _, by rw [Expr.tokens, htokens]; rfl, fun hcontinues => ?_⟩
      rcases hopens hcontinues with hhead | hhead
      · exact Or.inl (by simp [Expr.render, hhead])
      · exact Or.inr (by simp [Expr.render, hhead])

/-- If the first token of a statement could continue the one before, its printed form begins with a
bracket. -/
theorem Stmt.opensBracket_of_continues {statement : Stmt} {onBlock : Block → Prop}
    (h : statement.value.All Expr.Rereadable onBlock) :
    ∃ token more, statement.tokens = token :: more ∧
      (token.Continues → statement.OpensBracket) := by
  cases statement with
  | bind | ret => exact ⟨_, _, rfl, by simp [Token.Continues]⟩
  | expr value => exact h.opensBracket

/-! ## Renderings -/

/-- A chain is an expression on every level. -/
theorem Grammar.Phrase.ofChain {tokens : List Token} {expr : Expr} (level : Level)
    (h : Phrase .chain tokens expr) : Phrase level tokens expr :=
  .loosen level.rank_le_chain h

/-- The tokens of an expression are a rendering of it, and those of an operation are parentheses
around one. -/
structure Expr.Renders (expr : Expr) : Prop where
  chain : Phrase .chain expr.tokens expr
  inside : expr.IsOperation → ∃ inner, expr.tokens = .lparen :: (inner ++ [.rparen]) ∧
    Phrase .equality inner expr

/-- Renderings of expressions between commas. -/
theorem items_of_phrases {α : Type} {tokens : α → List Token} {expr : α → Expr} {items : List α}
    (hitems : ∀ item ∈ items, Phrase .equality (tokens item) (expr item)) :
    Items (commaTokens (items.map tokens)) (items.map expr) := by
  induction items with
  | nil => exact .nil
  | cons item items ih =>
      obtain ⟨hitem, hrest⟩ := List.forall_mem_cons.mp hitems
      cases items with
      | nil => simpa [commaTokens] using Items.one hitem
      | cons next items => simpa [commaTokens] using Items.more hitem (ih hrest)

/-- Renderings of pairs between commas. -/
theorem pairs_of_phrases {α : Type} {keyTokens valueTokens : α → List Token} {key value : α → Expr}
    {items : List α} (hkeys : ∀ item ∈ items, Phrase .equality (keyTokens item) (key item))
    (hvalues : ∀ item ∈ items, Phrase .equality (valueTokens item) (value item)) :
    Pairs (commaTokens (items.map fun item => keyTokens item ++ .colon :: valueTokens item))
      (items.map fun item => (key item, value item)) := by
  induction items with
  | nil => exact .nil
  | cons item items ih =>
      obtain ⟨hkey, hrestKeys⟩ := List.forall_mem_cons.mp hkeys
      obtain ⟨hvalue, hrestValues⟩ := List.forall_mem_cons.mp hvalues
      cases items with
      | nil => simpa [commaTokens] using Pairs.one hkey hvalue
      | cons next items =>
          have hpairs := Pairs.more hkey hvalue (ih hrestKeys hrestValues)
          simpa [commaTokens] using hpairs

/-- The tokens of expressions between commas are a rendering of them. -/
theorem items_commaTokens {exprs : List Expr}
    (hexprs : ∀ expr ∈ exprs, expr.Renders) :
    Items (commaTokens (exprsTokens exprs)) exprs := by
  have hitems := items_of_phrases fun expr hmem => (hexprs expr hmem).chain.ofChain .equality
  rwa [List.map_id', ← exprsTokens_eq_map] at hitems

/-- The tokens of pairs between commas are a rendering of them. -/
theorem pairs_commaTokens {pairs : List (Expr × Expr)}
    (hkeys : ∀ pair ∈ pairs, pair.1.Renders) (hvalues : ∀ pair ∈ pairs, pair.2.Renders) :
    Pairs (commaTokens (pairsTokens pairs)) pairs := by
  have hpairs := pairs_of_phrases (fun pair hmem => (hkeys pair hmem).chain.ofChain .equality)
    fun pair hmem => (hvalues pair hmem).chain.ofChain .equality
  rwa [List.map_id', ← pairsTokens_eq_map] at hpairs

/-- The tokens of separated statements are a rendering of them. -/
theorem statements_tokens {block : Block} (hseparated : block.Separated)
    (hall : ∀ statement ∈ block, statement.value.All Expr.Rereadable Block.Separated)
    (hvalues : ∀ statement ∈ block, statement.value.Renders) :
    Statements (stmtsTokens block).flatten block := by
  induction block with
  | nil => exact .nil
  | cons statement statements ih =>
      obtain ⟨hvalue, hrestValues⟩ := List.forall_mem_cons.mp hvalues
      have hrestAll := (List.forall_mem_cons.mp hall).2
      have hrestSeparated : Block.Separated statements := by
        intro pair hpair
        refine hseparated pair ?_
        cases statements with
        | nil => cases hpair
        | cons next statements => exact List.mem_cons_of_mem _ hpair
      have hrest := ih hrestSeparated hrestAll hrestValues
      show Statements (statement.tokens ++ (stmtsTokens statements).flatten) _
      cases statement with
      | bind name value =>
          have hstatement := Statement.bind name (hvalue.chain.ofChain .equality)
          simpa [Stmt.tokens, Stmt.value] using Statements.closed hstatement hrest
      | ret value =>
          have hstatement := Statement.ret (hvalue.chain.ofChain .equality)
          simpa [Stmt.tokens, Stmt.value] using Statements.closed hstatement hrest
      | expr value =>
          -- No semicolon is printed, so the next statement must not go on where this one ends.
          refine .unclosed (.expr (hvalue.chain.ofChain .equality)) (fun next hnext => ?_) hrest
          cases statements with
          | nil => cases hnext
          | cons second statements =>
              obtain ⟨token, more, htokens, hbracket⟩ :=
                Stmt.opensBracket_of_continues (hrestAll second (List.mem_cons_self ..))
              have hfirst : next = token := by
                simpa [stmtsTokens, htokens, eq_comm] using hnext
              subst hfirst
              have hpair : (Stmt.expr value, second) ∈
                  (Stmt.expr value :: second :: statements).zip (second :: statements) :=
                List.mem_cons_self ..
              exact fun hcontinues => hseparated _ hpair trivial (hbracket hcontinues)

/-- What is printed in parentheses. -/
theorem Expr.Renders.of_inside {expr : Expr} {inner : List Token}
    (htokens : expr.tokens = .lparen :: (inner ++ [.rparen]))
    (hinner : Phrase .equality inner expr) : expr.Renders := by
  refine ⟨?_, fun _ => ⟨inner, htokens, hinner⟩⟩
  rw [htokens]
  exact .primary (.group hinner)

/-- A primary expression that is not printed in parentheses. -/
theorem Expr.Renders.of_primary {expr : Expr} (hprimary : Primary expr.tokens expr)
    (hoperation : ¬ expr.IsOperation) : expr.Renders :=
  ⟨.primary hprimary, fun h => absurd h hoperation⟩

/-- A number that is not negative is a rendering of its word. -/
theorem renders_int {value : Int64} (hunsigned : 0 ≤ value.toInt) : (Expr.int value).Renders := by
  have htokens : (Expr.int value).tokens = [.int value.toInt.natAbs.repr] := by
    simp [Expr.tokens, Int.not_lt.mpr hunsigned]
  have hnumber : number value.toInt.natAbs.repr = value.toInt.natAbs := by
    rw [number, Nat.toList_repr, Nat.ofDigitChars_ten_toDigits]
  have hrange : value.toInt.natAbs ≤ 2 ^ 63 - 1 := by
    have hmax := Int64.toInt_lt value
    omega
  have hvalue : Int64.ofNat value.toInt.natAbs = value := by
    apply Int64.toInt_inj.mp
    rw [Int64.toInt_ofNat_of_lt (by omega)]
    exact Int.natAbs_of_nonneg hunsigned
  have hprimary : Primary [.int value.toInt.natAbs.repr] (.int (.ofNat value.toInt.natAbs)) := by
    rw [← hnumber] at hrange
    have hint := Primary.int hrange
    rwa [hnumber] at hint
  rw [hvalue] at hprimary
  exact .of_primary (htokens ▸ hprimary) id

/-- The tokens of an expression that reads back are a rendering of it. -/
theorem Expr.All.renders {expr : Expr} (h : expr.All Expr.Rereadable Block.Separated) :
    expr.Renders := by
  induction h with
  | ident => exact .of_primary (.ident _) id
  | int hexpr => exact renders_int hexpr.1
  | @bool value _ =>
      cases value with
      | true => exact .of_primary .kwTrue id
      | false => exact .of_primary .kwFalse id
  | str => exact .of_primary (.str _) id
  | unary _ _ ih =>
      exact .of_inside rfl (.loosen (by decide) (.unary (ih.chain.ofChain .unary)))
  | @binary left right op _ _ _ ihleft ihright =>
      have hinner := Phrase.binary (ihleft.chain.ofChain op.level)
        (Nat.lt_trans op.level_rank_lt_unary (by decide)) ihright.chain
      refine .of_inside ?_ (.loosen (by cases op <;> decide) hinner)
      simp [Expr.tokens]
  | cond hexpr _ hseparated hbody ihcondition ihbody =>
      -- The parentheses of the condition are those that a conditional wants.
      obtain ⟨inner, htokens, hinner⟩ := ihcondition.inside hexpr.2
      have hprimary := Primary.cond hinner (statements_tokens hseparated hbody ihbody)
      refine .of_primary ?_ id
      simpa [Expr.tokens, bracedTokens, htokens] using hprimary
  | condElse hexpr _ hseparated hbody helse hothers ihcondition ihbody ihothers =>
      obtain ⟨inner, htokens, hinner⟩ := ihcondition.inside hexpr.2
      have hprimary := Primary.condElse hinner (statements_tokens hseparated hbody ihbody)
        (statements_tokens helse hothers ihothers)
      refine .of_primary ?_ id
      simpa [Expr.tokens, bracedTokens, htokens] using hprimary
  | @function params body _ hseparated hbody ihbody =>
      exact .of_primary (.function params (statements_tokens hseparated hbody ihbody)) id
  | @macroLit params body _ hseparated hbody ihbody =>
      exact .of_primary (.macroLit params (statements_tokens hseparated hbody ihbody)) id
  | call _ _ _ ihcallee ihargs =>
      exact ⟨.call ihcallee.chain (items_commaTokens ihargs), fun hoperation => hoperation.elim⟩
  | array _ _ ihelements => exact .of_primary (.array (items_commaTokens ihelements)) id
  | hash _ _ _ ihkeys ihvalues => exact .of_primary (.hash (pairs_commaTokens ihkeys ihvalues)) id
  | index _ _ _ ihcollection ihposition =>
      have hinner := Phrase.index ihcollection.chain (ihposition.chain.ofChain .equality)
      refine .of_inside ?_ (hinner.ofChain .equality)
      simp [Expr.tokens]

/-! ## Programs -/

/-- The tokens of an accepted program are a rendering of it, so its names, strings and integers are
as the printer needs them. -/
theorem all_accepted_of_parse {source : String} {program : Program}
    (hparse : parse source = .ok program) :
    Block.All Expr.Accepted Block.WellFormed program := by
  rw [parse_eq_ok_iff_readProgram, readProgram_eq_iff] at hparse
  exact hparse.wellFormed fun token hmem => lexed_of_mem_lexemes hmem

/-- Printing an accepted program and parsing the text gives the program back, if every condition in
it is a unary, binary or index expression and no expression statement in it is followed at once by
one whose printed form begins with a bracket. -/
theorem parse_renderProgram {source : String} {program : Program}
    (hparse : parse source = .ok program)
    (hreread : Block.All Expr.ParenthesizesCondition Block.Separated program) :
    parse (renderProgram program) = .ok program := by
  have haccepted := all_accepted_of_parse hparse
  have hwellFormed : Block.All Expr.WellFormed Block.WellFormed program :=
    haccepted.mono (fun _ hexpr => hexpr.1) fun _ hblock => hblock
  have hrereadable : Block.All Expr.Rereadable Block.Separated program :=
    (haccepted.and hreread).mono (fun _ hexpr => ⟨hexpr.1.2, hexpr.2⟩) fun _ hblock => hblock.2
  have hlexemes : lexemes (renderProgram program).toList = (stmtsTokens program).flatten := by
    have hcuts := cutsApart_renderProgram hwellFormed.own
      (fun statement hmem => (hwellFormed.values statement hmem).cutsApart) []
      fun _ hnone => nomatch hnone
    simpa [lexemes] using hcuts
  rw [parse_eq_ok_iff_readProgram, readProgram_eq_iff, hlexemes]
  exact statements_tokens hrereadable.own hrereadable.values
    fun statement hmem => (hrereadable.values statement hmem).renders

/-- A call of a function literal with a conditional inside, and a hash literal behind it. -/
theorem parse_renderProgram_nested :
    let conditional : Expr :=
      .cond (.unary .not (.ident "a")) [.bind "b" (.int 2), .expr (.ident "b")] none
    let program : Program :=
      [.expr (.call (.function ["a"] [.expr conditional]) [.bool true]),
        .expr (.hash [(.int 3, .str "x")])]
    parse "fn(a) \x7b if (!a) \x7b let b = 2; b \x7d \x7d (true) \x7b3: \"x\",\x7d" = .ok program ∧
      Block.All Expr.ParenthesizesCondition Block.Separated program ∧
      parse (renderProgram program) = .ok program := by
  intro conditional program
  have hparse : parse "fn(a) \x7b if (!a) \x7b let b = 2; b \x7d \x7d (true) \x7b3: \"x\",\x7d" =
      .ok program := by cbv
  have hconditional : conditional.All Expr.ParenthesizesCondition Block.Separated := by
    refine .cond trivial (.unary trivial (.ident trivial)) ?_ ?_
    · simp [Block.Separated, Stmt.IsExpr]
    · exact List.forall_mem_cons.mpr ⟨.int trivial, List.forall_mem_singleton.mpr (.ident trivial)⟩
  have hcall : Expr.All Expr.ParenthesizesCondition Block.Separated
      (.call (.function ["a"] [.expr conditional]) [.bool true]) := by
    refine .call trivial (.function trivial ?_ ?_) (List.forall_mem_singleton.mpr (.bool trivial))
    · simp [Block.Separated]
    · exact List.forall_mem_singleton.mpr hconditional
  have hhash : Expr.All Expr.ParenthesizesCondition Block.Separated
      (.hash [(.int 3, .str "x")]) :=
    .hash trivial (List.forall_mem_singleton.mpr (.int trivial))
      (List.forall_mem_singleton.mpr (.str trivial))
  have hreread : Block.All Expr.ParenthesizesCondition Block.Separated program := by
    refine ⟨?_, List.forall_mem_cons.mpr ⟨hcall, List.forall_mem_singleton.mpr hhash⟩⟩
    simp [program, Block.Separated, Stmt.OpensBracket, Expr.render]
  exact ⟨hparse, hreread, parse_renderProgram hparse hreread⟩

end MonkeyLang
