import MonkeyLang.Proofs.Expr.All
import MonkeyLang.Proofs.Grammar.Basic
import MonkeyLang.Proofs.Token.Lexer

/-!
# What the trees of accepted programs are made of

A tree is well formed if its names are identifiers and its strings have no quotes inside. Read
`Grammar.Statements.wellFormed` first: a program whose rendering is made of tokens of a text is well
formed, and its integers are not negative.
-/

namespace MonkeyLang

/-- The names that an expression itself holds are identifiers, and its text has no quote. -/
def Expr.WellFormed : Expr → Prop
  | .ident name => IsIdentifier name
  | .str text => '"' ∉ text.toList
  | .function params _ | .macroLit params _ => ∀ name ∈ params, IsIdentifier name
  | _ => True

/-- The names that statements bind are identifiers. -/
def Block.WellFormed (block : Block) : Prop :=
  ∀ name value, Stmt.bind name value ∈ block → IsIdentifier name

/-- An integer literal is not negative. -/
def Expr.Unsigned : Expr → Prop
  | .int value => 0 ≤ value.toInt
  | _ => True

/-- What an expression of an accepted program is like. -/
def Expr.Accepted (expr : Expr) : Prop :=
  expr.WellFormed ∧ expr.Unsigned

/-- A block is well formed if its first statement and the others are. -/
theorem Block.All.cons {onExpr : Expr → Prop} {statement : Stmt}
    {statements : List Stmt} (hfirst : Block.All onExpr Block.WellFormed [statement])
    (hrest : Block.All onExpr Block.WellFormed statements) :
    Block.All onExpr Block.WellFormed (statement :: statements) where
  own name value hmem := by
    rcases List.mem_cons.mp hmem with rfl | hmem
    · exact hfirst.own name value (List.mem_singleton_self _)
    · exact hrest.own name value hmem
  values := List.forall_mem_cons.mpr
    ⟨hfirst.values statement (List.mem_singleton_self _), hrest.values⟩

namespace Grammar

/-- The tokens stand for what they are made of in a text. -/
def Lexed (tokens : List Token) : Prop :=
  ∀ token ∈ tokens, token.Lexed

theorem lexed_append {left right : List Token} :
    Lexed (left ++ right) ↔ Lexed left ∧ Lexed right :=
  List.forall_mem_append

theorem lexed_cons {token : Token} {tokens : List Token} :
    Lexed (token :: tokens) ↔ token.Lexed ∧ Lexed tokens :=
  List.forall_mem_cons

/-- The parameters between commas are identifiers. -/
theorem isIdentifier_of_paramTokens {params : List String} (htokens : Lexed (paramTokens params)) :
    ∀ name ∈ params, IsIdentifier name := by
  induction params with
  | nil => exact fun _ hnone => nomatch hnone
  | cons first params ih =>
      cases params with
      | nil => exact List.forall_mem_singleton.mpr (lexed_cons.mp htokens).1
      | cons second params =>
          have hsplit : paramTokens (first :: second :: params) =
            .ident first :: .comma :: paramTokens (second :: params) := rfl
          rw [hsplit, lexed_cons, lexed_cons] at htokens
          exact List.forall_mem_cons.mpr ⟨htokens.1, ih htokens.2.2⟩

/-- A number in range is not negative as a word. -/
theorem unsigned_ofNat {number : Nat} (hnumber : number ≤ 2 ^ 63 - 1) :
    0 ≤ (Int64.ofNat number).toInt := by
  rw [Int64.toInt_ofNat_of_lt (by omega)]
  exact Int.natCast_nonneg number

mutual

/-- What a phrase is made of. -/
theorem Phrase.wellFormed : ∀ {level : Level} {tokens : List Token} {expr : Expr},
    Phrase level tokens expr → Lexed tokens → expr.All Expr.Accepted Block.WellFormed
  | _, _, _, .loosen _ h, htokens => h.wellFormed htokens
  | _, _, _, .binary hleft _ hright, htokens => by
      obtain ⟨hleftTokens, hrest⟩ := lexed_append.mp htokens
      have hrightTokens := (lexed_cons.mp hrest).2
      exact .binary ⟨trivial, trivial⟩ (hleft.wellFormed hleftTokens)
        (hright.wellFormed hrightTokens)
  | _, _, _, .unary h, htokens =>
      .unary ⟨trivial, trivial⟩ (h.wellFormed (lexed_cons.mp htokens).2)
  | _, _, _, .call hcallee hargs, htokens => by
      obtain ⟨hcalleeTokens, hrest⟩ := lexed_append.mp htokens
      have hargTokens := (lexed_append.mp (lexed_cons.mp hrest).2).1
      exact .call ⟨trivial, trivial⟩ (hcallee.wellFormed hcalleeTokens)
        (hargs.wellFormed hargTokens)
  | _, _, _, .index hcollection hposition, htokens => by
      obtain ⟨hcollectionTokens, hrest⟩ := lexed_append.mp htokens
      have hpositionTokens := (lexed_append.mp (lexed_cons.mp hrest).2).1
      exact .index ⟨trivial, trivial⟩ (hcollection.wellFormed hcollectionTokens)
        (hposition.wellFormed hpositionTokens)
  | _, _, _, .primary h, htokens => h.wellFormed htokens

/-- What a primary expression is made of. -/
theorem Primary.wellFormed : ∀ {tokens : List Token} {expr : Expr},
    Primary tokens expr → Lexed tokens → expr.All Expr.Accepted Block.WellFormed
  | _, _, .ident name, htokens => .ident ⟨(lexed_cons.mp htokens).1, trivial⟩
  | _, _, .int hnumber, _ => .int ⟨trivial, unsigned_ofNat hnumber⟩
  | _, _, .str text, htokens => .str ⟨(lexed_cons.mp htokens).1, trivial⟩
  | _, _, .kwTrue, _ => .bool ⟨trivial, trivial⟩
  | _, _, .kwFalse, _ => .bool ⟨trivial, trivial⟩
  | _, _, .group h, htokens => h.wellFormed (lexed_append.mp (lexed_cons.mp htokens).2).1
  | _, _, .cond hcondition hconsequence, htokens => by
      simp only [lexed_cons, lexed_append] at htokens
      obtain ⟨_, _, hconditionTokens, _, _, hbodyTokens, _⟩ := htokens
      have hbody := hconsequence.wellFormed hbodyTokens
      exact .cond ⟨trivial, trivial⟩ (hcondition.wellFormed hconditionTokens) hbody.own hbody.values
  | _, _, .condElse hcondition hconsequence halternative, htokens => by
      simp only [lexed_cons, lexed_append] at htokens
      obtain ⟨_, _, hconditionTokens, _, _, hbodyTokens, _, _, _, helseTokens, _⟩ := htokens
      have hbody := hconsequence.wellFormed hbodyTokens
      have helse := halternative.wellFormed helseTokens
      exact .condElse ⟨trivial, trivial⟩ (hcondition.wellFormed hconditionTokens) hbody.own
        hbody.values helse.own helse.values
  | _, _, .function params h, htokens => by
      simp only [lexed_cons, lexed_append] at htokens
      obtain ⟨_, _, hparamTokens, _, _, hbodyTokens, _⟩ := htokens
      have hbody := h.wellFormed hbodyTokens
      exact .function ⟨isIdentifier_of_paramTokens hparamTokens, trivial⟩ hbody.own hbody.values
  | _, _, .macroLit params h, htokens => by
      simp only [lexed_cons, lexed_append] at htokens
      obtain ⟨_, _, hparamTokens, _, _, hbodyTokens, _⟩ := htokens
      have hbody := h.wellFormed hbodyTokens
      exact .macroLit ⟨isIdentifier_of_paramTokens hparamTokens, trivial⟩ hbody.own hbody.values
  | _, _, .array h, htokens =>
      .array ⟨trivial, trivial⟩ (h.wellFormed (lexed_append.mp (lexed_cons.mp htokens).2).1)
  | _, _, .hash h, htokens => by
      have hpairs := h.wellFormed (lexed_append.mp (lexed_cons.mp htokens).2).1
      exact .hash ⟨trivial, trivial⟩ (fun pair hmem => (hpairs pair hmem).1)
        fun pair hmem => (hpairs pair hmem).2

/-- What the expressions of a list are made of. -/
theorem Items.wellFormed : ∀ {tokens : List Token} {exprs : List Expr},
    Items tokens exprs → Lexed tokens →
      ∀ expr ∈ exprs, expr.All Expr.Accepted Block.WellFormed
  | _, _, .nil, _ => fun _ hnone => nomatch hnone
  | _, _, .one h, htokens => List.forall_mem_singleton.mpr (h.wellFormed htokens)
  | _, _, .more h hrest, htokens => by
      obtain ⟨hfirstTokens, hrestTokens⟩ := lexed_append.mp htokens
      exact List.forall_mem_cons.mpr ⟨h.wellFormed hfirstTokens,
        hrest.wellFormed (lexed_cons.mp hrestTokens).2⟩

/-- What the pairs of a hash literal are made of. -/
theorem Pairs.wellFormed : ∀ {tokens : List Token} {pairs : List (Expr × Expr)},
    Pairs tokens pairs → Lexed tokens → ∀ pair ∈ pairs,
      pair.1.All Expr.Accepted Block.WellFormed ∧ pair.2.All Expr.Accepted Block.WellFormed
  | _, _, .nil, _ => fun _ hnone => nomatch hnone
  | _, _, .one hkey hvalue, htokens => by
      obtain ⟨hkeyTokens, hrest⟩ := lexed_append.mp htokens
      exact List.forall_mem_singleton.mpr
        ⟨hkey.wellFormed hkeyTokens, hvalue.wellFormed (lexed_cons.mp hrest).2⟩
  | _, _, .more hkey hvalue hpairs, htokens => by
      simp only [lexed_cons, lexed_append] at htokens
      obtain ⟨hkeyTokens, _, hvalueTokens, _, hrestTokens⟩ := htokens
      exact List.forall_mem_cons.mpr
        ⟨⟨hkey.wellFormed hkeyTokens, hvalue.wellFormed hvalueTokens⟩,
          hpairs.wellFormed hrestTokens⟩

/-- What a statement is made of. -/
theorem Statement.wellFormed : ∀ {tokens : List Token} {statement : Stmt},
    Statement tokens statement → Lexed tokens →
      Block.All Expr.Accepted Block.WellFormed [statement]
  | _, _, .bind name h, htokens => by
      simp only [lexed_cons] at htokens
      obtain ⟨_, hname, _, hvalueTokens⟩ := htokens
      refine ⟨fun bound value hmem => ?_,
        List.forall_mem_singleton.mpr (h.wellFormed hvalueTokens)⟩
      cases List.mem_singleton.mp hmem
      exact hname
  | _, _, .ret h, htokens => by
      refine ⟨fun bound value hmem => ?_,
        List.forall_mem_singleton.mpr (h.wellFormed (lexed_cons.mp htokens).2)⟩
      cases List.mem_singleton.mp hmem
  | _, _, .expr h, htokens => by
      refine ⟨fun bound value hmem => ?_,
        List.forall_mem_singleton.mpr (h.wellFormed htokens)⟩
      cases List.mem_singleton.mp hmem

/-- A program whose rendering is made of tokens of a text is well formed. -/
theorem Statements.wellFormed : ∀ {tokens : List Token} {statements : List Stmt},
    Statements tokens statements → Lexed tokens →
      Block.All Expr.Accepted Block.WellFormed statements
  | _, _, .nil, _ => ⟨fun _ _ hnone => (nomatch hnone), fun _ hnone => nomatch hnone⟩
  | _, _, .closed h hrest, htokens => by
      obtain ⟨hfirstTokens, hrestTokens⟩ := lexed_append.mp htokens
      have hfirst := h.wellFormed hfirstTokens
      have hothers := hrest.wellFormed (lexed_cons.mp hrestTokens).2
      exact hfirst.cons hothers
  | _, _, .unclosed h _ hrest, htokens => by
      obtain ⟨hfirstTokens, hrestTokens⟩ := lexed_append.mp htokens
      exact (h.wellFormed hfirstTokens).cons (hrest.wellFormed hrestTokens)

end

end Grammar

end MonkeyLang
