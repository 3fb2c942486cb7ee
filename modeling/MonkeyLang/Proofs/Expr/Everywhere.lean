import MonkeyLang.Proofs.Expr.Walk

/-!
# What a bottom-up walk builds

A walk hands an expression to a visit when everything inside it is rebuilt. So if each visit answers
an expression whose inside is good with a tree that is good everywhere, then a whole walk results in
a tree that is good everywhere: read `Expr.transformM_everywhere`. What the visits answer with is
not visited again, and need not be. A tree that is good everywhere has nothing but good expressions
to visit (`Expr.Everywhere.of_mem_nodes`).
-/

namespace MonkeyLang

/-- Every expression in a tree is good, itself included. -/
def Expr.Everywhere (good : Expr → Prop) (expr : Expr) : Prop :=
  expr.All good fun _ => True

/-- Every expression in a tree is good but perhaps the tree itself. -/
def Expr.Inside (good : Expr → Prop) (expr : Expr) : Prop :=
  expr.Everywhere fun inner => inner ≠ expr → good inner

variable {good : Expr → Prop}

/-- A tree is good everywhere if it is good itself and inside. -/
theorem Expr.Inside.everywhere {expr : Expr} (hinside : expr.Inside good) (hexpr : good expr) :
    expr.Everywhere good := by
  refine hinside.mono (fun inner hinner => ?_) fun _ hblock => hblock
  by_cases heq : inner = expr
  · rw [heq]
    exact hexpr
  · exact hinner heq

/-- What is good everywhere is so but perhaps for one expression. -/
theorem Expr.Everywhere.except {expr outer : Expr} (hexpr : expr.Everywhere good) :
    expr.Everywhere fun inner => inner ≠ outer → good inner :=
  hexpr.mono (fun _ hinner _ => hinner) fun _ hblock => hblock

/-- Every expression that a walk over a tree visits is good, if the tree is good everywhere. -/
theorem Expr.Everywhere.of_mem_nodes {expr : Expr} (hexpr : expr.Everywhere good) :
    ∀ node ∈ expr.nodes, good node := by
  have hstmts : ∀ {block : Block}, (∀ statement ∈ block, ∀ node ∈ statement.value.nodes,
      good node) → ∀ node ∈ stmtsNodes block, good node := by
    intro block hblock
    rw [stmtsNodes_eq_flatMap]
    exact List.forall_mem_flatMap.mpr hblock
  have hitems : ∀ {exprs : List Expr}, (∀ item ∈ exprs, ∀ node ∈ item.nodes, good node) →
      ∀ node ∈ exprsNodes exprs, good node := by
    intro exprs hexprs
    rw [exprsNodes_eq_flatMap]
    exact List.forall_mem_flatMap.mpr hexprs
  have hpairs : ∀ {pairs : List (Expr × Expr)}, (∀ pair ∈ pairs, ∀ node ∈ pair.1.nodes,
      good node) → (∀ pair ∈ pairs, ∀ node ∈ pair.2.nodes, good node) →
      ∀ node ∈ pairsNodes pairs, good node := by
    intro pairs hkeys hvalues
    rw [pairsNodes_eq_flatMap]
    refine List.forall_mem_flatMap.mpr fun pair hmem => ?_
    exact List.forall_mem_append.mpr ⟨hkeys pair hmem, hvalues pair hmem⟩
  -- The children of an expression stand before it in the list.
  have hbefore : ∀ {before after : List Expr}, (∀ node ∈ before, good node) →
      (∀ node ∈ after, good node) → ∀ node ∈ before ++ after, good node :=
    fun hbefore hafter => List.forall_mem_append.mpr ⟨hbefore, hafter⟩
  have hown : ∀ {own : Expr}, good own → ∀ node ∈ [own], good node :=
    fun hself => List.forall_mem_singleton.mpr hself
  induction hexpr with
  | ident hself | int hself | bool hself | str hself => exact hown hself
  | unary hself _ ihoperand => exact hbefore ihoperand (hown hself)
  | binary hself _ _ ihleft ihright => exact hbefore ihleft (hbefore ihright (hown hself))
  | cond hself _ _ _ ihcondition ihbody =>
      exact hbefore ihcondition (hbefore (hstmts ihbody) (hown hself))
  | condElse hself _ _ _ _ _ ihcondition ihbody ihelse =>
      exact hbefore ihcondition (hbefore (hstmts ihbody) (hbefore (hstmts ihelse) (hown hself)))
  | function hself _ _ ihbody | macroLit hself _ _ ihbody =>
      exact hbefore (hstmts ihbody) (hown hself)
  | call hself _ _ ihcallee ihargs =>
      exact hbefore ihcallee (hbefore (hitems ihargs) (hown hself))
  | array hself _ ihelements => exact hbefore (hitems ihelements) (hown hself)
  | hash hself _ _ ihkeys ihvalues => exact hbefore (hpairs ihkeys ihvalues) (hown hself)
  | index hself _ _ ihcollection ihposition =>
      exact hbefore ihcollection (hbefore ihposition (hown hself))

variable {m : Type → Type} [Monad m]

/-- A judgment of actions by what their results are, which holds of good results and of actions in
sequence. -/
structure Building (results : ∀ ⦃α : Type⦄, (α → Prop) → m α → Prop) : Prop where
  pure : ∀ ⦃α : Type⦄ {goal : α → Prop} {value : α}, goal value →
    results goal (Pure.pure value : m α)
  bind : ∀ ⦃α β : Type⦄ {goal : α → Prop} {goal' : β → Prop} {first : m α} {next : α → m β},
    results goal first → (∀ value, goal value → results goal' (next value)) →
    results goal' (first >>= next)

variable {results : ∀ ⦃α : Type⦄, (α → Prop) → m α → Prop} {visit : Expr → m Expr}

/-- Such a judgment does not ask what is visited. -/
theorem Building.walking (hbuild : Building results) :
    Walking fun _ (_ : List Expr) goal action => results goal action where
  pure _ _ _ hvalue := hbuild.pure hvalue
  bind _ _ _ _ _ _ _ _ hfirst hnext := hbuild.bind hfirst hnext

/-- What holds of all that others became holds of each of it. -/
theorem forall_mem_of_forall₂ {α : Type} {became : α → α → Prop} {holds : α → Prop}
    {originals rebuilt : List α} (hall : List.Forall₂ became originals rebuilt)
    (hholds : ∀ original result, became original result → holds result) :
    ∀ result ∈ rebuilt, holds result := by
  induction hall with
  | nil => exact fun _ hmem => nomatch hmem
  | cons hfirst _ ih => exact List.forall_mem_cons.mpr ⟨hholds _ _ hfirst, ih⟩

/-- Statements that are rebuilt from expressions that are good everywhere. -/
theorem RebuiltStmts.everywhere {statements statements' : List Stmt}
    (hrebuilt : RebuiltStmts (fun _ expr => expr.Everywhere good) statements statements') :
    ∀ statement ∈ statements', statement.value.Everywhere good := by
  refine forall_mem_of_forall₂ hrebuilt fun original statement hstatement => ?_
  cases hstatement with
  | bind hvalue | ret hvalue | expr hvalue => exact hvalue

/-- What is rebuilt from expressions that are good everywhere is good inside. -/
theorem Expr.Rebuilt.inside {original rebuilt : Expr}
    (hrebuilt : original.Rebuilt (fun _ expr => expr.Everywhere good) rebuilt) :
    rebuilt.Inside good := by
  have hitems : ∀ {exprs exprs' : List Expr},
      List.Forall₂ (fun _ expr => expr.Everywhere good) exprs exprs' →
      ∀ expr ∈ exprs', expr.Everywhere fun inner => inner ≠ rebuilt → good inner :=
    fun hexprs => forall_mem_of_forall₂ hexprs fun _ _ hexpr => hexpr.except
  have hblock : ∀ {block block' : Block},
      RebuiltStmts (fun _ expr => expr.Everywhere good) block block' →
      ∀ statement ∈ block',
        statement.value.Everywhere fun inner => inner ≠ rebuilt → good inner :=
    fun hstmts statement hmem => (hstmts.everywhere statement hmem).except
  cases hrebuilt with
  | ident name => exact .ident (absurd rfl)
  | int value => exact .int (absurd rfl)
  | bool value => exact .bool (absurd rfl)
  | str text => exact .str (absurd rfl)
  | unary hoperand => exact .unary (absurd rfl) hoperand.except
  | binary hleft hright => exact .binary (absurd rfl) hleft.except hright.except
  | cond hcondition hconsequence =>
      exact .cond (absurd rfl) hcondition.except trivial (hblock hconsequence)
  | condElse hcondition hconsequence halternative =>
      exact .condElse (absurd rfl) hcondition.except trivial (hblock hconsequence) trivial
        (hblock halternative)
  | function hbody => exact .function (absurd rfl) trivial (hblock hbody)
  | macroLit hbody => exact .macroLit (absurd rfl) trivial (hblock hbody)
  | call hcallee hargs => exact .call (absurd rfl) hcallee.except (hitems hargs)
  | array helements => exact .array (absurd rfl) (hitems helements)
  | hash hpairs =>
      refine .hash (absurd rfl) ?_ ?_
      · exact forall_mem_of_forall₂ hpairs fun _ _ hpair => hpair.1.except
      · exact forall_mem_of_forall₂ hpairs fun _ _ hpair => hpair.2.except
  | index hcollection hposition =>
      exact .index (absurd rfl) hcollection.except hposition.except

/-- A walk over an expression results in a tree that is good everywhere. -/
theorem Expr.transformM_everywhere (hbuild : Building results)
    (hvisit : ∀ expr, expr.Inside good → results (Expr.Everywhere good) (visit expr))
    (expr : Expr) : results (Expr.Everywhere good) (expr.transformM visit) :=
  expr.transformM_walks hbuild.walking fun _ _ rebuilt hrebuilt => hvisit rebuilt hrebuilt.inside

end MonkeyLang
