import Mathlib.Data.List.Forall2
import MonkeyLang.Expr.Transform
import MonkeyLang.Proofs.Expr.All

/-!
# What a bottom-up walk does

A walk visits each expression of the tree once, in the order of `Expr.nodes`: children from left to
right, and then their parent. What it hands to a visit is the expression of the original tree, with
what became of its children in their place (`Expr.Rebuilt`). Read `Expr.transformM_walks` first: it
reduces whatever is to be shown of a walk to the single visits.
-/

namespace MonkeyLang

mutual

/-- The expressions of a tree in the order in which a walk visits them. -/
def Expr.nodes : Expr → List Expr
  | .ident name => [.ident name]
  | .int value => [.int value]
  | .bool value => [.bool value]
  | .str text => [.str text]
  | .unary op operand => operand.nodes ++ [.unary op operand]
  | .binary left op right => left.nodes ++ (right.nodes ++ [.binary left op right])
  | .cond condition consequence none =>
      condition.nodes ++ (stmtsNodes consequence ++ [.cond condition consequence none])
  | .cond condition consequence (some alternative) =>
      condition.nodes ++ (stmtsNodes consequence ++ (stmtsNodes alternative ++
        [.cond condition consequence (some alternative)]))
  | .function params body => stmtsNodes body ++ [.function params body]
  | .macroLit params body => stmtsNodes body ++ [.macroLit params body]
  | .call callee args => callee.nodes ++ (exprsNodes args ++ [.call callee args])
  | .array elements => exprsNodes elements ++ [.array elements]
  | .hash pairs => pairsNodes pairs ++ [.hash pairs]
  | .index collection position =>
      collection.nodes ++ (position.nodes ++ [.index collection position])

/-- The expressions of a statement. -/
def Stmt.nodes : Stmt → List Expr
  | .bind _ value | .ret value | .expr value => value.nodes

/-- The expressions of statements. -/
def stmtsNodes : List Stmt → List Expr
  | [] => []
  | statement :: statements => statement.nodes ++ stmtsNodes statements

/-- The expressions in a list of expressions. -/
def exprsNodes : List Expr → List Expr
  | [] => []
  | expr :: exprs => expr.nodes ++ exprsNodes exprs

/-- The expressions of pairs, each key before its value. -/
def pairsNodes : List (Expr × Expr) → List Expr
  | [] => []
  | (key, value) :: pairs => key.nodes ++ (value.nodes ++ pairsNodes pairs)

end

/-- The expressions of statements are those of their values. -/
theorem stmtsNodes_eq_flatMap (statements : List Stmt) :
    stmtsNodes statements = statements.flatMap fun statement => statement.value.nodes := by
  induction statements with
  | nil => rfl
  | cons statement statements ih =>
      rw [stmtsNodes, List.flatMap_cons, ih]
      cases statement <;> rfl

/-- The expressions in a list are those of its items. -/
theorem exprsNodes_eq_flatMap (exprs : List Expr) :
    exprsNodes exprs = exprs.flatMap Expr.nodes := by
  induction exprs with
  | nil => rfl
  | cons expr exprs ih => rw [exprsNodes, List.flatMap_cons, ih]

/-- The expressions of pairs are those of the keys and values. -/
theorem pairsNodes_eq_flatMap (pairs : List (Expr × Expr)) :
    pairsNodes pairs = pairs.flatMap fun pair => pair.1.nodes ++ pair.2.nodes := by
  induction pairs with
  | nil => rfl
  | cons pair pairs ih =>
      obtain ⟨key, value⟩ := pair
      rw [pairsNodes, List.flatMap_cons, ih, List.append_assoc]

/-- A statement of the same kind and name, with what became of its expression. -/
inductive Stmt.Rebuilt (became : Expr → Expr → Prop) : Stmt → Stmt → Prop where
  | bind {name : String} {value value' : Expr} :
      became value value' → Rebuilt became (.bind name value) (.bind name value')
  | ret {value value' : Expr} : became value value' → Rebuilt became (.ret value) (.ret value')
  | expr {value value' : Expr} : became value value' → Rebuilt became (.expr value) (.expr value')

/-- A block of as many statements, with what became of their expressions. -/
abbrev RebuiltStmts (became : Expr → Expr → Prop) : List Stmt → List Stmt → Prop :=
  List.Forall₂ (Stmt.Rebuilt became)

/-- As many pairs, with what became of their keys and values. -/
abbrev RebuiltPairs (became : Expr → Expr → Prop) :
    List (Expr × Expr) → List (Expr × Expr) → Prop :=
  List.Forall₂ fun pair pair' => became pair.1 pair'.1 ∧ became pair.2 pair'.2

/-- An expression of the same kind, with the same operator, names and number of children, in which
each child is replaced by what became of it. -/
inductive Expr.Rebuilt (became : Expr → Expr → Prop) : Expr → Expr → Prop where
  | ident (name : String) : Rebuilt became (.ident name) (.ident name)
  | int (value : Int64) : Rebuilt became (.int value) (.int value)
  | bool (value : Bool) : Rebuilt became (.bool value) (.bool value)
  | str (text : String) : Rebuilt became (.str text) (.str text)
  | unary {op : UnaryOp} {operand operand' : Expr} :
      became operand operand' → Rebuilt became (.unary op operand) (.unary op operand')
  | binary {op : BinaryOp} {left left' right right' : Expr} :
      became left left' → became right right' →
      Rebuilt became (.binary left op right) (.binary left' op right')
  | cond {condition condition' : Expr} {consequence consequence' : Block} :
      became condition condition' → RebuiltStmts became consequence consequence' →
      Rebuilt became (.cond condition consequence none) (.cond condition' consequence' none)
  | condElse {condition condition' : Expr}
      {consequence consequence' alternative alternative' : Block} :
      became condition condition' → RebuiltStmts became consequence consequence' →
      RebuiltStmts became alternative alternative' →
      Rebuilt became (.cond condition consequence (some alternative))
        (.cond condition' consequence' (some alternative'))
  | function {params : List String} {body body' : Block} :
      RebuiltStmts became body body' →
      Rebuilt became (.function params body) (.function params body')
  | macroLit {params : List String} {body body' : Block} :
      RebuiltStmts became body body' →
      Rebuilt became (.macroLit params body) (.macroLit params body')
  | call {callee callee' : Expr} {args args' : List Expr} :
      became callee callee' → List.Forall₂ became args args' →
      Rebuilt became (.call callee args) (.call callee' args')
  | array {elements elements' : List Expr} :
      List.Forall₂ became elements elements' →
      Rebuilt became (.array elements) (.array elements')
  | hash {pairs pairs' : List (Expr × Expr)} :
      RebuiltPairs became pairs pairs' → Rebuilt became (.hash pairs) (.hash pairs')
  | index {collection collection' position position' : Expr} :
      became collection collection' → became position position' →
      Rebuilt became (.index collection position) (.index collection' position')

/-- Statements whose expressions became themselves are the same. -/
theorem RebuiltStmts.eq {statements statements' : List Stmt}
    (hrebuilt : RebuiltStmts Eq statements statements') : statements = statements' := by
  refine List.forall₂_eq_eq_eq ▸ List.Forall₂.imp (fun statement statement' hstatement => ?_)
    hrebuilt
  cases hstatement with
  | bind hvalue | ret hvalue | expr hvalue => rw [hvalue]

/-- An expression whose children became themselves is the same. -/
theorem Expr.Rebuilt.eq {original rebuilt : Expr} (hrebuilt : original.Rebuilt Eq rebuilt) :
    original = rebuilt := by
  cases hrebuilt with
  | ident | int | bool | str => rfl
  | unary hoperand => rw [hoperand]
  | binary hleft hright => rw [hleft, hright]
  | cond hcondition hconsequence => rw [hcondition, hconsequence.eq]
  | condElse hcondition hconsequence halternative =>
      rw [hcondition, hconsequence.eq, halternative.eq]
  | function hbody | macroLit hbody => rw [hbody.eq]
  | call hcallee hargs =>
      rw [List.forall₂_eq_eq_eq] at hargs
      rw [hcallee, hargs]
  | array helements =>
      rw [List.forall₂_eq_eq_eq] at helements
      rw [helements]
  | hash hpairs =>
      have hsame := hpairs.imp fun _ _ hpair => Prod.ext hpair.1 hpair.2
      rw [List.forall₂_eq_eq_eq] at hsame
      rw [hsame]
  | index hcollection hposition => rw [hcollection, hposition]

section Visits

variable {m : Type → Type} {results : ∀ ⦃α : Type⦄, List Expr → (α → Prop) → m α → Prop}
  {visit : Expr → m Expr} {became : Expr → Expr → Prop} {nodes nodes' : List Expr}

/-- Each visit of one of the expressions, rebuilt from what became of its children, is judged to
result in what becomes of it. -/
def VisitsWell (results : ∀ ⦃α : Type⦄, List Expr → (α → Prop) → m α → Prop)
    (visit : Expr → m Expr) (became : Expr → Expr → Prop) (nodes : List Expr) : Prop :=
  ∀ original ∈ nodes, ∀ rebuilt, original.Rebuilt became rebuilt →
    results [original] (became original) (visit rebuilt)

/-- Visits of two lists of expressions. -/
theorem visitsWell_append :
    VisitsWell results visit became (nodes ++ nodes') ↔
      VisitsWell results visit became nodes ∧ VisitsWell results visit became nodes' :=
  List.forall_mem_append

/-- The visit of one expression. -/
theorem VisitsWell.self {node rebuilt : Expr} (hvisits : VisitsWell results visit became [node])
    (hrebuilt : node.Rebuilt became rebuilt) : results [node] (became node) (visit rebuilt) :=
  hvisits node (List.mem_singleton_self node) rebuilt hrebuilt

end Visits

variable {m : Type → Type} [Monad m]

/-- A judgment of actions by the expressions that they visit and by what their results are, which
holds of good results without visits and of actions in sequence. -/
structure Walking (results : ∀ ⦃α : Type⦄, List Expr → (α → Prop) → m α → Prop) : Prop where
  pure : ∀ ⦃α : Type⦄ {goal : α → Prop} {value : α}, goal value →
    results [] goal (Pure.pure value : m α)
  bind : ∀ ⦃α β : Type⦄ {nodes nodes' : List Expr} {goal : α → Prop} {goal' : β → Prop}
    {first : m α} {next : α → m β}, results nodes goal first →
    (∀ value, goal value → results nodes' goal' (next value)) →
    results (nodes ++ nodes') goal' (first >>= next)

variable {results : ∀ ⦃α : Type⦄, List Expr → (α → Prop) → m α → Prop}
  {visit : Expr → m Expr} {became : Expr → Expr → Prop}

/-- An action without visits behind others. -/
theorem Walking.bind_pure (hwalk : Walking results) {α β : Type} {nodes : List Expr}
    {goal : α → Prop} {goal' : β → Prop} {first : m α} {f : α → β}
    (hfirst : results nodes goal first) (hf : ∀ value, goal value → goal' (f value)) :
    results nodes goal' (first >>= fun value => Pure.pure (f value)) := by
  have hboth := hwalk.bind hfirst fun value hvalue => hwalk.pure (hf value hvalue)
  rwa [List.append_nil] at hboth

mutual

/-- A walk over an expression visits its expressions and results in what becomes of it. -/
theorem Expr.transformM_walks (hwalk : Walking results) :
    ∀ expr : Expr, VisitsWell results visit became expr.nodes →
      results expr.nodes (became expr) (expr.transformM visit)
  | .ident _, hvisits => hvisits.self (.ident _)
  | .int _, hvisits => hvisits.self (.int _)
  | .bool _, hvisits => hvisits.self (.bool _)
  | .str _, hvisits => hvisits.self (.str _)
  | .unary _ operand, hvisits => by
      obtain ⟨hinside, hself⟩ := visitsWell_append.mp hvisits
      refine hwalk.bind (operand.transformM_walks hwalk hinside) fun operand' hoperand => ?_
      exact hself.self (.unary hoperand)
  | .binary left _ right, hvisits => by
      obtain ⟨hinside, hvisits⟩ := visitsWell_append.mp hvisits
      obtain ⟨hinside', hself⟩ := visitsWell_append.mp hvisits
      refine hwalk.bind (left.transformM_walks hwalk hinside) fun left' hleft => ?_
      refine hwalk.bind (right.transformM_walks hwalk hinside') fun right' hright => ?_
      exact hself.self (.binary hleft hright)
  | .cond condition consequence none, hvisits => by
      obtain ⟨hinside, hvisits⟩ := visitsWell_append.mp hvisits
      obtain ⟨hinside', hself⟩ := visitsWell_append.mp hvisits
      refine hwalk.bind (condition.transformM_walks hwalk hinside) fun condition' hcondition => ?_
      refine hwalk.bind (transformStmtsM_walks hwalk consequence hinside')
        fun consequence' hconsequence => ?_
      exact hself.self (.cond hcondition hconsequence)
  | .cond condition consequence (some alternative), hvisits => by
      obtain ⟨hinside, hvisits⟩ := visitsWell_append.mp hvisits
      obtain ⟨hinside', hvisits⟩ := visitsWell_append.mp hvisits
      obtain ⟨hinside'', hself⟩ := visitsWell_append.mp hvisits
      refine hwalk.bind (condition.transformM_walks hwalk hinside) fun condition' hcondition => ?_
      refine hwalk.bind (transformStmtsM_walks hwalk consequence hinside')
        fun consequence' hconsequence => ?_
      refine hwalk.bind (transformStmtsM_walks hwalk alternative hinside'')
        fun alternative' halternative => ?_
      exact hself.self (.condElse hcondition hconsequence halternative)
  | .function _ body, hvisits => by
      obtain ⟨hinside, hself⟩ := visitsWell_append.mp hvisits
      refine hwalk.bind (transformStmtsM_walks hwalk body hinside) fun body' hbody => ?_
      exact hself.self (.function hbody)
  | .macroLit _ body, hvisits => by
      obtain ⟨hinside, hself⟩ := visitsWell_append.mp hvisits
      refine hwalk.bind (transformStmtsM_walks hwalk body hinside) fun body' hbody => ?_
      exact hself.self (.macroLit hbody)
  | .call callee args, hvisits => by
      obtain ⟨hinside, hvisits⟩ := visitsWell_append.mp hvisits
      obtain ⟨hinside', hself⟩ := visitsWell_append.mp hvisits
      refine hwalk.bind (callee.transformM_walks hwalk hinside) fun callee' hcallee => ?_
      refine hwalk.bind (transformExprsM_walks hwalk args hinside') fun args' hargs => ?_
      exact hself.self (.call hcallee hargs)
  | .array elements, hvisits => by
      obtain ⟨hinside, hself⟩ := visitsWell_append.mp hvisits
      refine hwalk.bind (transformExprsM_walks hwalk elements hinside)
        fun elements' helements => ?_
      exact hself.self (.array helements)
  | .hash pairs, hvisits => by
      obtain ⟨hinside, hself⟩ := visitsWell_append.mp hvisits
      refine hwalk.bind (transformPairsM_walks hwalk pairs hinside) fun pairs' hpairs => ?_
      exact hself.self (.hash hpairs)
  | .index collection position, hvisits => by
      obtain ⟨hinside, hvisits⟩ := visitsWell_append.mp hvisits
      obtain ⟨hinside', hself⟩ := visitsWell_append.mp hvisits
      refine hwalk.bind (collection.transformM_walks hwalk hinside)
        fun collection' hcollection => ?_
      refine hwalk.bind (position.transformM_walks hwalk hinside') fun position' hposition => ?_
      exact hself.self (.index hcollection hposition)

/-- A walk over a statement visits its expressions. -/
theorem Stmt.transformM_walks (hwalk : Walking results) :
    ∀ statement : Stmt, VisitsWell results visit became statement.nodes →
      results statement.nodes (statement.Rebuilt became) (statement.transformM visit)
  | .bind _ value, hvisits =>
      hwalk.bind_pure (value.transformM_walks hwalk hvisits) fun _ => .bind
  | .ret value, hvisits => hwalk.bind_pure (value.transformM_walks hwalk hvisits) fun _ => .ret
  | .expr value, hvisits => hwalk.bind_pure (value.transformM_walks hwalk hvisits) fun _ => .expr

/-- A walk over statements visits their expressions. -/
theorem transformStmtsM_walks (hwalk : Walking results) :
    ∀ statements : List Stmt, VisitsWell results visit became (stmtsNodes statements) →
      results (stmtsNodes statements) (RebuiltStmts became statements)
        (transformStmtsM visit statements)
  | [], _ => hwalk.pure .nil
  | statement :: statements, hvisits => by
      obtain ⟨hfirst, hrest⟩ := visitsWell_append.mp hvisits
      refine hwalk.bind (statement.transformM_walks hwalk hfirst) fun statement' hstatement => ?_
      exact hwalk.bind_pure (transformStmtsM_walks hwalk statements hrest)
        fun _ => .cons hstatement

/-- A walk over expressions visits their expressions. -/
theorem transformExprsM_walks (hwalk : Walking results) :
    ∀ exprs : List Expr, VisitsWell results visit became (exprsNodes exprs) →
      results (exprsNodes exprs) (List.Forall₂ became exprs) (transformExprsM visit exprs)
  | [], _ => hwalk.pure .nil
  | expr :: exprs, hvisits => by
      obtain ⟨hfirst, hrest⟩ := visitsWell_append.mp hvisits
      refine hwalk.bind (expr.transformM_walks hwalk hfirst) fun expr' hexpr => ?_
      exact hwalk.bind_pure (transformExprsM_walks hwalk exprs hrest) fun _ => .cons hexpr

/-- A walk over pairs visits their expressions. -/
theorem transformPairsM_walks (hwalk : Walking results) :
    ∀ pairs : List (Expr × Expr), VisitsWell results visit became (pairsNodes pairs) →
      results (pairsNodes pairs) (RebuiltPairs became pairs) (transformPairsM visit pairs)
  | [], _ => hwalk.pure .nil
  | (key, value) :: pairs, hvisits => by
      obtain ⟨hkey, hvisits⟩ := visitsWell_append.mp hvisits
      obtain ⟨hvalue, hrest⟩ := visitsWell_append.mp hvisits
      refine hwalk.bind (key.transformM_walks hwalk hkey) fun key' hkey' => ?_
      refine hwalk.bind (value.transformM_walks hwalk hvalue) fun value' hvalue' => ?_
      exact hwalk.bind_pure (transformPairsM_walks hwalk pairs hrest)
        fun _ => .cons ⟨hkey', hvalue'⟩

end

end MonkeyLang
