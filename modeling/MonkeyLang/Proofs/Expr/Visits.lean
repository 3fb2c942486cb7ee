import MonkeyLang.Proofs.Expr.Transform
import MonkeyLang.Proofs.Expr.Walk

/-!
# The visits of a walk, one by one

A visit that has a state of its own and may fail can answer two equal expressions of a program
differently, so what a walk does is told here visit by visit. The visits are of the expressions of
the program in the order of `stmtsNodes`. Each is given the expression of the program with its
children replaced by their own answers, and these are found among the visits right before it, which
are those of everything inside the expression (`Answered`, `GivenFor`). The first failure is the last
visit. Read `transformProgramM_visits` first.
-/

namespace MonkeyLang

/-- The expressions directly inside an expression, from left to right. -/
def Expr.children : Expr → List Expr
  | .ident _ | .int _ | .bool _ | .str _ => []
  | .unary _ operand => [operand]
  | .binary left _ right => [left, right]
  | .cond condition consequence none => condition :: consequence.map Stmt.value
  | .cond condition consequence (some alternative) =>
      condition :: (consequence.map Stmt.value ++ alternative.map Stmt.value)
  | .function _ body | .macroLit _ body => body.map Stmt.value
  | .call callee args => callee :: args
  | .array elements => elements
  | .hash pairs => pairs.flatMap fun pair => [pair.1, pair.2]
  | .index collection position => [collection, position]

/-- An expression of the same kind, with the same operator, names and parameters, statements of the
same kinds, and as many children, whatever these are. -/
abbrev Expr.SameShape : Expr → Expr → Prop :=
  Expr.Rebuilt fun _ _ => True

/-- Statements of the same kinds and names. -/
abbrev SameShapes : List Stmt → List Stmt → Prop :=
  RebuiltStmts fun _ _ => True

/-- A visit that was answered: the expression of the original tree, what was handed over in its
place, and the answer. -/
structure Visit where
  node : Expr
  given : Expr
  answer : Expr

/-- Behind `earlier` visits, expressions side by side were visited, each behind everything inside
it. That makes the visits `later`, and the answers of the expressions themselves are `answers`. -/
inductive Answered : List Visit → List Expr → List Visit → List Expr → Prop where
  | nil {visits : List Visit} : Answered visits [] visits []
  | cons {earlier inside later : List Visit} {expr given answer : Expr}
      {exprs answers : List Expr} :
      inside.map Visit.node ++ [expr] = expr.nodes →
      Answered (earlier ++ inside ++ [⟨expr, given, answer⟩]) exprs later answers →
      Answered earlier (expr :: exprs) later (answer :: answers)

/-- What is handed over for an expression, behind visits: the expression with the answers of its
children in their place. -/
def GivenFor (visits : List Visit) (node given : Expr) : Prop :=
  node.SameShape given ∧ ∃ earlier, Answered earlier node.children visits given.children

/-- A visit with a state and with failures. -/
abbrev Modifier (ε σ : Type) : Type :=
  Expr → ExceptT ε (StateM σ) Expr

variable {ε σ α β : Type} {modifier : Modifier ε σ} {start : σ}

/-- Visits that are made from a state on, one after the other, and the state in the end. -/
inductive Visits (modifier : Modifier ε σ) (start : σ) : List Visit → σ → Prop where
  | nil : Visits modifier start [] start
  | snoc {visits : List Visit} {state state' : σ} {node given answer : Expr} :
      Visits modifier start visits state → GivenFor visits node given →
      (modifier given).run.run state = (.ok answer, state') →
      Visits modifier start (visits ++ [⟨node, given, answer⟩]) state'

/-! ## The answers of the children -/

/-- The expressions of statements are those of their values. -/
theorem exprsNodes_map_value (statements : List Stmt) :
    exprsNodes (statements.map Stmt.value) = stmtsNodes statements := by
  rw [exprsNodes_eq_flatMap, stmtsNodes_eq_flatMap, List.flatMap_map]

/-- The expressions of two lists. -/
theorem exprsNodes_append (exprs exprs' : List Expr) :
    exprsNodes (exprs ++ exprs') = exprsNodes exprs ++ exprsNodes exprs' := by
  rw [exprsNodes_eq_flatMap, List.flatMap_append, ← exprsNodes_eq_flatMap, ← exprsNodes_eq_flatMap]

/-- The expressions of an expression are those of its children, and then itself. -/
theorem Expr.nodes_eq (expr : Expr) : expr.nodes = exprsNodes expr.children ++ [expr] := by
  cases expr with
  | ident | int | bool | str => rfl
  | unary op operand => simp [Expr.nodes, Expr.children, exprsNodes]
  | binary left op right => simp [Expr.nodes, Expr.children, exprsNodes]
  | cond condition consequence alternative =>
      cases alternative with
      | none => simp [Expr.nodes, Expr.children, exprsNodes, exprsNodes_map_value]
      | some alternative =>
          simp [Expr.nodes, Expr.children, exprsNodes, exprsNodes_append, exprsNodes_map_value]
  | function params body | macroLit params body =>
      simp [Expr.nodes, Expr.children, exprsNodes_map_value]
  | call callee args => simp [Expr.nodes, Expr.children, exprsNodes]
  | array elements => rfl
  | hash pairs =>
      rw [Expr.nodes, Expr.children, pairsNodes_eq_flatMap, exprsNodes_eq_flatMap,
        List.flatMap_assoc]
      simp
  | index collection position => simp [Expr.nodes, Expr.children, exprsNodes]

namespace Answered

variable {earlier visits later : List Visit} {exprs exprs' answers answers' : List Expr}

/-- The visits of expressions are of everything in them, in order. -/
theorem exists_inside (hanswered : Answered earlier exprs later answers) :
    ∃ inside, later = earlier ++ inside ∧ inside.map Visit.node = exprsNodes exprs := by
  induction hanswered with
  | nil => exact ⟨[], (List.append_nil _).symm, rfl⟩
  | @cons earlier inside later expr given answer exprs answers hnodes _ ih =>
      obtain ⟨behind, rfl, hbehind⟩ := ih
      refine ⟨inside ++ ⟨expr, given, answer⟩ :: behind, by simp, ?_⟩
      rw [exprsNodes, ← hnodes, ← hbehind]
      simp

/-- Expressions behind others. -/
theorem append (hfirst : Answered earlier exprs visits answers)
    (hsecond : Answered visits exprs' later answers') :
    Answered earlier (exprs ++ exprs') later (answers ++ answers') := by
  induction hfirst with
  | nil => exact hsecond
  | cons hnodes _ ih => exact .cons hnodes (ih hsecond)

/-- An expression is visited behind its children. -/
theorem self {node given answer : Expr}
    (hchildren : Answered earlier node.children visits answers) :
    Answered earlier [node] (visits ++ [⟨node, given, answer⟩]) [answer] := by
  obtain ⟨inside, rfl, hinside⟩ := hchildren.exists_inside
  refine .cons ?_ .nil
  rw [hinside, node.nodes_eq]

end Answered

/-! ## Actions that visit -/

/-- Behind visits, an action visits expressions in order and has a result that is as it should be, or
it fails at the first visit that does. -/
def Walks (modifier : Modifier ε σ) (start : σ) (visits : List Visit) (nodes : List Expr)
    (goal : List Visit → α → Prop) (action : ExceptT ε (StateM σ) α) : Prop :=
  ∀ state, Visits modifier start visits state →
    (∃ later state' value, action.run.run state = (.ok value, state') ∧
      Visits modifier start later state' ∧
      later.map Visit.node = visits.map Visit.node ++ nodes ∧ goal later value) ∨
    ∃ later state' node behind given error state'',
      action.run.run state = (.error error, state'') ∧ Visits modifier start later state' ∧
      visits.map Visit.node ++ nodes = later.map Visit.node ++ node :: behind ∧
      GivenFor later node given ∧ (modifier given).run.run state' = (.error error, state'')

namespace Walks

variable {visits : List Visit} {nodes nodes' : List Expr} {goal : List Visit → α → Prop}
  {goal' : List Visit → β → Prop} {first : ExceptT ε (StateM σ) α}
  {next : α → ExceptT ε (StateM σ) β}

/-- A result without visits. -/
theorem pure {value : α} (hvalue : goal visits value) :
    Walks modifier start visits [] goal (Pure.pure value) :=
  fun state hvisits => Or.inl ⟨visits, state, value, rfl, hvisits, (List.append_nil _).symm, hvalue⟩

/-- Actions in sequence. -/
theorem bind (hfirst : Walks modifier start visits nodes goal first)
    (hnext : ∀ later value, goal later value →
      Walks modifier start later nodes' goal' (next value)) :
    Walks modifier start visits (nodes ++ nodes') goal' (first >>= next) := by
  intro state hvisits
  rcases hfirst state hvisits with ⟨later, state', value, hrun, hlater, hnodes, hvalue⟩ |
    ⟨later, state', node, behind, given, error, state'', hrun, hlater, hnodes, hgiven, hfails⟩
  · have hsecond : (first >>= next).run.run state = (next value).run.run state' := by
      rw [ExceptT.run_bind, StateT.run_bind, hrun]
      rfl
    rw [hsecond, ← List.append_assoc, ← hnodes]
    exact hnext later value hvalue state' hlater
  · refine Or.inr ⟨later, state', node, behind ++ nodes', given, error, state'', ?_, hlater, ?_,
      hgiven, hfails⟩
    · rw [ExceptT.run_bind, StateT.run_bind, hrun]
      rfl
    · rw [← List.append_assoc, hnodes, List.append_assoc, List.cons_append]

/-- An action without visits behind others. -/
theorem bind_pure {f : α → β} (hfirst : Walks modifier start visits nodes goal first)
    (hf : ∀ later value, goal later value → goal' later (f value)) :
    Walks modifier start visits nodes goal' (first >>= fun value => Pure.pure (f value)) := by
  have hpure : ∀ later value, goal later value →
      Walks modifier start later [] goal' (Pure.pure (f value)) :=
    fun later value hvalue => pure (hf later value hvalue)
  have hboth := hfirst.bind hpure
  rwa [List.append_nil] at hboth

/-- The visit of an expression behind those of its children. -/
theorem self {earlier : List Visit} {node given : Expr} (hshape : node.SameShape given)
    (hchildren : Answered earlier node.children visits given.children) :
    Walks modifier start visits [node] (fun later answer => Answered earlier [node] later [answer])
      (modifier given) := by
  intro state hvisits
  have hgiven : GivenFor visits node given := ⟨hshape, earlier, hchildren⟩
  rcases hrun : (modifier given).run.run state with ⟨error | answer, state'⟩
  · exact Or.inr ⟨visits, state, node, [], given, error, state', rfl, hvisits, rfl, hgiven, hrun⟩
  · refine Or.inl ⟨visits ++ [⟨node, given, answer⟩], state', answer, rfl,
      hvisits.snoc hgiven hrun, ?_, hchildren.self⟩
    rw [List.map_append]
    rfl

end Walks

mutual

/-- A walk over an expression visits its expressions. -/
theorem Expr.transformM_visits : ∀ (expr : Expr) (visits : List Visit),
    Walks modifier start visits expr.nodes
      (fun later answer => Answered visits [expr] later [answer]) (expr.transformM modifier)
  | .ident _, _ => .self (.ident _) .nil
  | .int _, _ => .self (.int _) .nil
  | .bool _, _ => .self (.bool _) .nil
  | .str _, _ => .self (.str _) .nil
  | .unary _ operand, visits => by
      refine (operand.transformM_visits visits).bind fun _ operand' hoperand => ?_
      exact .self (.unary trivial) hoperand
  | .binary left _ right, visits => by
      refine (left.transformM_visits visits).bind fun later left' hleft => ?_
      refine (right.transformM_visits later).bind fun _ right' hright => ?_
      exact .self (.binary trivial trivial) (hleft.append hright)
  | .cond condition consequence none, visits => by
      refine (condition.transformM_visits visits).bind fun later condition' hcondition => ?_
      refine (transformStmtsM_visits consequence later).bind fun _ consequence' hconsequence => ?_
      exact .self (.cond trivial hconsequence.1) (hcondition.append hconsequence.2)
  | .cond condition consequence (some alternative), visits => by
      refine (condition.transformM_visits visits).bind fun later condition' hcondition => ?_
      refine (transformStmtsM_visits consequence later).bind
        fun later' consequence' hconsequence => ?_
      refine (transformStmtsM_visits alternative later').bind
        fun _ alternative' halternative => ?_
      exact .self (.condElse trivial hconsequence.1 halternative.1)
        (hcondition.append (hconsequence.2.append halternative.2))
  | .function _ body, visits => by
      refine (transformStmtsM_visits body visits).bind fun _ body' hbody => ?_
      exact .self (.function hbody.1) hbody.2
  | .macroLit _ body, visits => by
      refine (transformStmtsM_visits body visits).bind fun _ body' hbody => ?_
      exact .self (.macroLit hbody.1) hbody.2
  | .call callee args, visits => by
      refine (callee.transformM_visits visits).bind fun later callee' hcallee => ?_
      refine (transformExprsM_visits args later).bind fun _ args' hargs => ?_
      exact .self (.call trivial hargs.1) (hcallee.append hargs.2)
  | .array elements, visits => by
      refine (transformExprsM_visits elements visits).bind fun _ elements' helements => ?_
      exact .self (.array helements.1) helements.2
  | .hash pairs, visits => by
      refine (transformPairsM_visits pairs visits).bind fun _ pairs' hpairs => ?_
      exact .self (.hash hpairs.1) hpairs.2
  | .index collection position, visits => by
      refine (collection.transformM_visits visits).bind fun later collection' hcollection => ?_
      refine (position.transformM_visits later).bind fun _ position' hposition => ?_
      exact .self (.index trivial trivial) (hcollection.append hposition)

/-- A walk over a statement visits its expressions. -/
theorem Stmt.transformM_visits : ∀ (statement : Stmt) (visits : List Visit),
    Walks modifier start visits statement.nodes
      (fun later statement' => statement.Rebuilt (fun _ _ => True) statement' ∧
        Answered visits [statement.value] later [statement'.value])
      (statement.transformM modifier)
  | .bind _ value, visits =>
      (value.transformM_visits visits).bind_pure fun _ _ hvalue => ⟨.bind trivial, hvalue⟩
  | .ret value, visits =>
      (value.transformM_visits visits).bind_pure fun _ _ hvalue => ⟨.ret trivial, hvalue⟩
  | .expr value, visits =>
      (value.transformM_visits visits).bind_pure fun _ _ hvalue => ⟨.expr trivial, hvalue⟩

/-- A walk over statements visits their expressions. -/
theorem transformStmtsM_visits : ∀ (statements : List Stmt) (visits : List Visit),
    Walks modifier start visits (stmtsNodes statements)
      (fun later statements' => SameShapes statements statements' ∧
        Answered visits (statements.map Stmt.value) later (statements'.map Stmt.value))
      (transformStmtsM modifier statements)
  | [], _ => .pure ⟨.nil, .nil⟩
  | statement :: statements, visits => by
      refine (statement.transformM_visits visits).bind fun later statement' hstatement => ?_
      refine (transformStmtsM_visits statements later).bind_pure fun _ _ hstatements => ?_
      exact ⟨.cons hstatement.1 hstatements.1, hstatement.2.append hstatements.2⟩

/-- A walk over expressions visits their expressions. -/
theorem transformExprsM_visits : ∀ (exprs : List Expr) (visits : List Visit),
    Walks modifier start visits (exprsNodes exprs)
      (fun later exprs' => List.Forall₂ (fun _ _ => True) exprs exprs' ∧
        Answered visits exprs later exprs')
      (transformExprsM modifier exprs)
  | [], _ => .pure ⟨.nil, .nil⟩
  | expr :: exprs, visits => by
      refine (expr.transformM_visits visits).bind fun later expr' hexpr => ?_
      refine (transformExprsM_visits exprs later).bind_pure fun _ _ hexprs => ?_
      exact ⟨.cons trivial hexprs.1, hexpr.append hexprs.2⟩

/-- A walk over pairs visits their expressions. -/
theorem transformPairsM_visits : ∀ (pairs : List (Expr × Expr)) (visits : List Visit),
    Walks modifier start visits (pairsNodes pairs)
      (fun later pairs' => RebuiltPairs (fun _ _ => True) pairs pairs' ∧
        Answered visits (pairs.flatMap fun pair => [pair.1, pair.2]) later
          (pairs'.flatMap fun pair => [pair.1, pair.2]))
      (transformPairsM modifier pairs)
  | [], _ => .pure ⟨.nil, .nil⟩
  | (key, value) :: pairs, visits => by
      refine (key.transformM_visits visits).bind fun later key' hkey => ?_
      refine (value.transformM_visits later).bind fun later' value' hvalue => ?_
      refine (transformPairsM_visits pairs later').bind_pure fun _ _ hpairs => ?_
      exact ⟨.cons ⟨trivial, trivial⟩ hpairs.1, hkey.append (hvalue.append hpairs.2)⟩

end

/-- A walk over a program makes one visit for each expression of the program, in order, the children
of an expression from left to right and then the expression itself. What is handed over is the
expression with the answers of its children in their place. If all visits are answered, the result
is the program with the answers of its outermost expressions in their place, and if one fails, it is
the last one and the walk fails alike. A visit that answers with what it is given changes nothing. -/
theorem transformProgramM_visits (modifier : Modifier ε σ) (program : Program) (start : σ) :
    ((∃ visits state program',
        (transformProgramM modifier program).run.run start = (.ok program', state) ∧
        Visits modifier start visits state ∧ visits.map Visit.node = stmtsNodes program ∧
        SameShapes program program' ∧
        Answered [] (program.map Stmt.value) visits (program'.map Stmt.value)) ∨
      ∃ visits state node behind given error state',
        (transformProgramM modifier program).run.run start = (.error error, state') ∧
        Visits modifier start visits state ∧
        stmtsNodes program = visits.map Visit.node ++ node :: behind ∧
        GivenFor visits node given ∧
        (modifier given).run.run state = (.error error, state')) ∧
    (transformProgramM (pure : Modifier ε σ) program).run.run start = (.ok program, start) := by
  refine ⟨transformStmtsM_visits program [] start .nil, ?_⟩
  rw [transformProgramM_pure]
  rfl

end MonkeyLang
