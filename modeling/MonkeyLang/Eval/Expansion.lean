import MonkeyLang.Eval.Expressions

/-!
# Macros

Macros are defined and expanded ahead of evaluation. A definition is a binding of a macro literal at
the top of a program. Definitions leave the program and are bound in an environment of their own.
Each call of a macro is then replaced, innermost calls first, by the code that the body of the macro
makes of the arguments, which are handed to it unevaluated.
-/

namespace MonkeyLang

/-- A macro and its name. -/
structure MacroDefinition where
  name : String
  params : List String
  body : Block

/-- The macro that a statement defines, if it is a definition. -/
def Stmt.macroDefinition? : Stmt → Option MacroDefinition
  | .bind name (.macroLit params body) => some ⟨name, params, body⟩
  | _ => none

/-- The macros that a program defines at its top, in order. -/
def macroDefinitions (program : Program) : List MacroDefinition :=
  program.filterMap Stmt.macroDefinition?

/-- The program without its macro definitions. -/
def withoutDefinitions (program : Program) : Program :=
  program.filter fun statement => statement.macroDefinition?.isNone

/-- Bind macros in the environment `macros`, which is also the one that they remember. -/
def Store.defineMacros (store : Store) (macros : Env) (definitions : List MacroDefinition) :
    Store :=
  definitions.foldl
    (fun store definition =>
      store.bind macros definition.name (.macroFn definition.params definition.body macros))
    store

/-- The code that a macro makes of quoted arguments. -/
def expandCall (evaluate : Evaluator) (name : String) (params : List String) (body : Block)
    (env : Env) (args : List Expr) : Eval Expr := do
  let value ← evalBody evaluate params body env (args.map .quote)
  match value with
  | .quote expr => pure expr
  | other => Eval.fail (.macroResult name other.kind)

/-- Replace a call of a macro by the code that the macro makes of its arguments. Other expressions
stay. -/
def expandMacro (evaluate : Evaluator) (macros : Env) (expr : Expr) : Eval Expr :=
  match expr with
  | .call (.ident name) args => do
      match ← Eval.lookup? macros name with
      | some (.macroFn params body env) => expandCall evaluate name params body env args
      | _ => pure expr
  | _ => pure expr

/-- Expand every macro call of a program. -/
def expandMacros (depth : Nat) (macros : Env) (program : Program) : Eval Program :=
  transformProgramM (expandMacro (eval depth) macros) program

end MonkeyLang
