import MonkeyLang.Scope.Basic

/-!
# The store of scopes

All scopes that were ever entered live in one store, numbered in order of creation. A handle is the
number of a scope, so handles share scopes, and a binding made through one of them is seen through
every other. Names are looked up from the inside out, and bindings are only ever made in the
handle's own scope. A scope lies in an older one, which is why the search for a name ends.
-/

namespace MonkeyLang

/-- The scopes created so far. -/
structure Store where
  scopes : Array Scope

namespace Store

/-- The store without scopes. -/
def empty : Store := ⟨#[]⟩

/-- The scope of a number. A number not in use stands for the empty scope. -/
def scope (store : Store) (id : ScopeId) : Scope :=
  store.scopes[id]?.getD .empty

/-- Add a scope inside `outer`, and give its handle. -/
def enter (store : Store) (outer : Option Env) (scope : Scope) : Env × Store :=
  (⟨store.scopes.size⟩, ⟨store.scopes.push { scope with outer := outer.map Env.scope }⟩)

/-- Bind a name in the handle's own scope. -/
def bind (store : Store) (env : Env) (name : String) (value : Value) : Store :=
  ⟨store.scopes.modify env.scope (Scope.bind name value)⟩

/-- The value of a name in the first scope that binds it, on the way outward from the scope `id`. -/
def find? (store : Store) (name : String) (id : ScopeId) : Option Value :=
  match (store.scope id).get? name with
  | some value => some value
  | none =>
      match (store.scope id).outer with
      | some outer => if outer < id then store.find? name outer else none
      | none => none
termination_by id

/-- The value of a name in the innermost scope that binds it. -/
def lookup? (store : Store) (env : Env) (name : String) : Option Value :=
  store.find? name env.scope

/-- The value of a name, or the fault that no scope in reach binds it. -/
def lookup (store : Store) (env : Env) (name : String) : Except Fault Value :=
  match store.lookup? env name with
  | some value => .ok value
  | none => .error (.unbound name)

/-- The summary of an environment: how many names its own scope binds. -/
def summary (store : Store) (env : Env) : String :=
  "Env(" ++ (store.scope env.scope).size.repr ++ " bindings)"

end Store

end MonkeyLang
