import MonkeyLang.Value.Basic
import MonkeyLang.Value.Fault

/-!
# Scopes

A scope binds names to values, each name at most once, and lies in another scope or in none. A new
binding of a name takes the place of the old one (`Scope.get?_bind_self`) and leaves the other names
alone (`Scope.get?_bind_of_ne`).
-/

namespace MonkeyLang

/-- One scope: the scope around it, if there is one, and its own bindings. -/
structure Scope where
  outer : Option ScopeId
  bindings : List (String × Value)

namespace Scope

/-- The scope without bindings that lies in no other. -/
def empty : Scope := ⟨none, []⟩

/-- The value bound to a name. -/
def get? (scope : Scope) (name : String) : Option Value :=
  scope.bindings.lookup name

/-- Bind a name, in place of its binding if it has one. -/
def bind (name : String) (value : Value) (scope : Scope) : Scope :=
  { scope with bindings := (name, value) :: scope.bindings.filter (·.1 ≠ name) }

/-- The scope that binds parameters to arguments one by one. There must be as many arguments as
parameters, and of several equal parameters the last one counts. -/
def ofArgs (params : List String) (args : List Value) : Except Fault Scope :=
  if params.length = args.length then
    .ok ((params.zip args).foldl (fun scope (name, value) => scope.bind name value) empty)
  else
    .error (.arity params.length args.length)

/-- The number of names that a scope binds. -/
def size (scope : Scope) : Nat :=
  scope.bindings.length

/-- The empty scope binds nothing. -/
theorem get?_empty (name : String) : empty.get? name = none := rfl

/-- A name that was just bound has the new value. -/
theorem get?_bind_self (name : String) (value : Value) (scope : Scope) :
    (scope.bind name value).get? name = some value := by
  simp [get?, bind]

/-- Looking a name up passes over the bindings of another name. -/
theorem lookup_filter_ne {name other : String} (hne : other ≠ name)
    (bindings : List (String × Value)) :
    (bindings.filter (·.1 ≠ name)).lookup other = bindings.lookup other := by
  induction bindings with
  | nil => rfl
  | cons binding bindings ih =>
      obtain ⟨bound, value⟩ := binding
      by_cases hbound : bound = name
      · subst hbound
        rw [List.filter_cons_of_neg (by simp), List.lookup_cons, beq_false_of_ne hne]
        exact ih
      · rw [List.filter_cons_of_pos (by simpa using hbound), List.lookup_cons, List.lookup_cons, ih]

/-- Binding a name leaves the other names alone. -/
theorem get?_bind_of_ne {name other : String} (hne : other ≠ name) (value : Value)
    (scope : Scope) : (scope.bind name value).get? other = scope.get? other := by
  simp only [get?, bind, List.lookup_cons, beq_false_of_ne hne]
  exact lookup_filter_ne hne scope.bindings

end Scope

end MonkeyLang
