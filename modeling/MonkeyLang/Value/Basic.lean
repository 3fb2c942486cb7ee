import MonkeyLang.Expr.Basic
import MonkeyLang.Value.Kind

/-!
# Values

What expressions evaluate to. Functions and macros remember the environment of their definition by
a handle on its scope, so a value refers to scopes without containing them.
-/

namespace MonkeyLang

/-- The number of a scope in the store. -/
abbrev ScopeId := Nat

/-- A handle on an environment: the innermost of its scopes. Copies of a handle share the scope. -/
structure Env where
  scope : ScopeId
  deriving DecidableEq, Repr

/-- The builtin functions. -/
inductive Builtin where
  | len
  | first
  | last
  | rest
  | push
  | puts
  deriving DecidableEq, Repr

/-- The name of a builtin. -/
def Builtin.name : Builtin → String
  | len => "len"
  | first => "first"
  | last => "last"
  | rest => "rest"
  | push => "push"
  | puts => "puts"

/-- All builtins. -/
def Builtin.all : List Builtin :=
  [len, first, last, rest, push, puts]

/-- The builtin of the given name. -/
def Builtin.ofName? (name : String) : Option Builtin :=
  all.find? (·.name = name)

/-- The types whose values can be keys of a hash. -/
inductive HashKind where
  | boolean
  | integer
  | string
  deriving DecidableEq, Repr

/-- What a hash tells its entries apart by: the type of the key and a 64-bit digest of it. -/
structure HashKey where
  kind : HashKind
  digest : UInt64
  deriving DecidableEq, Repr

/-- An entry of a hash: the key as it was given and its value, stored under a hash key. -/
structure Entry (α : Type) where
  hashKey : HashKey
  key : α
  value : α

/-- A value. The entries of `hash` are listed by increasing hash keys, so that a hash has one
representation. No program can observe this order, and the order of printing is another matter.
`returned` marks the value of a `return` on its way out, and `error` is the report of a failed
evaluation. -/
inductive Value where
  | int (value : Int64)
  | bool (value : Bool)
  | null
  | str (text : String)
  | array (elements : List Value)
  | hash (entries : List (Entry Value))
  | function (params : List String) (body : Block) (env : Env)
  | builtin (builtin : Builtin)
  | returned (value : Value)
  | error (message : String)
  | quote (expr : Expr)
  | macroFn (params : List String) (body : Block) (env : Env)

instance : Inhabited Value := ⟨.null⟩

namespace Value

/-- The type of a value. -/
def kind : Value → Kind
  | int _ => .integer
  | bool _ => .boolean
  | null => .null
  | str _ => .string
  | array _ => .array
  | hash _ => .hash
  | function .. => .function
  | builtin _ => .builtin
  | returned _ => .returned
  | error _ => .error
  | quote _ => .quote
  | macroFn .. => .macroFn

/-- Whether a value counts as true in a condition: every value does but `false` and `null`. -/
def truthy : Value → Bool
  | bool false => false
  | null => false
  | _ => true

end Value

end MonkeyLang
