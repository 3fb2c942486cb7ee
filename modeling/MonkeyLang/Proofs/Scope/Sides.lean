import MonkeyLang.Proofs.Scope.Store
import MonkeyLang.Proofs.Value.Parts

/-!
# Scopes on two sides

A scope refers to others: to the one around it, and to those that its values remember. A store is
divided if every scope is on one side and refers to scopes of that side alone. The store operations
keep it divided, as long as code on a side gives them handles of its own side. Nothing is then in
reach of both sides: read `Store.Divided.not_reaches`.
-/

namespace MonkeyLang

/-- The side of a scope: of values, or of macros. -/
inductive Side where
  | values
  | macros
  deriving DecidableEq

/-- The scopes in reach of a scope: itself, those around a scope in reach, and those that a value
bound in a scope in reach remembers. -/
inductive Store.Reaches (store : Store) (start : ScopeId) : ScopeId → Prop where
  | self : Reaches store start start
  | outer {id outer : ScopeId} :
      Reaches store start id → (store.scope id).outer = some outer → Reaches store start outer
  | captured {id : ScopeId} {binding : String × Value} {env : Env} :
      Reaches store start id → binding ∈ (store.scope id).bindings →
      binding.2.Captures env → Reaches store start env.scope

/-- Whether a value remembers only scopes in use. -/
def Value.Within (value : Value) (store : Store) : Prop :=
  value.CapturesOnly fun env => env.scope < store.scopes.size

/-- Every scope refers only to scopes in use. -/
structure Store.Closed (store : Store) : Prop where
  outer_lt : ∀ {id outer}, (store.scope id).outer = some outer → outer < store.scopes.size
  value_within : ∀ {id binding}, binding ∈ (store.scope id).bindings → binding.2.Within store

/-- Whether a handle is on a side, given the sides of the scopes in order of creation. -/
def Env.On (env : Env) (sides : List Side) (side : Side) : Prop :=
  sides[env.scope]? = some side

/-- Handles stay on their side when scopes are added. -/
theorem Env.On.mono {env : Env} {sides sides' : List Side} {side : Side}
    (hon : env.On sides side) (hgrows : sides <+: sides') : env.On sides' side := by
  obtain ⟨more, rfl⟩ := hgrows
  have hlt : env.scope < sides.length := (List.getElem?_eq_some_iff.mp hon).1
  unfold Env.On
  rw [List.getElem?_append_left hlt]
  exact hon

/-- Whether a value remembers only environments of a side. -/
def Value.On (value : Value) (sides : List Side) (side : Side) : Prop :=
  value.CapturesOnly fun env => env.On sides side

/-- Every scope has a side and refers only to scopes of that side. -/
structure Store.Divided (store : Store) (sides : List Side) : Prop where
  length_eq : sides.length = store.scopes.size
  outer_on : ∀ {id side outer}, sides[id]? = some side →
    (store.scope id).outer = some outer → sides[outer]? = some side
  value_on : ∀ {id side binding}, sides[id]? = some side →
    binding ∈ (store.scope id).bindings → binding.2.On sides side

namespace Store.Divided

variable {store : Store} {sides : List Side} {side : Side} {env : Env}

/-- A scope that has a side is in use. -/
theorem lt_size {id : ScopeId} (hdivided : store.Divided sides) (hside : sides[id]? = some side) :
    id < store.scopes.size := by
  rw [← hdivided.length_eq]
  exact (List.getElem?_eq_some_iff.mp hside).1

/-- The scopes of a divided store refer only to scopes in use. -/
theorem closed (hdivided : store.Divided sides) : store.Closed := by
  -- A number not in use stands for the empty scope, which refers to nothing.
  have hside : ∀ id, (∃ side, sides[id]? = some side) ∨ store.scope id = .empty := by
    intro id
    by_cases hlt : id < store.scopes.size
    · exact Or.inl ⟨_, List.getElem?_eq_getElem (hdivided.length_eq.symm ▸ hlt)⟩
    · exact Or.inr (scope_of_size_le (Nat.le_of_not_lt hlt))
  constructor
  · intro id outer houter
    obtain ⟨side, hside⟩ | hempty := hside id
    · exact hdivided.lt_size (hdivided.outer_on hside houter)
    · rw [hempty] at houter
      cases houter
  · intro id binding hmem
    obtain ⟨side, hside⟩ | hempty := hside id
    · exact (hdivided.value_on hside hmem).mono fun _ hon => hdivided.lt_size hon
    · rw [hempty] at hmem
      cases hmem

/-- A store without scopes is divided. -/
theorem empty : Store.empty.Divided [] where
  length_eq := rfl
  outer_on hnone := nomatch hnone
  value_on hnone := nomatch hnone

/-- What is found on the way outward from a scope remembers scopes of its side. -/
theorem find? {id : ScopeId} {name : String} {value : Value} (hdivided : store.Divided sides)
    (hside : sides[id]? = some side) (hfind : store.find? name id = some value) :
    value.On sides side := by
  fun_induction Store.find? store name id with
  | case1 id bound hget =>
      cases hfind
      exact hdivided.value_on hside (Scope.mem_bindings_of_get? hget)
  | case2 id hget outer houter hlt ih => exact ih (hdivided.outer_on hside houter) hfind
  | case3 | case4 => cases hfind

/-- Binding a value in a scope of its side. -/
theorem bind {value : Value} (hdivided : store.Divided sides) (henv : env.On sides side)
    (name : String) (hvalue : value.On sides side) :
    (store.bind env name value).Divided sides where
  length_eq := by rw [store.size_bind, hdivided.length_eq]
  outer_on := by
    intro id side' outer hside houter
    by_cases hown : id = env.scope
    · subst hown
      rw [scope_bind_self name value (hdivided.lt_size hside)] at houter
      exact hdivided.outer_on hside houter
    · rw [scope_bind_of_ne name value hown] at houter
      exact hdivided.outer_on hside houter
  value_on := by
    intro id side' binding hside hmem
    by_cases hown : id = env.scope
    · subst hown
      rw [scope_bind_self name value (hdivided.lt_size hside)] at hmem
      rcases Scope.mem_bindings_bind hmem with rfl | hold
      · -- The scope has one side only, which is that of the value.
        obtain rfl : side = side' := Option.some.inj (henv.symm.trans hside)
        exact hvalue
      · exact hdivided.value_on hside hold
    · rw [scope_bind_of_ne name value hown] at hmem
      exact hdivided.value_on hside hmem

/-- Entering a scope adds it to the side of what it refers to. -/
theorem enter {outer : Option Env} {scope : Scope} (hdivided : store.Divided sides)
    (houter : ∀ env ∈ outer, env.On sides side)
    (hscope : ∀ binding ∈ scope.bindings, binding.2.On sides side) :
    (store.enter outer scope).2.Divided (sides ++ [side]) := by
  have hgrows : sides <+: sides ++ [side] := List.prefix_append sides [side]
  -- A scope of the new list is the new scope or had its side before.
  have hsplit : ∀ {id side'}, (sides ++ [side])[id]? = some side' →
      id = store.scopes.size ∧ side' = side ∨ id < store.scopes.size ∧ sides[id]? = some side' := by
    intro id side' hside
    have hlength := hdivided.length_eq
    have hlt := (List.getElem?_eq_some_iff.mp hside).1
    simp only [List.length_append, List.length_singleton] at hlt
    by_cases hnew : id = sides.length
    · subst hnew
      rw [List.getElem?_concat_length] at hside
      exact Or.inl ⟨hlength, (Option.some.inj hside).symm⟩
    · rw [List.getElem?_append_left (by omega)] at hside
      exact Or.inr ⟨by omega, hside⟩
  constructor
  · rw [store.size_enter, List.length_append, hdivided.length_eq, List.length_singleton]
  · intro id side' outer' hside houter'
    rcases hsplit hside with ⟨rfl, rfl⟩ | ⟨hlt, hold⟩
    · rw [scope_enter_self] at houter'
      obtain ⟨env, henv, rfl⟩ := Option.map_eq_some_iff.mp houter'
      exact (houter env henv).mono hgrows
    · rw [scope_enter_of_lt outer scope hlt] at houter'
      have hon : Env.On ⟨outer'⟩ sides side' := hdivided.outer_on hold houter'
      exact hon.mono hgrows
  · intro id side' binding hside hmem
    rcases hsplit hside with ⟨rfl, rfl⟩ | ⟨hlt, hold⟩
    · rw [scope_enter_self] at hmem
      exact (hscope binding hmem).mono fun env hon => hon.mono hgrows
    · rw [scope_enter_of_lt outer scope hlt] at hmem
      exact (hdivided.value_on hold hmem).mono fun env hon => hon.mono hgrows

/-- What a scope reaches is on its side. -/
theorem reaches {start id : ScopeId} (hdivided : store.Divided sides)
    (hstart : sides[start]? = some side) (hreach : store.Reaches start id) :
    sides[id]? = some side := by
  induction hreach with
  | self => exact hstart
  | outer _ houter ih => exact hdivided.outer_on ih houter
  | captured _ hmem hcaptures ih => exact hdivided.value_on ih hmem _ hcaptures

/-- No scope is in reach of scopes on different sides. -/
theorem not_reaches {start other id : ScopeId} {side' : Side} (hdivided : store.Divided sides)
    (hstart : sides[start]? = some side) (hother : sides[other]? = some side')
    (hne : side ≠ side') (hreach : store.Reaches start id) : ¬ store.Reaches other id := by
  intro hreach'
  have hside := (hdivided.reaches hstart hreach).symm.trans (hdivided.reaches hother hreach')
  exact hne (Option.some.inj hside)

end Store.Divided

end MonkeyLang
