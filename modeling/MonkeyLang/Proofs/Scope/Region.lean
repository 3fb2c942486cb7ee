import MonkeyLang.Proofs.Scope.Sides

/-!
# Regions of scopes

A region is a set of scopes that refer to each other alone and bind only good values. Looking a name
up stays inside it, and the store operations keep it as long as they are given handles of the region
and good values; a scope that is entered joins it. What a scope of a region reaches is in the region
(`Store.Region.mem_of_reaches`).
-/

namespace MonkeyLang

/-- Whether a value is good and remembers only scopes of a region. -/
structure Value.Belongs (value : Value) (good : Value → Prop) (region : ScopeId → Prop) : Prop where
  captured : value.CapturesOnly fun env => region env.scope
  isGood : good value

/-- The scopes of a region lie in scopes of the region, and bind good values that remember only
scopes of the region. -/
structure Store.Region (store : Store) (good : Value → Prop) (region : ScopeId → Prop) : Prop where
  outer_mem : ∀ {id outer}, region id → (store.scope id).outer = some outer → region outer
  value_belongs : ∀ {id binding}, region id → binding ∈ (store.scope id).bindings →
    binding.2.Belongs good region

variable {good : Value → Prop} {region region' : ScopeId → Prop}

/-- What belongs to a region belongs to a larger one. -/
theorem Value.Belongs.mono {value : Value} (hvalue : value.Belongs good region)
    (hgrows : ∀ id, region id → region' id) : value.Belongs good region' :=
  ⟨hvalue.captured.mono fun env => hgrows env.scope, hvalue.isGood⟩

namespace Store.Region

variable {store : Store} {env : Env}

/-- A region depends on its own scopes alone. -/
theorem of_scope_eq {store' : Store} (hregion : store.Region good region)
    (hscope : ∀ id, region id → store'.scope id = store.scope id) :
    store'.Region good region where
  outer_mem hid houter := hregion.outer_mem hid (hscope _ hid ▸ houter)
  value_belongs hid hmem := hregion.value_belongs hid (hscope _ hid ▸ hmem)

/-- What is found on the way outward from a scope of a region belongs to the region. -/
theorem find? {id : ScopeId} {name : String} {value : Value} (hregion : store.Region good region)
    (hid : region id) (hfind : store.find? name id = some value) :
    value.Belongs good region := by
  fun_induction Store.find? store name id with
  | case1 id bound hget =>
      cases hfind
      exact hregion.value_belongs hid (Scope.mem_bindings_of_get? hget)
  | case2 id hget outer houter hlt ih => exact ih (hregion.outer_mem hid houter) hfind
  | case3 | case4 => cases hfind

/-- Binding a value that belongs to a region. -/
theorem bind {value : Value} (hregion : store.Region good region) (env : Env) (name : String)
    (hvalue : value.Belongs good region) : (store.bind env name value).Region good region where
  outer_mem hid houter := hregion.outer_mem hid (store.outer_bind env name value _ ▸ houter)
  value_belongs hid hmem := by
    rcases Store.mem_bindings_bind hmem with rfl | hold
    · exact hvalue
    · exact hregion.value_belongs hid hold

/-- A scope entered inside a region joins it. -/
theorem enter {scope : Scope} (hregion : store.Region good region) (henv : region env.scope)
    (hscope : ∀ binding ∈ scope.bindings, binding.2.Belongs good region) :
    (store.enter (some env) scope).2.Region good fun id => region id ∨ id = store.scopes.size := by
  have hgrows : ∀ id, region id → region id ∨ id = store.scopes.size := fun _ => Or.inl
  -- A scope of the larger region is the new one or was in the region before and did not change.
  have hsplit : ∀ {id}, region id ∨ id = store.scopes.size →
      id = store.scopes.size ∨
        region id ∧ (store.enter (some env) scope).2.scope id = store.scope id := by
    intro id hid
    by_cases hnew : id = store.scopes.size
    · exact Or.inl hnew
    · exact Or.inr ⟨hid.resolve_right hnew, scope_enter_of_ne (some env) scope hnew⟩
  constructor
  · intro id outer hid houter
    rcases hsplit hid with rfl | ⟨hold, heq⟩
    · rw [scope_enter_self] at houter
      cases houter
      exact hgrows env.scope henv
    · rw [heq] at houter
      exact hgrows outer (hregion.outer_mem hold houter)
  · intro id binding hid hmem
    rcases hsplit hid with rfl | ⟨hold, heq⟩
    · rw [scope_enter_self] at hmem
      exact (hscope binding hmem).mono hgrows
    · rw [heq] at hmem
      exact (hregion.value_belongs hold hmem).mono hgrows

/-- What a scope of a region reaches is in the region. -/
theorem mem_of_reaches {start id : ScopeId} (hregion : store.Region good region)
    (hstart : region start) (hreach : store.Reaches start id) : region id := by
  induction hreach with
  | self => exact hstart
  | outer _ houter ih => exact hregion.outer_mem ih houter
  | captured _ hmem hcaptures ih => exact (hregion.value_belongs ih hmem).captured _ hcaptures

end Store.Region

/-- The scopes in reach of a scope are a region if they bind good values. -/
theorem Store.region_reaches {store : Store} {start : ScopeId}
    (hgood : ∀ id, store.Reaches start id → ∀ binding ∈ (store.scope id).bindings, good binding.2) :
    store.Region good (store.Reaches start) where
  outer_mem hid houter := .outer hid houter
  value_belongs hid hmem := ⟨fun _ hcaptures => .captured hid hmem hcaptures, hgood _ hid _ hmem⟩

end MonkeyLang
