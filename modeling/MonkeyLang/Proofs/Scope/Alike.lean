import MonkeyLang.Proofs.Scope.Store
import MonkeyLang.Proofs.Value.Alike

/-!
# Stores that are alike

Two stores are alike along a relation of handles if related handles stand for scopes that are alike,
in the same order of creation. A name is then looked up with results that are alike
(`Store.Alike.lookup?`), and binding and entering keep the stores alike (`Store.Alike.bind`,
`Store.Alike.enter`).
-/

namespace MonkeyLang

/-- Related options are both there or both missing. -/
theorem rel_cases {α β : Type} {related : α → β → Prop} {left : Option α} {right : Option β}
    (hrel : Option.Rel related left right) :
    left = none ∧ right = none ∨
      ∃ value value', left = some value ∧ right = some value' ∧ related value value' := by
  cases hrel with
  | none => exact Or.inl ⟨rfl, rfl⟩
  | some hvalues => exact Or.inr ⟨_, _, rfl, rfl, hvalues⟩

/-- The bindings are of the same name, and the values are alike. -/
structure AlikeBinding (same : Env → Env → Prop) (binding binding' : String × Value) : Prop where
  name_eq : binding.1 = binding'.1
  value : binding.2.Alike same binding'.2

/-- The scopes lie in related scopes and bind the same names, in the same order, to values that are
alike. -/
structure Scope.Alike (same : Env → Env → Prop) (scope scope' : Scope) : Prop where
  outer : Option.Rel (fun outer outer' => same ⟨outer⟩ ⟨outer'⟩) scope.outer scope'.outer
  bindings : List.Forall₂ (AlikeBinding same) scope.bindings scope'.bindings

namespace Scope

variable {same same' : Env → Env → Prop} {scope scope' : Scope}

/-- A wider relation of handles. -/
theorem Alike.mono (halike : scope.Alike same scope')
    (hsame : ∀ env env', same env env' → same' env env') : scope.Alike same' scope' where
  outer := by
    obtain ⟨hnone, hnone'⟩ | ⟨outer, outer', hsome, hsome', houter⟩ := rel_cases halike.outer
    · rw [hnone, hnone']
      exact .none
    · rw [hsome, hsome']
      exact .some (hsame _ _ houter)
  bindings := halike.bindings.imp fun _ _ hbinding =>
    ⟨hbinding.name_eq, hbinding.value.mono hsame⟩

/-- A name has values that are alike in scopes that are alike. -/
theorem Alike.get? (halike : scope.Alike same scope') (name : String) :
    Option.Rel (Value.Alike same) (scope.get? name) (scope'.get? name) := by
  have hlookup : ∀ {bindings bindings' : List (String × Value)},
      List.Forall₂ (AlikeBinding same) bindings bindings' →
      Option.Rel (Value.Alike same) (bindings.lookup name) (bindings'.lookup name) := by
    intro bindings bindings' hbindings
    induction hbindings with
    | nil => exact .none
    | @cons binding binding' _ _ hbinding _ ih =>
        obtain ⟨bound, value⟩ := binding
        obtain ⟨bound', value'⟩ := binding'
        obtain ⟨rfl, hvalue⟩ : bound = bound' ∧ value.Alike same value' :=
          ⟨hbinding.name_eq, hbinding.value⟩
        rw [List.lookup_cons, List.lookup_cons]
        split
        · exact .some hvalue
        · exact ih
  exact hlookup halike.bindings

/-- Binding a name to values that are alike. -/
theorem Alike.bind {value value' : Value} (halike : scope.Alike same scope') (name : String)
    (hvalue : value.Alike same value') :
    (scope.bind name value).Alike same (scope'.bind name value') where
  outer := halike.outer
  bindings := by
    refine .cons ⟨rfl, hvalue⟩ (List.rel_filter ?_ halike.bindings)
    intro binding binding' hbinding
    show decide (binding.1 ≠ name) = true ↔ decide (binding'.1 ≠ name) = true
    rw [hbinding.name_eq]

/-- Parameters are bound to arguments that are alike, or their number is wrong on both sides. -/
theorem ofArgs_alike (params : List String) {args args' : List Value}
    (hargs : AlikeValues same args args') :
    Except.Alike (Scope.Alike same) (ofArgs params args) (ofArgs params args') := by
  have hfold : ∀ {args args' : List Value}, AlikeValues same args args' →
      ∀ (params : List String) (scope scope' : Scope), scope.Alike same scope' →
      ((params.zip args).foldl (fun scope pair => scope.bind pair.1 pair.2) scope).Alike same
        ((params.zip args').foldl (fun scope pair => scope.bind pair.1 pair.2) scope') := by
    intro args args' hargs
    induction hargs with
    | nil =>
        intro params scope scope' hscope
        rw [List.zip_nil_right]
        exact hscope
    | cons harg _ ih =>
        intro params scope scope' hscope
        cases params with
        | nil => exact hscope
        | cons name params => exact ih params _ _ (hscope.bind name harg)
  unfold ofArgs
  rw [← hargs.length_eq]
  split
  · exact .ok (hfold hargs params empty empty ⟨.none, .nil⟩)
  · exact .error _

end Scope

/-- Related handles are in the same order on both sides. -/
def Ordered (same : Env → Env → Prop) : Prop :=
  ∀ ⦃env env' other other'⦄, same env env' → same other other' →
    (env.scope < other.scope ↔ env'.scope < other'.scope)

/-- Handles that are in the same order are equal on both sides or on none. -/
theorem Ordered.scope_eq_iff {same : Env → Env → Prop} {env env' other other' : Env}
    (hordered : Ordered same) (henv : same env env') (hother : same other other') :
    env.scope = other.scope ↔ env'.scope = other'.scope := by
  have hlt : env.scope < other.scope ↔ env'.scope < other'.scope := hordered henv hother
  have hgt : other.scope < env.scope ↔ other'.scope < env'.scope := hordered hother henv
  rw [Nat.eq_iff_le_and_ge, Nat.eq_iff_le_and_ge, ← Nat.not_lt, ← Nat.not_lt, ← Nat.not_lt,
    ← Nat.not_lt, hlt, hgt]

/-- Related handles stand for scopes that are alike. -/
structure Store.Alike (same : Env → Env → Prop) (store store' : Store) : Prop where
  ordered : Ordered same
  inUse : ∀ {env env'}, same env env' →
    (env.scope < store.scopes.size ↔ env'.scope < store'.scopes.size)
  scope : ∀ {env env'}, same env env' →
    (store.scope env.scope).Alike same (store'.scope env'.scope)

namespace Store.Alike

variable {same same' : Env → Env → Prop} {store store' : Store} {env env' : Env}

/-- A name is looked up with results that are alike. -/
theorem lookup? (halike : store.Alike same store') (henv : same env env') (name : String) :
    Option.Rel (Value.Alike same) (store.lookup? env name) (store'.lookup? env' name) := by
  have hfind : ∀ id id', same ⟨id⟩ ⟨id'⟩ →
      Option.Rel (Value.Alike same) (store.find? name id) (store'.find? name id') := by
    intro id
    -- The search goes outward through older scopes, in step on both sides.
    induction id using Nat.strongRecOn with
    | ind id ih =>
        intro id' hid
        have hscope := halike.scope hid
        rw [Store.find?, Store.find?]
        obtain ⟨hget, hget'⟩ | ⟨value, value', hget, hget', hvalue⟩ := rel_cases (hscope.get? name)
        · rw [hget, hget']
          obtain ⟨houter, houter'⟩ | ⟨outer, outer', houter, houter', hsame⟩ :=
            rel_cases hscope.outer
          · rw [houter, houter']
            exact .none
          · rw [houter, houter']
            have hlt : outer < id ↔ outer' < id' := halike.ordered hsame hid
            by_cases holder : outer < id
            · dsimp only
              rw [if_pos holder, if_pos (hlt.mp holder)]
              exact ih outer holder outer' hsame
            · dsimp only
              rw [if_neg holder, if_neg fun holder' => holder (hlt.mpr holder')]
              exact .none
        · rw [hget, hget']
          exact .some hvalue
  exact hfind env.scope env'.scope henv

/-- Binding a name through related handles to values that are alike. -/
theorem bind {value value' : Value} (halike : store.Alike same store') (henv : same env env')
    (name : String) (hvalue : value.Alike same value') :
    (store.bind env name value).Alike same (store'.bind env' name value') where
  ordered := halike.ordered
  inUse := by
    intro other other' hother
    rw [store.size_bind, store'.size_bind]
    exact halike.inUse hother
  scope := by
    intro other other' hother
    have hscope := halike.scope hother
    by_cases hown : other.scope = env.scope
    · have hown' := (halike.ordered.scope_eq_iff hother henv).mp hown
      rw [hown, hown'] at hscope ⊢
      by_cases hlt : env.scope < store.scopes.size
      · have hlt' := (halike.inUse henv).mp hlt
        rw [scope_bind_self name value hlt, scope_bind_self name value' hlt']
        exact hscope.bind name hvalue
      · have hle := Nat.le_of_not_lt hlt
        have hle' := Nat.le_of_not_lt fun hlt' => hlt ((halike.inUse henv).mpr hlt')
        rw [scope_bind_of_size_le name value hle, scope_bind_of_size_le name value' hle']
        exact hscope
    · have hown' : other'.scope ≠ env'.scope :=
        fun heq => hown ((halike.ordered.scope_eq_iff hother henv).mpr heq)
      rw [scope_bind_of_ne name value hown, scope_bind_of_ne name value' hown']
      exact hscope

/-- Entering scopes that are alike relates their handles. The relation is widened by them at
most. -/
theorem enter {outer outer' : Env} {scope scope' : Scope} (halike : store.Alike same store')
    (hordered : Ordered same') (hsame : ∀ env env', same env env' → same' env env')
    (hnew : same' ⟨store.scopes.size⟩ ⟨store'.scopes.size⟩)
    (hold : ∀ env env', same' env env' → env.scope ≠ store.scopes.size → same env env')
    (houter : same outer outer') (hscope : scope.Alike same scope') :
    (store.enter (some outer) scope).2.Alike same' (store'.enter (some outer') scope').2 where
  ordered := hordered
  inUse := by
    intro env env' henv
    have hlt := hordered henv hnew
    have heq := hordered.scope_eq_iff henv hnew
    rw [store.size_enter, store'.size_enter, Nat.lt_succ_iff_lt_or_eq, Nat.lt_succ_iff_lt_or_eq,
      hlt, heq]
  scope := by
    intro env env' henv
    have heq := hordered.scope_eq_iff henv hnew
    by_cases hown : env.scope = store.scopes.size
    · rw [hown, heq.mp hown, scope_enter_self, scope_enter_self]
      exact ⟨.some (hsame _ _ houter), (hscope.mono hsame).bindings⟩
    · rw [scope_enter_of_ne _ _ hown, scope_enter_of_ne _ _ fun hown' => hown (heq.mpr hown')]
      exact (halike.scope (hold env env' henv hown)).mono hsame

end Store.Alike

end MonkeyLang
