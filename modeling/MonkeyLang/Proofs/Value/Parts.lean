import MonkeyLang.Value.Basic

/-!
# What values contain and remember

A value contains other values at any depth (`Value.PartOf`). The functions and macros among them
remember environments, and those are all the handles on scopes that a value holds
(`Value.Captures`).
-/

namespace MonkeyLang

/-- The values that a value contains at any depth, itself included. -/
inductive Value.PartOf (part : Value) : Value → Prop where
  | self : PartOf part part
  | element {elements : List Value} {element : Value} :
      element ∈ elements → PartOf part element → PartOf part (.array elements)
  | key {entries : List (Entry Value)} {entry : Entry Value} :
      entry ∈ entries → PartOf part entry.key → PartOf part (.hash entries)
  | value {entries : List (Entry Value)} {entry : Entry Value} :
      entry ∈ entries → PartOf part entry.value → PartOf part (.hash entries)
  | content {value : Value} : PartOf part value → PartOf part (.returned value)

namespace Value

/-- Whether a value neither contains other values nor remembers anything. -/
def IsAtom : Value → Prop
  | int _ | bool _ | null | str _ | builtin _ => True
  | _ => False

/-- Whether a value is or contains a function or macro that remembers the environment. -/
def Captures (value : Value) (env : Env) : Prop :=
  ∃ params body, (function params body env).PartOf value ∨ (macroFn params body env).PartOf value

/-- Whether all environments that a value remembers are good. -/
def CapturesOnly (value : Value) (good : Env → Prop) : Prop :=
  ∀ env, value.Captures env → good env

variable {good good' : Env → Prop}

/-- Allowing more environments. -/
theorem CapturesOnly.mono {value : Value} (honly : value.CapturesOnly good)
    (hgood : ∀ env, good env → good' env) : value.CapturesOnly good' :=
  fun env hcaptures => hgood env (honly env hcaptures)

/-- An atom remembers nothing. -/
theorem IsAtom.capturesOnly {value : Value} (hatom : value.IsAtom) : value.CapturesOnly good := by
  rintro env ⟨params, body, hpart | hpart⟩ <;> cases hpart <;> exact hatom.elim

/-- Quoted code remembers nothing. -/
theorem capturesOnly_quote (expr : Expr) : (quote expr).CapturesOnly good := by
  rintro env ⟨params, body, hpart | hpart⟩ <;> cases hpart

/-- A function remembers its environment alone. -/
theorem capturesOnly_function {params : List String} {body : Block} {env : Env} :
    (function params body env).CapturesOnly good ↔ good env := by
  constructor
  · intro honly
    exact honly env ⟨params, body, Or.inl .self⟩
  · rintro hgood other ⟨params', body', hpart | hpart⟩
    · cases hpart
      exact hgood
    · cases hpart

/-- A macro remembers its environment alone. -/
theorem capturesOnly_macroFn {params : List String} {body : Block} {env : Env} :
    (macroFn params body env).CapturesOnly good ↔ good env := by
  constructor
  · intro honly
    exact honly env ⟨params, body, Or.inr .self⟩
  · rintro hgood other ⟨params', body', hpart | hpart⟩
    · cases hpart
    · cases hpart
      exact hgood

/-- A return remembers what its value remembers. -/
theorem capturesOnly_returned {value : Value} :
    (returned value).CapturesOnly good ↔ value.CapturesOnly good := by
  constructor
  · rintro honly env ⟨params, body, hpart⟩
    exact honly env ⟨params, body, hpart.imp .content .content⟩
  · rintro honly env ⟨params, body, hpart | hpart⟩
    · cases hpart with
      | content hpart => exact honly env ⟨params, body, Or.inl hpart⟩
    · cases hpart with
      | content hpart => exact honly env ⟨params, body, Or.inr hpart⟩

/-- An array remembers what its elements remember. -/
theorem capturesOnly_array {elements : List Value} :
    (array elements).CapturesOnly good ↔ ∀ element ∈ elements, element.CapturesOnly good := by
  constructor
  · rintro honly element hmem env ⟨params, body, hpart⟩
    exact honly env ⟨params, body, hpart.imp (.element hmem) (.element hmem)⟩
  · rintro honly env ⟨params, body, hpart | hpart⟩
    · cases hpart with
      | element hmem hpart => exact honly _ hmem env ⟨params, body, Or.inl hpart⟩
    · cases hpart with
      | element hmem hpart => exact honly _ hmem env ⟨params, body, Or.inr hpart⟩

/-- A hash remembers what its keys and values remember. -/
theorem capturesOnly_hash {entries : List (Entry Value)} :
    (hash entries).CapturesOnly good ↔
      ∀ entry ∈ entries, entry.key.CapturesOnly good ∧ entry.value.CapturesOnly good := by
  constructor
  · intro honly entry hmem
    refine ⟨?_, ?_⟩
    · rintro env ⟨params, body, hpart⟩
      exact honly env ⟨params, body, hpart.imp (.key hmem) (.key hmem)⟩
    · rintro env ⟨params, body, hpart⟩
      exact honly env ⟨params, body, hpart.imp (.value hmem) (.value hmem)⟩
  · rintro honly env ⟨params, body, hpart | hpart⟩
    · cases hpart with
      | key hmem hpart => exact (honly _ hmem).1 env ⟨params, body, Or.inl hpart⟩
      | value hmem hpart => exact (honly _ hmem).2 env ⟨params, body, Or.inl hpart⟩
    · cases hpart with
      | key hmem hpart => exact (honly _ hmem).1 env ⟨params, body, Or.inr hpart⟩
      | value hmem hpart => exact (honly _ hmem).2 env ⟨params, body, Or.inr hpart⟩

/-- Whether a value neither is nor contains a function or a macro. -/
def CodeFree (value : Value) : Prop :=
  ∀ part : Value, part.PartOf value → part.kind ≠ .function ∧ part.kind ≠ .macroFn

/-- A value without functions and macros remembers nothing. -/
theorem CodeFree.capturesOnly {value : Value} (hfree : value.CodeFree) :
    value.CapturesOnly good := by
  rintro env ⟨params, body, hpart | hpart⟩
  · exact absurd rfl (hfree _ hpart).1
  · exact absurd rfl (hfree _ hpart).2

end Value

end MonkeyLang
