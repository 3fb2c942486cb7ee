import MonkeyLang.Proofs.Eval.Preservation
import MonkeyLang.Proofs.Scope.Region

/-!
# Quoted code has no calls of `unquote` in it

Quotation evaluates every call of `unquote` and puts code in its place. The code is not walked
again, so what is quoted is free of such calls only if the code that is put in is, which stems from
earlier quotations. This is an invariant of evaluation in a region of scopes that bind such
quotations alone: read `evaluates_unquoteFree`.
-/

namespace MonkeyLang

/-- Whether no expression in a tree calls `unquote`. -/
def Expr.UnquoteFree (expr : Expr) : Prop :=
  expr.Everywhere fun inner => inner.calledName? ≠ some "unquote"

namespace Value

/-- Whether no code that is quoted at any depth in a value calls `unquote`. -/
def UnquoteFree (value : Value) : Prop :=
  ∀ expr, (quote expr).PartOf value → expr.UnquoteFree

/-- Atoms quote nothing. -/
theorem IsAtom.unquoteFree {value : Value} (hatom : value.IsAtom) : value.UnquoteFree := by
  intro expr hpart
  cases hpart <;> exact hatom.elim

/-- An error quotes nothing. -/
theorem unquoteFree_error (message : String) : (error message).UnquoteFree :=
  fun _ hpart => nomatch hpart

/-- A function contains code that is not quoted. -/
theorem unquoteFree_function (params : List String) (body : Block) (env : Env) :
    (function params body env).UnquoteFree :=
  fun _ hpart => nomatch hpart

/-- A macro contains code that is not quoted. -/
theorem unquoteFree_macroFn (params : List String) (body : Block) (env : Env) :
    (macroFn params body env).UnquoteFree :=
  fun _ hpart => nomatch hpart

/-- A quotation is judged by its code. -/
theorem unquoteFree_quote {expr : Expr} : (quote expr).UnquoteFree ↔ expr.UnquoteFree := by
  constructor
  · intro hfree
    exact hfree expr .self
  · intro hexpr other hpart
    cases hpart
    exact hexpr

/-- An array is judged by its elements. -/
theorem unquoteFree_array {elements : List Value} :
    (array elements).UnquoteFree ↔ ∀ element ∈ elements, element.UnquoteFree := by
  constructor
  · intro hfree element hmem expr hpart
    exact hfree expr (.element hmem hpart)
  · intro hfree expr hpart
    cases hpart with
    | element hmem hpart => exact hfree _ hmem expr hpart

/-- A hash is judged by its keys and values. -/
theorem unquoteFree_hash {entries : List (Entry Value)} :
    (hash entries).UnquoteFree ↔
      ∀ entry ∈ entries, entry.key.UnquoteFree ∧ entry.value.UnquoteFree := by
  constructor
  · intro hfree entry hmem
    exact ⟨fun expr hpart => hfree expr (.key hmem hpart),
      fun expr hpart => hfree expr (.value hmem hpart)⟩
  · intro hfree expr hpart
    cases hpart with
    | key hmem hpart => exact (hfree _ hmem).1 expr hpart
    | value hmem hpart => exact (hfree _ hmem).2 expr hpart

/-- A value without calls of `unquote` is reified as code without them. -/
theorem UnquoteFree.reify {value : Value} {expr : Expr} (hfree : value.UnquoteFree)
    (hreify : value.reify = .ok expr) : expr.UnquoteFree := by
  cases value with
  | int value =>
      cases hreify
      exact .int nofun
  | bool value =>
      cases hreify
      exact .bool nofun
  | quote code =>
      cases hreify
      exact hfree _ .self
  | null | str | array | hash | function | builtin | returned | error | macroFn => cases hreify

end Value

/-- The invariant of evaluation in a region of scopes in which nothing quoted calls `unquote`. -/
def unquoteFree : Invariant where
  World := ScopeId → Prop
  grows region region' := ∀ id, region id → region' id
  env region env := region env.scope
  closure region env := region env.scope
  value region value := value.Belongs Value.UnquoteFree region
  store region store := store.Region Value.UnquoteFree region

/-- Code in a region meets and makes only what belongs to the region. -/
theorem lawful_unquoteFree : unquoteFree.Lawful where
  grows_refl _ _ hid := hid
  grows_trans hfirst hsecond id hid := hsecond id (hfirst id hid)
  env_mono hgrows henv := hgrows _ henv
  value_mono hgrows hvalue := Value.Belongs.mono hvalue hgrows
  closure_of_env henv := henv
  value_atom hatom := ⟨hatom.capturesOnly, hatom.unquoteFree⟩
  value_array := by
    intro region elements
    constructor
    · rintro ⟨hcaptured, hfree⟩ element hmem
      exact ⟨Value.capturesOnly_array.mp hcaptured element hmem,
        Value.unquoteFree_array.mp hfree element hmem⟩
    · intro helements
      exact ⟨Value.capturesOnly_array.mpr fun element hmem => (helements element hmem).captured,
        Value.unquoteFree_array.mpr fun element hmem => (helements element hmem).isGood⟩
  value_hash := by
    intro region entries
    constructor
    · rintro ⟨hcaptured, hfree⟩ entry hmem
      have hcaptured' := Value.capturesOnly_hash.mp hcaptured entry hmem
      have hfree' := Value.unquoteFree_hash.mp hfree entry hmem
      exact ⟨⟨hcaptured'.1, hfree'.1⟩, ⟨hcaptured'.2, hfree'.2⟩⟩
    · intro hentries
      exact ⟨Value.capturesOnly_hash.mpr fun entry hmem =>
          ⟨(hentries entry hmem).1.captured, (hentries entry hmem).2.captured⟩,
        Value.unquoteFree_hash.mpr fun entry hmem =>
          ⟨(hentries entry hmem).1.isGood, (hentries entry hmem).2.isGood⟩⟩
  value_function := by
    intro region params body env
    exact ⟨fun hvalue => Value.capturesOnly_function.mp hvalue.captured, fun henv =>
      ⟨Value.capturesOnly_function.mpr henv, Value.unquoteFree_function params body env⟩⟩
  value_macroFn := by
    intro region params body env
    exact ⟨fun hvalue => Value.capturesOnly_macroFn.mp hvalue.captured, fun henv =>
      ⟨Value.capturesOnly_macroFn.mpr henv, Value.unquoteFree_macroFn params body env⟩⟩
  value_lookup hregion henv hlookup := Store.Region.find? hregion henv hlookup
  store_bind name hregion _ hvalue := Store.Region.bind hregion _ name hvalue
  store_enter := by
    intro region store outer params args scope hregion houter hargs hscope
    have hbindings : ∀ binding ∈ scope.bindings, binding.2.Belongs Value.UnquoteFree region := by
      intro binding hmem
      exact hargs binding.2 (Scope.mem_of_mem_bindings_ofArgs hscope hmem)
    exact ⟨fun id => region id ∨ id = store.scopes.size, fun _ => Or.inl, Or.inr rfl,
      Store.Region.enter hregion houter hbindings⟩

/-- Quotation leaves an expression alone that does not call `unquote`. -/
theorem unquote_of_calledName?_ne {expr : Expr} (hexpr : expr.calledName? ≠ some "unquote")
    (evaluate : Evaluator) (env : Env) (machine : Machine) :
    unquote evaluate env expr machine = .done expr machine := by
  unfold unquote
  split
  · next callee args =>
      have hcallee : callee.name? ≠ some "unquote" := hexpr
      rw [if_neg hcallee]
      rfl
  · rfl

/-- Quotation results in code without calls of `unquote`. A call is replaced by code that stems from
a value of the region. An expression that is no call of `unquote` after its inside was walked stays,
and that includes a call whose callee became the name only then. -/
theorem quotes_unquoteFree : unquoteFree.Quotes := by
  intro evaluate heval region env args henv
  have hlawful := lawful_unquoteFree
  unfold quoteArgs
  split
  · next arg =>
      have hvisit : ∀ expr : Expr,
          expr.Inside (fun inner => inner.calledName? ≠ some "unquote") →
          unquoteFree.ResultsFrom region unquoteFree.value Expr.UnquoteFree
            (unquote evaluate env expr) := by
        intro expr hinside region' hgrows
        unfold unquote
        split
        · next callee args =>
            split
            · split
              · next arg =>
                  refine Invariant.runs_bind hlawful (heval arg (hgrows _ henv))
                    fun region'' value _ hvalue => ?_
                  exact Invariant.runs_ofExcept hlawful fun code hreify =>
                    hvalue.isGood.reify hreify
              · exact Invariant.runs_fail hlawful _
            · next hcallee => exact Invariant.runs_pure hlawful (hinside.everywhere hcallee)
        · next hcall =>
            refine Invariant.runs_pure hlawful (hinside.everywhere ?_)
            cases expr with
            | call callee args => exact absurd rfl (hcall callee args)
            | _ => nofun
      have hwalk := Expr.transformM_everywhere
        (Invariant.building_resultsFrom hlawful region unquoteFree.value) hvisit arg
      refine Invariant.runs_bind hlawful (hwalk region fun _ hid => hid)
        fun region' code _ hcode => ?_
      exact Invariant.runs_pure hlawful
        ⟨Value.capturesOnly_quote code, Value.unquoteFree_quote.mpr hcode⟩
  · exact Invariant.runs_fail hlawful _

/-- Evaluation in a region of scopes that bind nothing quoted with a call of `unquote` in it results
in values of that kind, and binds nothing else in the region. -/
theorem evaluates_unquoteFree (depth : Nat) : unquoteFree.Evaluates (eval depth) :=
  Invariant.evaluates_eval lawful_unquoteFree quotes_unquoteFree depth

/-- A program evaluated in a region leaves a region that may be larger, and its value quotes nothing
with a call of `unquote` in it. -/
theorem evalProgram_unquoteFree {depth : Nat} {env : Env} {program : Program}
    {machine final : Machine} {result : Option Value} {region : ScopeId → Prop}
    (hregion : machine.store.Region Value.UnquoteFree region) (henv : region env.scope)
    (hprogram : evalProgram depth env program machine = some (result, final)) :
    (∃ region' : ScopeId → Prop, region' env.scope ∧
      final.store.Region Value.UnquoteFree region') ∧
    ∀ value, result = some value → value.UnquoteFree := by
  have hruns : unquoteFree.Runs region unquoteFree.optional unquoteFree.value
      (evalStmts (eval depth) env none program) :=
    Invariant.runs_evalStmts lawful_unquoteFree (evaluates_unquoteFree depth) program henv
      Invariant.optional_none
  have hends := hruns machine hregion
  unfold evalProgram at hprogram
  cases hout : evalStmts (eval depth) env none program machine with
  | tooDeep =>
      rw [hout] at hprogram
      cases hprogram
  | done value final' =>
      rw [hout] at hprogram hends
      cases hprogram
      obtain ⟨region', hgrows, hvalue, hregion'⟩ := hends
      exact ⟨⟨region', hgrows _ henv, hregion'⟩, fun value hsome => (hvalue value hsome).isGood⟩
  | stopped interrupt final' =>
      rw [hout] at hprogram hends
      obtain ⟨region', hgrows, hstops, hregion'⟩ := hends
      cases interrupt with
      | fault cause =>
          cases hprogram
          refine ⟨⟨region', hgrows _ henv, hregion'⟩, fun value hsome => ?_⟩
          cases hsome
          exact Value.unquoteFree_error cause.message
      | returned value =>
          cases hprogram
          refine ⟨⟨region', hgrows _ henv, hregion'⟩, fun other hsome => ?_⟩
          cases hsome
          exact Value.Belongs.isGood hstops

end MonkeyLang
