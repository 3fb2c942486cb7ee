import MonkeyLang.Expr.Basic

/-!
# Properties of everything in a tree

`Expr.All onExpr onBlock` says of a tree that every expression in it and every list of statements in
it has a property, at any depth. An induction over it is an induction over the tree.
-/

namespace MonkeyLang

/-- The expression of a statement. -/
def Stmt.value : Stmt → Expr
  | .bind _ value | .ret value | .expr value => value

/-- Every expression in a tree, itself included, has the property `onExpr`, and every list of
statements in it has the property `onBlock`. -/
inductive Expr.All (onExpr : Expr → Prop) (onBlock : Block → Prop) : Expr → Prop where
  | ident {name : String} : onExpr (.ident name) → All onExpr onBlock (.ident name)
  | int {value : Int64} : onExpr (.int value) → All onExpr onBlock (.int value)
  | bool {value : Bool} : onExpr (.bool value) → All onExpr onBlock (.bool value)
  | str {text : String} : onExpr (.str text) → All onExpr onBlock (.str text)
  | unary {op : UnaryOp} {operand : Expr} :
      onExpr (.unary op operand) → All onExpr onBlock operand →
      All onExpr onBlock (.unary op operand)
  | binary {left right : Expr} {op : BinaryOp} :
      onExpr (.binary left op right) → All onExpr onBlock left → All onExpr onBlock right →
      All onExpr onBlock (.binary left op right)
  | cond {condition : Expr} {consequence : Block} :
      onExpr (.cond condition consequence none) → All onExpr onBlock condition →
      onBlock consequence → (∀ statement ∈ consequence, All onExpr onBlock statement.value) →
      All onExpr onBlock (.cond condition consequence none)
  | condElse {condition : Expr} {consequence alternative : Block} :
      onExpr (.cond condition consequence (some alternative)) → All onExpr onBlock condition →
      onBlock consequence → (∀ statement ∈ consequence, All onExpr onBlock statement.value) →
      onBlock alternative → (∀ statement ∈ alternative, All onExpr onBlock statement.value) →
      All onExpr onBlock (.cond condition consequence (some alternative))
  | function {params : List String} {body : Block} :
      onExpr (.function params body) → onBlock body →
      (∀ statement ∈ body, All onExpr onBlock statement.value) →
      All onExpr onBlock (.function params body)
  | macroLit {params : List String} {body : Block} :
      onExpr (.macroLit params body) → onBlock body →
      (∀ statement ∈ body, All onExpr onBlock statement.value) →
      All onExpr onBlock (.macroLit params body)
  | call {callee : Expr} {args : List Expr} :
      onExpr (.call callee args) → All onExpr onBlock callee →
      (∀ arg ∈ args, All onExpr onBlock arg) → All onExpr onBlock (.call callee args)
  | array {elements : List Expr} :
      onExpr (.array elements) → (∀ element ∈ elements, All onExpr onBlock element) →
      All onExpr onBlock (.array elements)
  | hash {pairs : List (Expr × Expr)} :
      onExpr (.hash pairs) → (∀ pair ∈ pairs, All onExpr onBlock pair.1) →
      (∀ pair ∈ pairs, All onExpr onBlock pair.2) → All onExpr onBlock (.hash pairs)
  | index {collection position : Expr} :
      onExpr (.index collection position) → All onExpr onBlock collection →
      All onExpr onBlock position → All onExpr onBlock (.index collection position)

/-- Every expression and every list of statements in a block, itself included, has the property. -/
structure Block.All (onExpr : Expr → Prop) (onBlock : Block → Prop) (block : Block) : Prop where
  own : onBlock block
  values : ∀ statement ∈ block, statement.value.All onExpr onBlock

variable {onExpr onExpr' : Expr → Prop} {onBlock onBlock' : Block → Prop}

/-- A weaker property of everything in a tree. -/
theorem Expr.All.mono {expr : Expr} (hexprs : ∀ expr, onExpr expr → onExpr' expr)
    (hblocks : ∀ block, onBlock block → onBlock' block) (h : expr.All onExpr onBlock) :
    expr.All onExpr' onBlock' := by
  induction h with
  | ident hexpr => exact .ident (hexprs _ hexpr)
  | int hexpr => exact .int (hexprs _ hexpr)
  | bool hexpr => exact .bool (hexprs _ hexpr)
  | str hexpr => exact .str (hexprs _ hexpr)
  | unary hexpr _ ih => exact .unary (hexprs _ hexpr) ih
  | binary hexpr _ _ ihleft ihright => exact .binary (hexprs _ hexpr) ihleft ihright
  | cond hexpr _ hblock _ ihcondition ihbody =>
      exact .cond (hexprs _ hexpr) ihcondition (hblocks _ hblock) ihbody
  | condElse hexpr _ hblock _ helse _ ihcondition ihbody ihelse =>
      exact .condElse (hexprs _ hexpr) ihcondition (hblocks _ hblock) ihbody (hblocks _ helse)
        ihelse
  | function hexpr hblock _ ihbody => exact .function (hexprs _ hexpr) (hblocks _ hblock) ihbody
  | macroLit hexpr hblock _ ihbody => exact .macroLit (hexprs _ hexpr) (hblocks _ hblock) ihbody
  | call hexpr _ _ ihcallee ihargs => exact .call (hexprs _ hexpr) ihcallee ihargs
  | array hexpr _ ihelements => exact .array (hexprs _ hexpr) ihelements
  | hash hexpr _ _ ihkeys ihvalues => exact .hash (hexprs _ hexpr) ihkeys ihvalues
  | index hexpr _ _ ihcollection ihposition =>
      exact .index (hexprs _ hexpr) ihcollection ihposition

/-- A weaker property of everything in a block. -/
theorem Block.All.mono {block : Block} (hexprs : ∀ expr, onExpr expr → onExpr' expr)
    (hblocks : ∀ block, onBlock block → onBlock' block) (h : block.All onExpr onBlock) :
    block.All onExpr' onBlock' where
  own := hblocks block h.own
  values statement hmem := (h.values statement hmem).mono hexprs hblocks

/-- Two properties of everything in a tree are one. -/
theorem Expr.All.and {expr : Expr} (h : expr.All onExpr onBlock)
    (h' : expr.All onExpr' onBlock') :
    expr.All (fun expr => onExpr expr ∧ onExpr' expr)
      fun block => onBlock block ∧ onBlock' block := by
  induction h with
  | ident hexpr =>
      cases h' with
      | ident hexpr' => exact .ident ⟨hexpr, hexpr'⟩
  | int hexpr =>
      cases h' with
      | int hexpr' => exact .int ⟨hexpr, hexpr'⟩
  | bool hexpr =>
      cases h' with
      | bool hexpr' => exact .bool ⟨hexpr, hexpr'⟩
  | str hexpr =>
      cases h' with
      | str hexpr' => exact .str ⟨hexpr, hexpr'⟩
  | unary hexpr _ ih =>
      cases h' with
      | unary hexpr' hoperand' => exact .unary ⟨hexpr, hexpr'⟩ (ih hoperand')
  | binary hexpr _ _ ihleft ihright =>
      cases h' with
      | binary hexpr' hleft' hright' =>
          exact .binary ⟨hexpr, hexpr'⟩ (ihleft hleft') (ihright hright')
  | cond hexpr _ hblock _ ihcondition ihbody =>
      cases h' with
      | cond hexpr' hcondition' hblock' hbody' =>
          exact .cond ⟨hexpr, hexpr'⟩ (ihcondition hcondition') ⟨hblock, hblock'⟩
            fun statement hmem => ihbody statement hmem (hbody' statement hmem)
  | condElse hexpr _ hblock _ helse _ ihcondition ihbody ihelse =>
      cases h' with
      | condElse hexpr' hcondition' hblock' hbody' helse' hothers' =>
          exact .condElse ⟨hexpr, hexpr'⟩ (ihcondition hcondition') ⟨hblock, hblock'⟩
            (fun statement hmem => ihbody statement hmem (hbody' statement hmem)) ⟨helse, helse'⟩
            fun statement hmem => ihelse statement hmem (hothers' statement hmem)
  | function hexpr hblock _ ihbody =>
      cases h' with
      | function hexpr' hblock' hbody' =>
          exact .function ⟨hexpr, hexpr'⟩ ⟨hblock, hblock'⟩
            fun statement hmem => ihbody statement hmem (hbody' statement hmem)
  | macroLit hexpr hblock _ ihbody =>
      cases h' with
      | macroLit hexpr' hblock' hbody' =>
          exact .macroLit ⟨hexpr, hexpr'⟩ ⟨hblock, hblock'⟩
            fun statement hmem => ihbody statement hmem (hbody' statement hmem)
  | call hexpr _ _ ihcallee ihargs =>
      cases h' with
      | call hexpr' hcallee' hargs' =>
          exact .call ⟨hexpr, hexpr'⟩ (ihcallee hcallee')
            fun arg hmem => ihargs arg hmem (hargs' arg hmem)
  | array hexpr _ ihelements =>
      cases h' with
      | array hexpr' helements' =>
          exact .array ⟨hexpr, hexpr'⟩
            fun element hmem => ihelements element hmem (helements' element hmem)
  | hash hexpr _ _ ihkeys ihvalues =>
      cases h' with
      | hash hexpr' hkeys' hvalues' =>
          exact .hash ⟨hexpr, hexpr'⟩ (fun pair hmem => ihkeys pair hmem (hkeys' pair hmem))
            fun pair hmem => ihvalues pair hmem (hvalues' pair hmem)
  | index hexpr _ _ ihcollection ihposition =>
      cases h' with
      | index hexpr' hcollection' hposition' =>
          exact .index ⟨hexpr, hexpr'⟩ (ihcollection hcollection') (ihposition hposition')

/-- Two properties of everything in a block are one. -/
theorem Block.All.and {block : Block} (h : block.All onExpr onBlock)
    (h' : block.All onExpr' onBlock') :
    block.All (fun expr => onExpr expr ∧ onExpr' expr)
      fun block => onBlock block ∧ onBlock' block where
  own := ⟨h.own, h'.own⟩
  values statement hmem := (h.values statement hmem).and (h'.values statement hmem)

end MonkeyLang
