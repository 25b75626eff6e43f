import Reifier.Proofs.TypeExpr.Components

/-!
# How a counterpart is built

If a type has a counterpart, this is built from the counterparts of its components, as far as they
are types (`TypeExpr.build`). They are made without a display name, so they are the same whatever
name is asked for, and only what is put around them can take one (`TypeExpr.isBuilt_of_reify`).
-/

namespace Reifier.TypeExpr

variable {ctx : TypeContext} {t : TypeExpr} {lib : Library} {name : Option String} {e : Expr}
  {span : Span}

/-! ### One form around its components -/

/-- The entries of an interface, from the counterparts of the values of its properties. -/
def entries (lib : Library) (properties : List (Property TypeExpr)) (es : List Expr) :
    List (String × Expr) :=
  List.zipWith (fun p e => (p.key.name, if p.optional then lib.maybe e none else e)) properties es

/-- What a reference of a certain name becomes. -/
def buildReferent (lib : Library) (q : QualifiedName) (es : List Expr) (name : Option String) :
    Referent → Expr
  | .any => lib.primitive .any
  | .list _ => lib.call .list es name
  | .primitive primitive => lib.primitive primitive
  | .strict properties => lib.interface (entries lib properties es) name true
  | .bound => q.toExpr
  | .malformed _ => lib.empty

/-- What an object type becomes. -/
def buildObject (lib : Library) (type : ObjectType TypeExpr) (es : List Expr)
    (name : Option String) : Expr :=
  match type.indexers with
  | [_] => lib.call .dict es name
  | _ => lib.interface (entries lib type.properties es) name type.exact

/-- What a union becomes that is one of nothing but the strings `literals?`, if they are given. -/
def buildUnion (lib : Library) (literals? : Option (List String)) (es : List Expr)
    (name : Option String) : Expr :=
  match literals? with
  | some values => lib.enums values name
  | none => lib.union es name

/-- What the types of an intersection become before they are refined. -/
def buildBase (lib : Library) (es : List Expr) (name : Option String) : Expr :=
  match es with
  | [single] => single
  | _ => lib.intersection es name

/-- An expression refined by predicates, one after the other. -/
def refineAll (lib : Library) (name : Option String) (base : Expr) (ps : List Expr) : Expr :=
  ps.foldl (fun base p => lib.refinement base p name) base

/-- The predicates of an intersection. -/
def predicates (ctx : TypeContext) (members : List TypeExpr) : List Expr :=
  (members.filterMap (predicateTarget? ctx)).map QualifiedName.toExpr

/-- What a type becomes, from the counterparts `es` of its components. What it is for a type that is
refused does not matter, and is the type without values. -/
def build (ctx : TypeContext) (t : TypeExpr) (es : List Expr) (name : Option String) : Expr :=
  match t.shape with
  | .keyword word => (reifyKeyword ctx.library word t.span).toOption.getD ctx.library.empty
  | .function .. => ctx.library.primitive .function
  | .typeOf _ => ctx.library.primitive .any
  | .array _ => ctx.library.call .list es name
  | .nullable _ => ctx.library.call .maybe es name
  | .tuple _ => ctx.library.tuple es name
  | .union members => buildUnion ctx.library (literals? members) es name
  | .intersection members =>
    refineAll ctx.library name (buildBase ctx.library es name) (predicates ctx members)
  | .object type => buildObject ctx.library type es name
  | .generic g => buildReferent ctx.library g.name es name (ctx.referent g)
  | .string value => ctx.library.enums [value] name
  | .number spelling => ctx.library.literal .number "n" (.number spelling)
  | .boolean value => ctx.library.literal .boolean "b" (.bool value)
  | .bigInt _ => ctx.library.empty
  | .indexedAccess .. => ctx.library.empty

/-! ### Counterparts of components -/

/-- Expressions are the counterparts of type expressions, made without a display name. -/
def Counterparts (ctx : TypeContext) : List TypeExpr → List Expr → Prop :=
  List.Forall₂ fun t e => reify ctx t none = .ok e

private theorem counterparts_of_reifyAll {ts : List TypeExpr} {es : List Expr}
    (h : reifyAll ctx ts = .ok es) : Counterparts ctx ts es := by
  rw [reifyAll_eq_mapM, mapM_eq_ok_iff] at h
  exact h

/-- Properties become entries, one for each, from the counterparts of their types. -/
theorem exists_of_reifyProperties {properties : List (Property TypeExpr)}
    {all : List (String × Expr)} (h : reifyProperties ctx properties = .ok all) :
    ∃ es, Counterparts ctx (properties.map Property.value) es ∧
      all = entries ctx.library properties es := by
  rw [reifyProperties_eq_mapM, mapM_eq_ok_iff] at h
  induction h with
  | nil => exact ⟨[], .nil, rfl⟩
  | @cons p entry properties all hp _ ih =>
    obtain ⟨es, hes, rfl⟩ := ih
    rw [reifyProperty, map_eq_pure_bind] at hp
    obtain ⟨e, he, hentry⟩ := exists_of_bind_eq_ok hp
    cases hentry
    exact ⟨e :: es, .cons he hes, rfl⟩

/-- The counterparts of its components are all that a type is built from, with whatever display
name. -/
def IsBuilt (ctx : TypeContext) (t : TypeExpr) : Prop :=
  ∃ es, Counterparts ctx (t.typeComponents ctx) es ∧
    ∀ name, reify ctx t name = .ok (t.build ctx es name)

/-- A union is built from its members, or from nothing if they are all strings. -/
private theorem isBuilt_union {members : List TypeExpr}
    (h : reify ctx ⟨.union members, span⟩ name = .ok e) : IsBuilt ctx ⟨.union members, span⟩ := by
  have hcomponents : typeComponents ctx ⟨.union members, span⟩ =
      components ctx ⟨.union members, span⟩ := rfl
  rw [reify] at h
  unfold IsBuilt
  rw [hcomponents]
  simp only [reify, build]
  cases hliterals : literals? members with
  | some values =>
    refine ⟨[], ?_, fun name => rfl⟩
    unfold components
    dsimp only
    rw [hliterals]
    exact .nil
  | none =>
    rw [hliterals] at h
    obtain ⟨es, hes, -⟩ := exists_of_bind_eq_ok h
    rw [components_union hliterals, hes]
    exact ⟨es, counterparts_of_reifyAll hes, fun name => rfl⟩

/-- Members can be merged with any name if they can be merged with one. -/
private theorem merge_eq_ok {ms : List Member} (h : merge lib ms name span = .ok e)
    (other : Option String) :
    merge lib ms other span =
      .ok (refineAll lib other (buildBase lib (Member.types ms) other) (Member.predicates ms)) := by
  unfold merge at h ⊢
  match htypes : Member.types ms with
  | [] =>
    rw [htypes] at h
    cases h
  | [single] => rfl
  | _ :: _ :: _ => rfl

/-- An intersection is built from the members that are no predicates. -/
private theorem isBuilt_intersection {members : List TypeExpr}
    (h : reify ctx ⟨.intersection members, span⟩ name = .ok e) :
    IsBuilt ctx ⟨.intersection members, span⟩ := by
  rw [reify] at h
  obtain ⟨ms, hms, h⟩ := exists_of_bind_eq_ok h
  refine ⟨Member.types ms, forall₂_types hms, fun other => ?_⟩
  have hpredicates : predicates ctx members = Member.predicates ms := (predicates_eq hms).symm
  rw [reify, hms, build]
  dsimp only
  rw [hpredicates]
  exact merge_eq_ok h other

/-- An interface is built from the counterparts of the values of its properties. -/
private theorem exists_of_interface {properties : List (Property TypeExpr)} {strict : Bool}
    (h : (ctx.library.interface · name strict) <$> reifyProperties ctx properties = .ok e) :
    ∃ es, Counterparts ctx (properties.map Property.value) es ∧ ∀ other,
      (ctx.library.interface · other strict) <$> reifyProperties ctx properties =
        .ok (ctx.library.interface (entries ctx.library properties es) other strict) := by
  rw [map_eq_pure_bind] at h
  obtain ⟨all, hall, -⟩ := exists_of_bind_eq_ok h
  obtain ⟨es, hes, rfl⟩ := exists_of_reifyProperties hall
  refine ⟨es, hes, fun other => ?_⟩
  rw [hall]
  rfl

/-- An object type is built from the types of its indexer, or of its properties. -/
private theorem isBuilt_object {type : ObjectType TypeExpr}
    (h : reifyObject ctx type name = .ok e) : IsBuilt ctx ⟨.object type, span⟩ := by
  obtain ⟨properties, _ | ⟨i, _ | _⟩, strict⟩ := type
  · rw [reifyObject_eq] at h
    obtain ⟨es, hes, hinterface⟩ := exists_of_interface h
    refine ⟨es, hes, fun other => ?_⟩
    rw [reify, reifyObject_eq]
    exact hinterface other
  · rw [reifyObject_eq] at h
    obtain ⟨domain, hdomain, h⟩ := exists_of_bind_eq_ok h
    obtain ⟨codomain, hcodomain, -⟩ := exists_of_bind_eq_ok h
    refine ⟨[domain, codomain], .cons hdomain (.cons hcodomain .nil), fun other => ?_⟩
    rw [reify, reifyObject_eq]
    dsimp only
    rw [hdomain, hcodomain]
    rfl
  · rw [reifyObject_eq] at h
    obtain ⟨es, hes, hinterface⟩ := exists_of_interface h
    refine ⟨es, hes, fun other => ?_⟩
    rw [reify, reifyObject_eq]
    exact hinterface other

/-- A reference is built from its arguments. The cases are those of what the name refers to. -/
private theorem isBuilt_generic {g : Generic TypeExpr} (h : reifyGeneric ctx g span name = .ok e) :
    IsBuilt ctx ⟨.generic g, span⟩ := by
  have hcomponents : typeComponents ctx ⟨.generic g, span⟩ =
      components ctx ⟨.generic g, span⟩ := rfl
  rw [reifyGeneric_eq_referent] at h
  unfold IsBuilt
  rw [hcomponents]
  simp only [reify, reifyGeneric_eq_referent, build]
  cases hreferent : ctx.referent g with
  | list element =>
    rw [hreferent] at h
    dsimp only at h ⊢
    rw [map_eq_pure_bind] at h
    obtain ⟨d, hd, -⟩ := exists_of_bind_eq_ok h
    rw [components_list hreferent, hd]
    exact ⟨[d], .cons hd .nil, fun other => rfl⟩
  | strict properties =>
    rw [hreferent] at h
    rw [components_strict hreferent]
    exact exists_of_interface h
  | malformed problem =>
    rw [hreferent] at h
    cases h
  | any => exact ⟨[], by simp [components, hreferent, Counterparts], fun other => rfl⟩
  | primitive p => exact ⟨[], by simp [components, hreferent, Counterparts], fun other => rfl⟩
  | bound => exact ⟨[], by simp [components, hreferent, Counterparts], fun other => rfl⟩

/-- **A type that has a counterpart is built from the counterparts of its components.** -/
theorem isBuilt_of_reify (h : reify ctx t name = .ok e) : IsBuilt ctx t := by
  obtain ⟨shape, span⟩ := t
  cases shape with
  | keyword word =>
    cases word with
    | symbol => cases h
    | _ => exact ⟨[], .nil, fun _ => rfl⟩
  | array element =>
    rw [reify] at h
    obtain ⟨d, hd, -⟩ := exists_of_bind_eq_ok h
    refine ⟨[d], .cons hd .nil, fun other => ?_⟩
    rw [reify, hd]
    rfl
  | nullable inner =>
    rw [reify] at h
    obtain ⟨d, hd, -⟩ := exists_of_bind_eq_ok h
    refine ⟨[d], .cons hd .nil, fun other => ?_⟩
    rw [reify, hd]
    rfl
  | tuple items =>
    rw [reify] at h
    obtain ⟨es, hes, -⟩ := exists_of_bind_eq_ok h
    refine ⟨es, counterparts_of_reifyAll hes, fun other => ?_⟩
    rw [reify, hes]
    rfl
  | union members => exact isBuilt_union h
  | intersection members => exact isBuilt_intersection h
  | object type =>
    rw [reify] at h
    exact isBuilt_object h
  | generic g =>
    rw [reify] at h
    exact isBuilt_generic h
  | bigInt spelling => cases h
  | indexedAccess base index => cases h
  | _ => exact ⟨[], .nil, fun _ => rfl⟩

end Reifier.TypeExpr
