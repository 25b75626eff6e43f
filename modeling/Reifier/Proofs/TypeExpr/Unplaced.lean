import Mathlib.Data.List.Forall2
import Reifier.TypeExpr.Basic

/-!
# Type expressions without places

`t.unplaced` is a type expression that has forgotten where it and its parts stand. Two are the
`Same` if they differ in nothing else, as when one is written anew and read again.
-/

namespace Reifier

/-- An identifier at no place in particular. -/
def Identifier.unplaced (id : Identifier) : Identifier := ⟨id.name, .point 0⟩

/-- A dotted name at no place in particular. -/
def QualifiedName.unplaced (q : QualifiedName) : QualifiedName :=
  ⟨q.head.unplaced, q.tail.map Identifier.unplaced⟩

/-- The key of a property at no place in particular. -/
def PropertyKey.unplaced : PropertyKey → PropertyKey
  | identifier id => .identifier id.unplaced
  | string value => .string value

namespace TypeExpr

mutual

/-- A type expression at no place in particular. -/
def unplaced : TypeExpr → TypeExpr
  | ⟨shape, _⟩ => ⟨unplacedShape shape, .point 0⟩
termination_by structural t => t

/-- A form whose parts are at no place in particular. -/
def unplacedShape : Shape TypeExpr → Shape TypeExpr
  | .keyword word => .keyword word
  | .function params rest result =>
    .function (unplacedParams params) (unplacedRest rest) (unplaced result)
  | .typeOf target => .typeOf target.unplaced
  | .array element => .array (unplaced element)
  | .nullable inner => .nullable (unplaced inner)
  | .tuple items => .tuple (unplacedAll items)
  | .union members => .union (unplacedAll members)
  | .intersection members => .intersection (unplacedAll members)
  | .object ⟨properties, indexers, exact⟩ =>
    .object ⟨unplacedProperties properties, unplacedIndexers indexers, exact⟩
  | .generic ⟨name, none⟩ => .generic ⟨name.unplaced, none⟩
  | .generic ⟨name, some args⟩ => .generic ⟨name.unplaced, some (unplacedAll args)⟩
  | .string value => .string value
  | .number spelling => .number spelling
  | .boolean value => .boolean value
  | .bigInt spelling => .bigInt spelling
  | .indexedAccess object index => .indexedAccess (unplaced object) (unplaced index)
termination_by structural shape => shape

/-- Type expressions at no place in particular. -/
def unplacedAll : List TypeExpr → List TypeExpr
  | [] => []
  | t :: ts => unplaced t :: unplacedAll ts
termination_by structural ts => ts

/-- Parameters at no place in particular. -/
def unplacedParams : List (Param TypeExpr) → List (Param TypeExpr)
  | [] => []
  | ⟨name, type, optional⟩ :: ps =>
    ⟨name.map Identifier.unplaced, unplaced type, optional⟩ :: unplacedParams ps
termination_by structural ps => ps

/-- A rest parameter at no place in particular. -/
def unplacedRest : Option (Param TypeExpr) → Option (Param TypeExpr)
  | none => none
  | some ⟨name, type, optional⟩ =>
    some ⟨name.map Identifier.unplaced, unplaced type, optional⟩
termination_by structural rest => rest

/-- Properties at no place in particular. -/
def unplacedProperties : List (Property TypeExpr) → List (Property TypeExpr)
  | [] => []
  | ⟨key, value, optional, _⟩ :: ps =>
    ⟨key.unplaced, unplaced value, optional, .point 0⟩ :: unplacedProperties ps
termination_by structural ps => ps

/-- Indexers at no place in particular. -/
def unplacedIndexers : List (Indexer TypeExpr) → List (Indexer TypeExpr)
  | [] => []
  | ⟨id, key, value, _⟩ :: is =>
    ⟨id.map Identifier.unplaced, unplaced key, unplaced value, .point 0⟩ :: unplacedIndexers is
termination_by structural is => is

end

/-- A parameter at no place in particular. -/
def unplacedParam (p : Param TypeExpr) : Param TypeExpr :=
  ⟨p.name.map Identifier.unplaced, p.type.unplaced, p.optional⟩

/-- A property at no place in particular. -/
def unplacedProperty (p : Property TypeExpr) : Property TypeExpr :=
  ⟨p.key.unplaced, p.value.unplaced, p.optional, .point 0⟩

/-- An indexer at no place in particular. -/
def unplacedIndexer (i : Indexer TypeExpr) : Indexer TypeExpr :=
  ⟨i.id.map Identifier.unplaced, i.key.unplaced, i.value.unplaced, .point 0⟩

/-- An object type whose members are at no place in particular. -/
def unplacedObject (type : ObjectType TypeExpr) : ObjectType TypeExpr :=
  ⟨type.properties.map unplacedProperty, type.indexers.map unplacedIndexer, type.exact⟩

/-- A reference to a type that is at no place in particular. -/
def unplacedGeneric (g : Generic TypeExpr) : Generic TypeExpr :=
  ⟨g.name.unplaced, g.args?.map (List.map unplaced)⟩

/-- Places are left out of a list one by one. -/
theorem unplacedAll_eq_map (ts : List TypeExpr) : unplacedAll ts = ts.map unplaced := by
  induction ts with
  | nil => rfl
  | cons t ts ih => rw [unplacedAll, ih, List.map_cons]

theorem unplacedParams_eq_map (ps : List (Param TypeExpr)) :
    unplacedParams ps = ps.map unplacedParam := by
  induction ps with
  | nil => rfl
  | cons p ps ih =>
    rw [unplacedParams, ih]
    rfl

theorem unplacedRest_eq_map (rest : Option (Param TypeExpr)) :
    unplacedRest rest = rest.map unplacedParam := by
  cases rest with
  | none => rfl
  | some p => rfl

theorem unplacedShape_generic (g : Generic TypeExpr) :
    unplacedShape (.generic g) = .generic (unplacedGeneric g) := by
  obtain ⟨name, _ | args⟩ := g
  · rfl
  · rw [unplacedShape, unplacedAll_eq_map]
    rfl

/-- Places are left out of an object type member by member. -/
private theorem unplacedShape_object (type : ObjectType TypeExpr) :
    unplacedShape (.object type) = .object (unplacedObject type) := by
  obtain ⟨properties, indexers, bars⟩ := type
  have hproperties : unplacedProperties properties = properties.map unplacedProperty := by
    induction properties with
    | nil => rfl
    | cons p ps ih =>
      rw [unplacedProperties, ih]
      rfl
  have hindexers : unplacedIndexers indexers = indexers.map unplacedIndexer := by
    induction indexers with
    | nil => rfl
    | cons i is ih =>
      rw [unplacedIndexers, ih]
      rfl
  rw [unplacedShape, hproperties, hindexers, unplacedObject]

/-! ### Same but for places -/

/-- Two type expressions differ in places at most. -/
def Same (t a : TypeExpr) : Prop := a.unplaced = t.unplaced

/-- Two forms differ in the places of their parts at most. -/
def SameShape (shape s : Shape TypeExpr) : Prop := unplacedShape s = unplacedShape shape

/-- Two object types differ in the places of their members at most. -/
def SameObject (type a : ObjectType TypeExpr) : Prop := unplacedObject a = unplacedObject type

/-- Object types that are the same are so as forms. -/
theorem SameObject.shape {type a : ObjectType TypeExpr} (h : SameObject type a) :
    SameShape (.object type) (.object a) := by
  unfold SameShape
  rw [unplacedShape_object, unplacedShape_object, h]

/-- Two type expressions are the same if their forms are, wherever they stand. -/
theorem same_iff {t a : TypeExpr} : Same t a ↔ SameShape t.shape a.shape := by
  obtain ⟨shape, span⟩ := t
  obtain ⟨shape', span'⟩ := a
  constructor
  · intro h
    exact congrArg TypeExpr.shape h
  · intro h
    exact congrArg (TypeExpr.mk · (.point 0)) h

/-- Where a type expression stands makes no difference. -/
theorem Same.respan {t a : TypeExpr} (h : Same t a) (span : Span) : Same t ⟨a.shape, span⟩ := by
  have hshape := same_iff.mp h
  exact same_iff.mpr hshape

private theorem map_eq_of_forall₂ {α β : Type} {f : α → β} {xs as : List α}
    (h : List.Forall₂ (fun x a => f a = f x) xs as) : as.map f = xs.map f := by
  induction h with
  | nil => rfl
  | cons hxa _ ih => rw [List.map_cons, List.map_cons, hxa, ih]

/-- Lists of the same type expressions are the same without places. -/
theorem unplacedAll_eq_of_forall₂ {ts as : List TypeExpr} (h : List.Forall₂ Same ts as) :
    unplacedAll as = unplacedAll ts := by
  rw [unplacedAll_eq_map, unplacedAll_eq_map]
  exact map_eq_of_forall₂ h

end TypeExpr

/-- A parameter of a declaration at no place in particular. -/
def TypeParam.unplaced (p : TypeParam) : TypeParam :=
  ⟨p.name.unplaced, p.bound.map TypeExpr.unplaced, p.default.map TypeExpr.unplaced, .point 0⟩

end Reifier
