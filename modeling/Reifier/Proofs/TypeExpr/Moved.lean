import Mathlib.Tactic
import Reifier.TypeExpr.Basic

/-!
# Type expressions further on in a text

What stands in a text stands further on when something is put in front. `t.moved n` is a type
expression whose places, and those of its parts, are `n` bytes further on; nothing else of it
changes.
-/

namespace Reifier

/-! ### Places and names -/

/-- A range `n` bytes further on. -/
def Span.moved (n : ℕ) (span : Span) : Span := ⟨span.start + n, span.stop + n⟩

/-- An identifier `n` bytes further on. -/
def Identifier.moved (n : ℕ) (id : Identifier) : Identifier := ⟨id.name, id.span.moved n⟩

/-- A dotted name `n` bytes further on. -/
def QualifiedName.moved (n : ℕ) (q : QualifiedName) : QualifiedName :=
  ⟨q.head.moved n, q.tail.map (Identifier.moved n)⟩

/-- The key of a property `n` bytes further on. -/
def PropertyKey.moved (n : ℕ) : PropertyKey → PropertyKey
  | identifier id => .identifier (id.moved n)
  | string value => .string value

@[simp] theorem Span.moved_zero (span : Span) : span.moved 0 = span := rfl

@[simp] theorem Identifier.moved_zero : Identifier.moved 0 = id := rfl

@[simp] theorem QualifiedName.moved_zero (q : QualifiedName) : q.moved 0 = q := by
  rw [moved, Identifier.moved_zero, List.map_id]
  rfl

@[simp] theorem PropertyKey.moved_zero (key : PropertyKey) : key.moved 0 = key := by
  cases key <;> rfl

namespace TypeExpr

/-! ### Type expressions -/

mutual

/-- A type expression `n` bytes further on. -/
def moved (n : ℕ) : TypeExpr → TypeExpr
  | ⟨shape, span⟩ => ⟨movedShape n shape, span.moved n⟩
termination_by structural t => t

/-- A form whose parts are `n` bytes further on. -/
def movedShape (n : ℕ) : Shape TypeExpr → Shape TypeExpr
  | .keyword word => .keyword word
  | .function params rest result =>
    .function (movedParams n params) (movedRest n rest) (moved n result)
  | .typeOf target => .typeOf (target.moved n)
  | .array element => .array (moved n element)
  | .nullable inner => .nullable (moved n inner)
  | .tuple items => .tuple (movedAll n items)
  | .union members => .union (movedAll n members)
  | .intersection members => .intersection (movedAll n members)
  | .object ⟨properties, indexers, exact⟩ =>
    .object ⟨movedProperties n properties, movedIndexers n indexers, exact⟩
  | .generic ⟨name, none⟩ => .generic ⟨name.moved n, none⟩
  | .generic ⟨name, some args⟩ => .generic ⟨name.moved n, some (movedAll n args)⟩
  | .string value => .string value
  | .number spelling => .number spelling
  | .boolean value => .boolean value
  | .bigInt spelling => .bigInt spelling
  | .indexedAccess object index => .indexedAccess (moved n object) (moved n index)
termination_by structural shape => shape

/-- Type expressions `n` bytes further on. -/
def movedAll (n : ℕ) : List TypeExpr → List TypeExpr
  | [] => []
  | t :: ts => moved n t :: movedAll n ts
termination_by structural ts => ts

/-- Parameters `n` bytes further on. -/
def movedParams (n : ℕ) : List (Param TypeExpr) → List (Param TypeExpr)
  | [] => []
  | ⟨name, type, optional⟩ :: ps =>
    ⟨name.map (Identifier.moved n), moved n type, optional⟩ :: movedParams n ps
termination_by structural ps => ps

/-- A rest parameter `n` bytes further on. -/
def movedRest (n : ℕ) : Option (Param TypeExpr) → Option (Param TypeExpr)
  | none => none
  | some ⟨name, type, optional⟩ => some ⟨name.map (Identifier.moved n), moved n type, optional⟩
termination_by structural rest => rest

/-- Properties `n` bytes further on. -/
def movedProperties (n : ℕ) : List (Property TypeExpr) → List (Property TypeExpr)
  | [] => []
  | ⟨key, value, optional, span⟩ :: ps =>
    ⟨key.moved n, moved n value, optional, span.moved n⟩ :: movedProperties n ps
termination_by structural ps => ps

/-- Indexers `n` bytes further on. -/
def movedIndexers (n : ℕ) : List (Indexer TypeExpr) → List (Indexer TypeExpr)
  | [] => []
  | ⟨id, key, value, span⟩ :: is =>
    ⟨id.map (Identifier.moved n), moved n key, moved n value, span.moved n⟩ :: movedIndexers n is
termination_by structural is => is

end

/-! ### Their parts -/

/-- A parameter `n` bytes further on. -/
def movedParam (n : ℕ) (p : Param TypeExpr) : Param TypeExpr :=
  ⟨p.name.map (Identifier.moved n), p.type.moved n, p.optional⟩

/-- A property `n` bytes further on. -/
def movedProperty (n : ℕ) (p : Property TypeExpr) : Property TypeExpr :=
  ⟨p.key.moved n, p.value.moved n, p.optional, p.span.moved n⟩

/-- An indexer `n` bytes further on. -/
def movedIndexer (n : ℕ) (i : Indexer TypeExpr) : Indexer TypeExpr :=
  ⟨i.id.map (Identifier.moved n), i.key.moved n, i.value.moved n, i.span.moved n⟩

/-- An object type whose members are `n` bytes further on. -/
def movedObject (n : ℕ) (type : ObjectType TypeExpr) : ObjectType TypeExpr :=
  ⟨type.properties.map (movedProperty n), type.indexers.map (movedIndexer n), type.exact⟩

/-- A reference `n` bytes further on. -/
def movedGeneric (n : ℕ) (g : Generic TypeExpr) : Generic TypeExpr :=
  ⟨g.name.moved n, g.args?.map (List.map (moved n))⟩

variable (n : ℕ)

@[simp] theorem movedAll_eq_map (ts : List TypeExpr) : movedAll n ts = ts.map (moved n) := by
  induction ts with
  | nil => rfl
  | cons t ts ih => rw [movedAll, ih, List.map_cons]

@[simp] theorem movedParams_eq_map (ps : List (Param TypeExpr)) :
    movedParams n ps = ps.map (movedParam n) := by
  induction ps with
  | nil => rfl
  | cons p ps ih =>
    rw [movedParams, ih]
    rfl

@[simp] theorem movedRest_eq_map (rest : Option (Param TypeExpr)) :
    movedRest n rest = rest.map (movedParam n) := by
  cases rest <;> rfl

/-- Moving an object type is moving its members. -/
theorem movedShape_object (type : ObjectType TypeExpr) :
    movedShape n (.object type) = .object (movedObject n type) := by
  obtain ⟨properties, indexers, exact⟩ := type
  have hproperties : movedProperties n properties = properties.map (movedProperty n) := by
    induction properties with
    | nil => rfl
    | cons p ps ih =>
      rw [movedProperties, ih]
      rfl
  have hindexers : movedIndexers n indexers = indexers.map (movedIndexer n) := by
    induction indexers with
    | nil => rfl
    | cons i is ih =>
      rw [movedIndexers, ih]
      rfl
  rw [movedShape, hproperties, hindexers, movedObject]

/-- Moving a reference is moving its name and its arguments. -/
theorem movedShape_generic (g : Generic TypeExpr) :
    movedShape n (.generic g) = .generic (movedGeneric n g) := by
  obtain ⟨name, _ | args⟩ := g
  · rfl
  · rw [movedShape, movedAll_eq_map]
    rfl

/-! ### Not moving -/

mutual

/-- Moving a type expression by nothing leaves it. The recursion is that of `moved`, over shapes,
lists and members at once. -/
theorem moved_zero : (t : TypeExpr) → t.moved 0 = t
  | ⟨shape, span⟩ => by rw [moved, movedShape_zero shape, Span.moved_zero]
termination_by structural t => t

private theorem movedShape_zero : (shape : Shape TypeExpr) → movedShape 0 shape = shape
  | .keyword _ => rfl
  | .function params rest result => by
    rw [movedShape, movedParams_zero params, movedRest_zero rest, moved_zero result]
  | .typeOf target => by rw [movedShape, QualifiedName.moved_zero]
  | .array element => by rw [movedShape, moved_zero element]
  | .nullable inner => by rw [movedShape, moved_zero inner]
  | .tuple items => by rw [movedShape, movedAll_zero items]
  | .union members => by rw [movedShape, movedAll_zero members]
  | .intersection members => by rw [movedShape, movedAll_zero members]
  | .object ⟨properties, indexers, exact⟩ => by
    rw [movedShape, movedProperties_zero properties, movedIndexers_zero indexers]
  | .generic ⟨name, none⟩ => by rw [movedShape, QualifiedName.moved_zero]
  | .generic ⟨name, some args⟩ => by
    rw [movedShape, QualifiedName.moved_zero, movedAll_zero args]
  | .string _ => rfl
  | .number _ => rfl
  | .boolean _ => rfl
  | .bigInt _ => rfl
  | .indexedAccess object index => by rw [movedShape, moved_zero object, moved_zero index]
termination_by structural shape => shape

private theorem movedAll_zero : (ts : List TypeExpr) → movedAll 0 ts = ts
  | [] => rfl
  | t :: ts => by rw [movedAll, moved_zero t, movedAll_zero ts]
termination_by structural ts => ts

private theorem movedParams_zero : (ps : List (Param TypeExpr)) → movedParams 0 ps = ps
  | [] => rfl
  | ⟨name, type, optional⟩ :: ps => by
    rw [movedParams, moved_zero type, movedParams_zero ps, Identifier.moved_zero, Option.map_id]
    rfl
termination_by structural ps => ps

private theorem movedRest_zero : (rest : Option (Param TypeExpr)) → movedRest 0 rest = rest
  | none => rfl
  | some ⟨name, type, optional⟩ => by
    rw [movedRest, moved_zero type, Identifier.moved_zero, Option.map_id]
    rfl
termination_by structural rest => rest

private theorem movedProperties_zero : (ps : List (Property TypeExpr)) → movedProperties 0 ps = ps
  | [] => rfl
  | ⟨key, value, optional, span⟩ :: ps => by
    rw [movedProperties, moved_zero value, movedProperties_zero ps, PropertyKey.moved_zero,
      Span.moved_zero]
termination_by structural ps => ps

private theorem movedIndexers_zero : (is : List (Indexer TypeExpr)) → movedIndexers 0 is = is
  | [] => rfl
  | ⟨id, key, value, span⟩ :: is => by
    rw [movedIndexers, moved_zero key, moved_zero value, movedIndexers_zero is, Span.moved_zero,
      Identifier.moved_zero, Option.map_id]
    rfl
termination_by structural is => is

end

end TypeExpr

/-- A parameter of a declaration `n` bytes further on. -/
def TypeParam.moved (n : ℕ) (p : TypeParam) : TypeParam :=
  ⟨p.name.moved n, p.bound.map (TypeExpr.moved n), p.default.map (TypeExpr.moved n),
    p.span.moved n⟩

end Reifier
