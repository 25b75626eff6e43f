import Reifier.Program.Basic
import Reifier.Proofs.TypeExpr.Moved

/-!
# Statements further on in a source

`s.moved bytes count` is a statement as it stands in a source when other text is put in front of it:
its places, and those of its parts, are `bytes` further on, and the comments above what it holds are
further on in the program's list by `count`.
-/

namespace Reifier

/-! ### Declarations -/

/-- A type alias `n` bytes further on. -/
def TypeAlias.moved (n : ℕ) (decl : TypeAlias) : TypeAlias where
  id := decl.id.moved n
  params := decl.params.map (List.map (TypeParam.moved n))
  right := decl.right.moved n
  recursive := decl.recursive
  span := decl.span.moved n

/-- An interface `n` bytes further on. -/
def Interface.moved (n : ℕ) (decl : Interface) : Interface where
  id := decl.id.moved n
  params := decl.params.map (List.map (TypeParam.moved n))
  bases := decl.bases.map (TypeExpr.movedGeneric n)
  body := TypeExpr.movedObject n decl.body
  bodySpan := decl.bodySpan.moved n
  recursive := decl.recursive
  span := decl.span.moved n

/-- A constant `n` bytes further on. -/
def Const.moved (n : ℕ) (decl : Const) : Const := ⟨decl.id.moved n, decl.init, decl.span.moved n⟩

/-- A declaration `n` bytes further on. -/
def Declaration.moved (n : ℕ) : Declaration → Declaration
  | typeAlias decl => typeAlias (decl.moved n)
  | interface decl => interface (decl.moved n)
  | const decl => const (decl.moved n)

/-- A declaration that is moved stands where it is moved to. -/
theorem Declaration.span_moved (n : ℕ) (decl : Declaration) :
    (decl.moved n).span = decl.span.moved n := by
  cases decl <;> rfl

/-! ### Imports -/

/-- A specifier `n` bytes further on. -/
def ImportSpecifier.moved (n : ℕ) : ImportSpecifier → ImportSpecifier
  | default id => default (id.moved n)
  | star id => star (id.moved n)
  | named imported id => named (imported.moved n) (id.moved n)

/-- The path of a module `n` bytes further on. -/
def ModuleSource.moved (n : ℕ) (source : ModuleSource) : ModuleSource :=
  ⟨source.value, source.span.moved n⟩

/-- An import `n` bytes further on. -/
def Import.moved (n : ℕ) (decl : Import) : Import where
  kind := decl.kind
  specifiers := decl.specifiers.map (ImportSpecifier.moved n)
  source := decl.source.moved n
  span := decl.span.moved n

/-! ### Statements -/

/-- An item whose node is moved, behind `count` further comments. -/
def Item.moved {α : Type} (move : α → α) (count : ℕ) (item : Item α) : Item α :=
  ⟨item.comments.map (count + ·), move item.node⟩

/-- An exported declaration `n` bytes further on. -/
def Export.moved (n : ℕ) (decl : Export) : Export :=
  ⟨decl.kind, decl.declaration.moved n, decl.span.moved n⟩

/-- A statement without a structure further on. -/
def Verbatim.moved (bytes count : ℕ) (text : Verbatim) : Verbatim :=
  ⟨text.text, text.span.moved bytes, text.nested.map (Item.moved (Declaration.moved bytes) count)⟩

/-- A statement further on. -/
def Statement.moved (bytes count : ℕ) : Statement → Statement
  | declaration decl => declaration (decl.moved bytes)
  | imports decl => imports (decl.moved bytes)
  | exports decl => exports (decl.moved bytes)
  | verbatim text => verbatim (text.moved bytes count)

/-! ### Not moving -/

namespace TypeExpr

private theorem moved_zero_eq : TypeExpr.moved 0 = id := funext moved_zero

@[simp] theorem movedGeneric_zero : movedGeneric 0 = id := by
  funext g
  rw [movedGeneric, QualifiedName.moved_zero, moved_zero_eq, List.map_id_fun, Option.map_id]
  rfl

/-- Moving members by nothing leaves them. -/
@[simp] theorem movedObject_zero (type : ObjectType TypeExpr) : movedObject 0 type = type := by
  have hproperty : movedProperty 0 = id := by
    funext p
    rw [movedProperty, PropertyKey.moved_zero, moved_zero, Span.moved_zero]
    rfl
  have hindexer : movedIndexer 0 = id := by
    funext i
    rw [movedIndexer, Identifier.moved_zero, Option.map_id, moved_zero, moved_zero,
      Span.moved_zero]
    rfl
  rw [movedObject, hproperty, hindexer, List.map_id, List.map_id]

end TypeExpr

@[simp] theorem TypeParam.moved_zero : TypeParam.moved 0 = id := by
  funext p
  rw [moved, Identifier.moved_zero, TypeExpr.moved_zero_eq, Option.map_id, Span.moved_zero]
  rfl

@[simp] theorem TypeAlias.moved_zero (decl : TypeAlias) : decl.moved 0 = decl := by
  rw [moved, Identifier.moved_zero, TypeParam.moved_zero, List.map_id_fun, Option.map_id,
    TypeExpr.moved_zero, Span.moved_zero]
  rfl

@[simp] theorem Interface.moved_zero (decl : Interface) : decl.moved 0 = decl := by
  rw [moved, Identifier.moved_zero, TypeParam.moved_zero, List.map_id_fun, Option.map_id,
    TypeExpr.movedGeneric_zero, TypeExpr.movedObject_zero, List.map_id, Span.moved_zero,
    Span.moved_zero]
  rfl

@[simp] theorem Declaration.moved_zero (decl : Declaration) : decl.moved 0 = decl := by
  cases decl with
  | typeAlias decl => rw [moved, TypeAlias.moved_zero]
  | interface decl => rw [moved, Interface.moved_zero]
  | const decl => rfl

@[simp] theorem Import.moved_zero (decl : Import) : decl.moved 0 = decl := by
  have hspecifier : ImportSpecifier.moved 0 = id := by
    funext s
    cases s <;> rfl
  rw [moved, hspecifier, List.map_id]
  rfl

/-- What does not move and has no further comments before it is as it was. -/
@[simp] theorem Item.moved_zero {α : Type} : (Item.moved id 0 : Item α → Item α) = id := by
  funext item
  have hnone : (0 + · : ℕ → ℕ) = id := funext Nat.zero_add
  rw [moved, hnone, List.map_id]
  rfl

/-- Moving a statement by nothing leaves it, and so does giving its comments the ids that they
have. -/
@[simp] theorem Statement.moved_zero : Statement.moved 0 0 = id := by
  funext stmt
  cases stmt with
  | declaration decl => rw [moved, Declaration.moved_zero, id]
  | imports decl => rw [moved, Import.moved_zero, id]
  | exports decl =>
    rw [moved, Export.moved, Declaration.moved_zero]
    rfl
  | verbatim text =>
    have hdeclaration : Declaration.moved 0 = id := funext Declaration.moved_zero
    rw [moved, Verbatim.moved, hdeclaration, Item.moved_zero, List.map_id]
    rfl

end Reifier
