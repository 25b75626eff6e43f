import Reifier.Proofs.Program.Depth
import Reifier.Proofs.Program.Safety

/-!
# The type expressions of a program

All type expressions that a program holds, at any depth inside its declarations, are taken from
the source that the program is read from (`Holds.ofSource`).
-/

namespace Reifier

open TypeExpr (IsPart)

variable {source : String}

private theorem TypeParam.allTypeExprs_ofSource {params : Option (List TypeParam)}
    (h : ∀ p ∈ params.getD [], TypeParam.OfSource source p) :
    ∀ t ∈ TypeParam.allTypeExprs params, t.OfSource source :=
  List.forall_mem_flatMap.mpr fun p hp => (h p hp).typeExprs

/-- The type expressions of a declaration of a source are those of a source. The cases are the kinds
of declarations. -/
private theorem Declaration.OfSource.typeExprs {decl : Declaration} (h : decl.OfSource source) :
    ∀ t ∈ decl.typeExprs, t.OfSource source := by
  cases decl with
  | typeAlias decl =>
    refine List.forall_mem_append.mpr ⟨TypeParam.allTypeExprs_ofSource h.params, ?_⟩
    exact List.forall_mem_singleton.mpr h.right
  | interface decl =>
    refine List.forall_mem_append.mpr ⟨List.forall_mem_append.mpr ⟨?_, ?_⟩, h.body.shape.parts⟩
    · exact TypeParam.allTypeExprs_ofSource h.params
    · exact List.forall_mem_flatMap.mpr fun base hbase => (h.bases base hbase).args
  | const decl => exact h.elim

/-- The declarations of a statement of a source are those of a source. -/
private theorem Statement.OfSource.declarations {stmt : Statement} (h : stmt.OfSource source) :
    ∀ decl ∈ stmt.declarations, decl.OfSource source := by
  cases stmt with
  | declaration decl => exact List.forall_mem_singleton.mpr h
  | imports decl => exact List.forall_mem_nil _
  | exports decl => exact List.forall_mem_singleton.mpr h.1
  | verbatim text => exact List.forall_mem_map.mpr h.2

namespace Program

/-- A program holds the type expressions inside those that its declarations are made of. -/
def Holds (program : Program) (t : TypeExpr) : Prop :=
  ∃ decl ∈ program.declarations, ∃ root ∈ decl.typeExprs, Relation.ReflTransGen IsPart root t

/-- **The type expressions of a program are taken from its source.** -/
theorem Holds.ofSource {limit : Option ℕ} {reading : Reading} {t : TypeExpr}
    (ht : reading.program.Holds t) (h : parse limit source = .ok reading) : t.OfSource source := by
  obtain ⟨decl, hdecl, root, hroot, hinside⟩ := ht
  obtain ⟨segs, after, hreads, -⟩ := exists_readsAs_of_parse h
  obtain ⟨item, hitem, hdecl⟩ := List.mem_flatMap.mp hdecl
  have hstmt := (hreads.ofSource h).statements item hitem
  exact ((hstmt.declarations decl hdecl).typeExprs root hroot).of_inside hinside

end Program

end Reifier
