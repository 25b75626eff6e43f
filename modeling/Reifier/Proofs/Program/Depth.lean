import Reifier.Proofs.Program.Declarations
import Reifier.Proofs.Program.Limit
import Reifier.Proofs.TypeExpr.Depth

/-!
# How deep the types of a program are

A limit on nesting bounds how deep the type expressions of a program are. Each level of nesting adds
at most four forms, and the methods of an interface add one more, since its body is read without
opening a level (`formsOn_le_of_parse`). Arrays and indexed accesses are not bounded: their brackets
are read one after another at a single level, so `B[][][][][]` needs one level only
(`not_forall_length_le`).
-/

namespace Reifier

/-- The type expressions directly inside the parameters of a declaration. -/
def TypeParam.allTypeExprs (params : Option (List TypeParam)) : List TypeExpr :=
  (params.getD []).flatMap TypeParam.typeExprs

/-- The type expressions that a declaration is made of. -/
def Declaration.typeExprs : Declaration → List TypeExpr
  | typeAlias decl => TypeParam.allTypeExprs decl.params ++ [decl.right]
  | interface decl =>
    TypeParam.allTypeExprs decl.params ++ decl.bases.flatMap Generic.args ++
      (Shape.object decl.body).parts
  | const _ => []

namespace Program

open Reifier.Parser (Yields)
open Reifier.TypeExpr

variable {depth n : ℕ} {type : Parser TypeExpr}

/-! ### Declarations -/

/-- All type expressions of a declaration are at most so deep. -/
def DeclarationDepthLe (n : ℕ) (decl : Declaration) : Prop := ∀ t ∈ decl.typeExprs, DepthLe n t

private theorem yields_declarationParams (h : Yields depth (DepthLe n) type) :
    Yields depth (fun params => ∀ t ∈ TypeParam.allTypeExprs params, DepthLe n t)
      (declarationParams type) := by
  refine .test (.bind (yields_typeParams h) fun params hparams => .pure ?_) (.pure ?_)
  · exact List.forall_mem_flatMap.mpr hparams
  · exact List.forall_mem_nil _

/-- Nothing in an alias is deeper than what is read for it. -/
private theorem yields_typeAlias (h : Yields depth (DepthLe n) type) :
    Yields depth (fun decl => DeclarationDepthLe n (.typeAlias decl)) (typeAlias type) := by
  refine .advance_bind fun first => .any_bind (fun _ => agrees_identifier) fun id => ?_
  refine .bind (yields_declarationParams h) fun params hparams => .expect_bind fun _ => ?_
  refine .bind h fun right hright => .any_bind (fun _ => .eat _) fun _ => ?_
  refine .look_bind fun span => .pure ?_
  exact List.forall_mem_append.mpr ⟨hparams, List.forall_mem_singleton.mpr hright⟩

private theorem yields_interfaceBases (h : Yields depth (DepthLe n) type) :
    Yields depth (fun bases => ∀ g ∈ bases, ∀ t ∈ g.args, DepthLe n t) (interfaceBases type) :=
  .eatWord_bind (.commaSeparated (yields_generic h)) (.pure (List.forall_mem_nil _))

/-- Nothing in an interface is more than one level deeper than what is read for it: the function of
a method is a level. -/
private theorem yields_interface (h : Yields depth (DepthLe n) type) :
    Yields depth (fun decl => DeclarationDepthLe (n + 1) (.interface decl)) (interface type) := by
  refine .advance_bind fun first => .any_bind (fun _ => agrees_identifier) fun id => ?_
  refine .bind (yields_declarationParams h) fun params hparams => ?_
  refine .bind (yields_interfaceBases h) fun bases hbases => .test ?_ (.reject _ _)
  refine .bind (yields_objectType h) fun body hbody => .any_bind (fun _ => .eat _) fun _ => ?_
  refine .look_bind fun span => .pure ?_
  -- Only the body may be deeper than what opens a level.
  have hheader : ∀ t ∈ TypeParam.allTypeExprs params ++ bases.flatMap Generic.args,
      DepthLe (n + 1) t := by
    intro t ht
    rcases List.mem_append.mp ht with ht | ht
    · exact (hparams t ht).mono (Nat.le_succ n)
    · exact (List.forall_mem_flatMap.mpr hbases t ht).mono (Nat.le_succ n)
  exact List.forall_mem_append.mpr ⟨hheader, hbody⟩

private theorem yields_declaration (h : Yields depth (DepthLe n) type) :
    Yields depth (DeclarationDepthLe (n + 1)) (declaration type) := by
  refine .test (.bind (yields_typeAlias h) fun decl hdecl => .pure fun t ht => ?_) ?_
  · exact (hdecl t ht).mono (Nat.le_succ n)
  · exact .bind (yields_interface h) fun decl hdecl => .pure hdecl

/-! ### Statements -/

/-- All type expressions in the declarations of a statement are at most so deep. -/
def StatementDepthLe (n : ℕ) (stmt : Statement) : Prop :=
  ∀ decl ∈ stmt.declarations, DeclarationDepthLe n decl

private theorem yields_importDeclaration : Yields depth (fun _ => True) importDeclaration := by
  refine .advance_bind fun first => .any_bind (fun _ => agrees_importKind) fun kind => ?_
  refine .any_bind (fun _ => agrees_importClause) fun specifiers => ?_
  refine .any_bind (fun _ => agrees_moduleSource) fun source => ?_
  exact .any_bind (fun _ => .eat _) fun _ => .look_bind fun span => .pure trivial

/-- Nothing in the declarations inside a statement is too deep. The induction is on the rounds of
the loop. -/
private theorem yields_verbatimLoop (h : Yields depth (DepthLe n) type) (rounds brackets : ℕ)
    (previous : Option Token.Kind) :
    Yields depth (fun items => ∀ item ∈ items, DeclarationDepthLe (n + 1) item.node)
      (verbatimLoop type rounds brackets previous) := by
  have hnil : ∀ item ∈ ([] : List (Item Declaration)), DeclarationDepthLe (n + 1) item.node :=
    List.forall_mem_nil _
  induction rounds generalizing brackets previous with
  | zero => exact .halt _
  | succ rounds ih =>
    refine .test (.pure hnil) (.look_bind fun lineStart => .settle_bind fun comments => ?_)
    have htext : Yields depth (fun items => ∀ item ∈ items, DeclarationDepthLe (n + 1) item.node)
        (do
          let token ← Parser.advance
          let brackets := token.kind.depthAfter brackets
          if ← Parser.look (endsAfter token.kind brackets) then return []
          else verbatimLoop type rounds brackets (some token.kind)) :=
      .advance_bind fun token => .test (.pure hnil) (ih _ _)
    rw [nestedDeclaration_bind]
    refine .test (.attempt_bind (yields_declaration h) (fun decl hdecl => ?_) htext) htext
    exact .bind (ih _ _) fun more hmore => .pure (List.forall_mem_cons.mpr ⟨hdecl, hmore⟩)

private theorem yields_verbatim (h : Yields depth (DepthLe n) type) :
    Yields depth (fun text => StatementDepthLe (n + 1) (.verbatim text)) (verbatim type) := by
  refine .look_bind fun start => .look_bind fun ahead => ?_
  refine .bind (.rounds fun rounds => yields_verbatimLoop h rounds 0 none) fun nested hnested => ?_
  refine .look_bind fun left => .look_bind fun span => .pure ?_
  exact List.forall_mem_map.mpr hnested

/-- Nothing in a statement is too deep. The cases are the kinds of statements. -/
private theorem yields_statement (h : Yields depth (DepthLe n) type) :
    Yields depth (StatementDepthLe (n + 1)) (statement type) := by
  refine .test ?_ (.test ?_ (.test (.advance_bind fun first => ?_) ?_))
  · exact .bind (yields_declaration h) fun decl hdecl => .pure (List.forall_mem_singleton.mpr hdecl)
  · exact .bind yields_importDeclaration fun decl _ => .pure (List.forall_mem_nil _)
  · refine .bind (yields_declaration h) fun decl hdecl => .look_bind fun span => .pure ?_
    exact List.forall_mem_singleton.mpr hdecl
  · exact .bind (yields_verbatim h) fun text htext => .pure htext

/-- Nothing in the declarations of a body is too deep. A statement that failed declares nothing. -/
private theorem yields_bodyLoop (h : Yields depth (DepthLe n) type) (rounds : ℕ) :
    Yields depth (fun items => ∀ decl ∈ Item.declarations items, DeclarationDepthLe (n + 1) decl)
      (bodyLoop type rounds) := by
  induction rounds with
  | zero => exact .halt _
  | succ rounds ih =>
    refine .test (.pure (List.forall_mem_nil _)) (.settle_bind fun comments => ?_)
    refine .recover_bind (yields_statement h) (fun stmt hstmt => ?_) ?_
    · refine .bind ih fun more hmore => .pure ?_
      rw [Item.declarations_cons]
      exact List.forall_mem_append.mpr ⟨hstmt, hmore⟩
    · exact .any_bind (fun _ => agrees_skipStatement) fun _ => ih

/-! ### Programs -/

/-- **A limit on nesting bounds the depth of every type expression.** On no path down from a type
expression of a program that is read under the limit `n` are there more than `4 * n + 1` forms other
than arrays and indexed accesses. -/
theorem formsOn_le_of_parse {n : ℕ} {source : String} {reading : Reading}
    (h : parse (some n) source = .ok reading) {decl : Declaration}
    (hdecl : decl ∈ reading.program.declarations) {root t : TypeExpr}
    (hroot : root ∈ decl.typeExprs) (ht : Relation.ReflTransGen IsPart root t)
    {path : List TypeExpr} (hpath : t.Path path) : formsOn path ≤ 4 * n + 1 := by
  obtain ⟨lexemes, after, body, next, -, hread, rfl⟩ := exists_done_of_parse h
  have hwhole := (yields_nested n (lexemes.length + 1) 0).1
  have hbody := Yields.rounds (fun rounds => yields_bodyLoop hwhole rounds)
    (startCursor (Text.byteLength source.toList) lexemes) rfl
  rw [statements] at hread
  rw [hread] at hbody
  exact ((hbody.1 decl hdecl root hroot).of_inside ht).formsOn_le hpath

/-! ### Paths in given sources -/

/-- The leftmost paths down from the type expressions of a source that is read under a limit. -/
def pathsOf (limit : ℕ) (source : String) : Option (List (List TypeExpr)) :=
  (parse (some limit) source).toOption.map fun reading =>
    (reading.program.declarations.flatMap Declaration.typeExprs).map (leftmost 8)

/-- A path that is measured in a source goes down from a declared type. -/
private theorem exists_of_pathsOf {limit : ℕ} {source : String} {measure : List TypeExpr → ℕ}
    {value : ℕ} (h : (pathsOf limit source).map (List.map measure) = some [value]) :
    ∃ reading decl root path, parse (some limit) source = .ok reading ∧
      decl ∈ reading.program.declarations ∧ root ∈ decl.typeExprs ∧ root.Path path ∧
      measure path = value := by
  unfold pathsOf at h
  cases hparse : parse (some limit) source with
  | error cause =>
    rw [hparse] at h
    cases h
  | ok reading =>
    rw [hparse] at h
    simp only [Except.toOption, Option.map_some, Option.some.injEq, List.map_map,
      List.map_eq_singleton_iff] at h
    obtain ⟨root, hroots, hvalue⟩ := h
    have hroot : root ∈ reading.program.declarations.flatMap Declaration.typeExprs := by
      rw [hroots]
      exact List.mem_cons_self
    obtain ⟨decl, hdecl, hroot⟩ := List.mem_flatMap.mp hroot
    exact ⟨reading, decl, root, _, rfl, hdecl, hroot, path_leftmost 8 root, hvalue⟩

/-- A function, a union, an intersection and an object, all at one level of nesting; the array
between the last two is not counted. -/
theorem formsOn_le_of_parse_method :
    ∃ reading decl root path,
      parse (some 1) "interface I { m(): {}[] & A | B }" = .ok reading ∧
      decl ∈ reading.program.declarations ∧ root ∈ decl.typeExprs ∧
      Relation.ReflTransGen IsPart root root ∧ root.Path path ∧ formsOn path = 4 ∧
      formsOn path ≤ 4 * 1 + 1 := by
  have hpaths : (pathsOf 1 "interface I { m(): {}[] & A | B }").map (List.map formsOn) =
      some [4] := by
    decide +kernel
  obtain ⟨reading, decl, root, path, hread, hdecl, hroot, hpath, hforms⟩ :=
    exists_of_pathsOf hpaths
  have hle := formsOn_le_of_parse hread hdecl hroot .refl hpath
  exact ⟨reading, decl, root, path, hread, hdecl, hroot, .refl, hpath, hforms, hle⟩

/-- A limit does not bound the length of paths. The arrays in `type A = B[][][][][]` are read at one
level, and there are six type expressions on the way down to `B`. -/
theorem not_forall_length_le :
    ¬ ∀ (n : ℕ) (source : String) (reading : Reading), parse (some n) source = .ok reading →
      ∀ decl ∈ reading.program.declarations, ∀ root ∈ decl.typeExprs,
        ∀ path, root.Path path → path.length ≤ 4 * n + 1 := by
  intro h
  have hpaths : (pathsOf 1 "type A = B[][][][][]").map (List.map List.length) = some [6] := by
    decide +kernel
  obtain ⟨reading, decl, root, path, hread, hdecl, hroot, hpath, hlength⟩ :=
    exists_of_pathsOf hpaths
  have hle := h 1 _ reading hread decl hdecl root hroot path hpath
  omega

end Program

end Reifier
