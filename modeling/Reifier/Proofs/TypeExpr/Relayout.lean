import Reifier.Proofs.Parser.Relayout
import Reifier.Proofs.TypeExpr.Unplaced
import Reifier.TypeExpr.Parser

/-!
# Type expressions in two layouts

In two layouts of the same lexemes each production reads the same, apart from places, when the
parser for the type expressions inside it does. Only brackets behind a type ask for the trivia in
front of them, and of this trivia only whether it breaks the line.
-/

namespace Reifier

/-! ### What the productions look at -/

namespace Relayout.Sees

open Reifier.TypeExpr

variable {ρ : Relayout}

protected theorem namedParamAhead (n : ℕ) : ρ.Sees (namedParamAhead · n) :=
  .and (.hasKind n .identifier) (.or (.hasKind (n + 1) .colon)
    (.and (.hasKind (n + 1) .question) (.hasKind (n + 2) .colon)))

protected theorem paramsAhead : ρ.Sees paramsAhead :=
  .or (.or (.hasKind 1 .parenClose) (.hasKind 1 .ellipsis)) (.namedParamAhead 1)

end Relayout.Sees

namespace TypeExpr

open Reifier.Parser (Mirrors)
open Reifier.Relayout (Sees)

variable {ρ : Relayout} {type : Parser TypeExpr}

/-! ### Names and arguments -/

theorem mirrors_identifier :
    Mirrors ρ (EqualUnder Identifier.unplaced) identifier identifier := by
  refine .test (.hasKind 0 .identifier) (.bind .advance fun ht => .done ?_) (.reject _ _)
  exact congrArg (fun text => (⟨text, .point 0⟩ : Identifier)) (congrArg Token.Word.text ht)

/-- A qualified name is the same in both layouts, segment by segment. -/
private theorem mirrors_qualifiedName :
    Mirrors ρ (EqualUnder QualifiedName.unplaced) qualifiedName qualifiedName := by
  have hsegments : ∀ n,
      Mirrors ρ (EqualUnder (List.map Identifier.unplaced)) (segmentsLoop n) (segmentsLoop n) := by
    intro n
    induction n with
    | zero => exact .halt _
    | succ n ih =>
      refine .test (Sees.and (.hasKind 0 .dot) (.hasKind 1 .identifier)) ?_ (.done rfl)
      refine .bind .advance fun _ => mirrors_identifier.bind fun hfirst => ih.bind fun hmore => ?_
      exact .done (congrArg₂ List.cons hfirst hmore)
  exact mirrors_identifier.bind fun hhead => (Mirrors.rounds hsegments).bind fun htail =>
    .done (congrArg₂ QualifiedName.mk hhead htail)

private theorem mirrors_variance : Mirrors ρ (EqualUnder id) variance variance :=
  .test (Sees.or (.hasKind 0 .plus) (.hasKind 0 .minus)) (.bind .advance fun _ => .done rfl)
    (.done rfl)

section

variable (h : Mirrors ρ (EqualUnder unplaced) type type)
include h

private theorem mirrors_typeArgs :
    Mirrors ρ (EqualUnder (List.map unplaced)) (typeArgs type) (typeArgs type) :=
  .bind (.expect _ _) fun _ => h.items.bind fun hargs => .bind (.expect _ _) fun _ => .done hargs

theorem mirrors_generic :
    Mirrors ρ (EqualUnder unplacedGeneric) (generic type) (generic type) := by
  refine mirrors_qualifiedName.bind fun hname => .test (.hasKind 0 .less) ?_ ?_
  · refine (mirrors_typeArgs h).bind fun hargs => .done ?_
    exact congrArg₂ (fun name args => (⟨name, some args⟩ : Generic TypeExpr)) hname hargs
  · exact .done (congrArg (fun name => (⟨name, none⟩ : Generic TypeExpr)) hname)

private theorem mirrors_typeParam :
    Mirrors ρ (EqualUnder TypeParam.unplaced) (typeParam type) (typeParam type) := by
  refine .nextStart_bind fun _ _ => mirrors_variance.bind fun _ => ?_
  refine mirrors_identifier.bind fun hname => h.after?.bind fun hbound => h.after?.bind ?_
  refine fun hdefault => .spanFrom_bind fun _ _ => .done ?_
  simp only [EqualUnder, TypeParam.unplaced, TypeParam.mk.injEq] at hname hbound hdefault ⊢
  exact ⟨hname, hbound, hdefault, trivial⟩

theorem mirrors_typeParams :
    Mirrors ρ (EqualUnder (List.map TypeParam.unplaced)) (typeParams type) (typeParams type) :=
  .bind (.expect _ _) fun _ => (mirrors_typeParam h).items.bind fun hall =>
    .bind (.expect _ _) fun _ => .done hall

/-! ### Functions -/

private theorem mirrors_param :
    Mirrors ρ (EqualUnder unplacedParam) (param type) (param type) := by
  refine .test (.namedParamAhead 0) ?_ (h.bind fun ht => .done ?_)
  · refine mirrors_identifier.bind fun hname => .bind (.eat _) fun hoptional => ?_
    refine .bind .advance fun _ => h.bind fun ht => .done ?_
    simp only [EqualUnder, unplacedParam, Param.mk.injEq, Option.map_some] at hname ht ⊢
    exact ⟨congrArg some hname, ht, hoptional⟩
  · exact congrArg (fun t => (⟨none, t, false⟩ : Param TypeExpr)) ht

/-- Parameters are the same in both layouts. The induction is on the rounds of the loop. -/
private theorem mirrors_params :
    Mirrors ρ (EqualUnder (Prod.map (List.map unplacedParam) (Option.map unplacedParam)))
      (params type) (params type) := by
  refine .bind (.expect _ _) fun _ => ?_
  have hloop : ∀ n, Mirrors ρ
      (EqualUnder (Prod.map (List.map unplacedParam) (Option.map unplacedParam)))
      (paramsLoop type n) (paramsLoop type n) := by
    intro n
    induction n with
    | zero => exact .halt _
    | succ n ih =>
      refine .test (.hasKind 0 .parenClose) (.done rfl) (.eat_bind ?_ ?_)
      · refine (mirrors_param h).bind fun hrest => .bind (.eat _) fun _ => .done ?_
        exact congrArg (fun p => ([], some p)) hrest
      · refine (mirrors_param h).bind fun hfirst => .eat_bind (ih.bind fun hmore => .done ?_) ?_
        · obtain ⟨hparams, hrest⟩ := Prod.mk.inj hmore
          exact congrArg₂ Prod.mk (congrArg₂ List.cons hfirst hparams) hrest
        · exact .done (congrArg (fun p => ([p], none)) hfirst)
  exact (Mirrors.rounds hloop).bind fun hall => .bind (.expect _ _) fun _ => .done hall

private theorem mirrors_function (separator : Token.Kind) (spelling : String) :
    Mirrors ρ (EqualUnder unplacedShape) (function type separator spelling)
      (function type separator spelling) := by
  refine (mirrors_params h).bind fun hall => .bind (.expect _ _) fun _ => h.bind fun ht => .done ?_
  obtain ⟨hparams, hrest⟩ := Prod.mk.inj hall
  simp only [EqualUnder, unplacedShape, unplacedParams_eq_map, unplacedRest_eq_map,
    Shape.function.injEq] at ht ⊢
  exact ⟨hparams, hrest, ht⟩

omit h in
/-- Forms that are the same stand for the same, wherever they stand. -/
private theorem equalUnder_mk {shape shape' : Shape TypeExpr}
    (hshape : EqualUnder unplacedShape shape shape') (span span' : Span) :
    EqualUnder unplaced ⟨shape, span⟩ ⟨shape', span'⟩ :=
  congrArg (fun s => (⟨s, .point 0⟩ : TypeExpr)) hshape

omit h in
private theorem equalUnder_shape {t t' : TypeExpr} (ht : EqualUnder unplaced t t') :
    EqualUnder unplacedShape t.shape t'.shape :=
  same_iff.mp ht

/-- What stands in parentheses is the same in both layouts, be it the parameters of a function or a
group. The choice depends on kinds of tokens alone. -/
private theorem mirrors_parenthesized :
    Mirrors ρ (EqualUnder unplaced) (parenthesized type) (parenthesized type) := by
  refine .nextStart_bind fun _ _ => .test .paramsAhead ?_ ?_
  · refine (mirrors_function h _ _).bind fun hshape => .spanFrom_bind fun _ _ => .done ?_
    exact equalUnder_mk hshape _ _
  · refine .bind .advance fun _ => h.bind fun hinner => .bind (.expect _ _) fun _ => .eat_bind ?_ ?_
    · refine h.bind fun hresult => .spanFrom_bind fun _ _ => .done (equalUnder_mk ?_ _ _)
      unfold EqualUnder at hinner hresult ⊢
      simp only [unplacedShape, unplacedParams, unplacedRest, Option.map_none, hinner, hresult]
    · exact .spanFrom_bind fun _ _ => .done (equalUnder_mk (equalUnder_shape hinner) _ _)

/-! ### Object types -/

omit h in
private theorem mirrors_indexerName :
    Mirrors ρ (EqualUnder (Option.map Identifier.unplaced)) indexerName indexerName := by
  refine .test (Sees.and (.hasKind 0 .identifier) (.hasKind 1 .colon)) ?_ (.done rfl)
  exact mirrors_identifier.bind fun hid => .bind .advance fun _ => .done (congrArg some hid)

private theorem mirrors_indexer (start start' : ℕ) :
    Mirrors ρ (EqualUnder unplacedIndexer) (indexer type start) (indexer type start') := by
  refine .bind .advance fun _ => mirrors_indexerName.bind fun hid => h.bind fun hkey => ?_
  refine .bind (.expect _ _) fun _ => .bind (.expect _ _) fun _ => h.bind fun hvalue => ?_
  refine .spanFrom_bind fun _ _ => .done ?_
  simp only [EqualUnder, unplacedIndexer, Indexer.mk.injEq] at hid hkey hvalue ⊢
  exact ⟨hid, hkey, hvalue, trivial⟩

omit h in
/-- A key is the same in both layouts. The cases are those of the next token. -/
private theorem mirrors_propertyKey :
    Mirrors ρ (EqualUnder PropertyKey.unplaced) propertyKey propertyKey := by
  refine .test (.hasKind 0 .identifier) ?_ (.test (.hasKind 0 .string) ?_ (.reject _ _))
  · exact mirrors_identifier.bind fun hid => .done (congrArg PropertyKey.identifier hid)
  · refine .bind .advance fun ht => .done ?_
    exact congrArg (fun text => PropertyKey.string (Text.unquote text))
      (congrArg Token.Word.text ht)

private theorem mirrors_method :
    Mirrors ρ (EqualUnder unplaced) (method type) (method type) := by
  refine .nextStart_bind fun _ _ => .sometimes (.hasKind 0 .less) (mirrors_typeParams h) ?_
  refine (mirrors_function h _ _).bind fun hshape => .spanFrom_bind fun _ _ => .done ?_
  exact equalUnder_mk hshape _ _

/-- A property is the same in both layouts. -/
private theorem mirrors_property (start start' : ℕ) :
    Mirrors ρ (EqualUnder unplacedProperty) (property type start) (property type start') := by
  refine mirrors_propertyKey.bind fun hkey => ?_
  refine .test (Sees.or (.hasKind 0 .parenOpen) (.hasKind 0 .less)) ?_ ?_
  · refine (mirrors_method h).bind fun hvalue => .spanFrom_bind fun _ _ => .done ?_
    simp only [EqualUnder, unplacedProperty, Property.mk.injEq] at hkey hvalue ⊢
    exact ⟨hkey, hvalue, trivial, trivial⟩
  · refine .bind (.eat _) fun hoptional => .bind (.expect _ _) fun _ => h.bind fun hvalue => ?_
    refine .spanFrom_bind fun _ _ => .done ?_
    simp only [EqualUnder, unplacedProperty, Property.mk.injEq] at hkey hvalue ⊢
    exact ⟨hkey, hvalue, hoptional, trivial⟩

/-- What puts a member in front of further ones puts the same in front of the same. -/
private theorem mirrors_member :
    Mirrors ρ (fun add add' => ∀ {o o' : ObjectType TypeExpr}, EqualUnder unplacedObject o o' →
      EqualUnder unplacedObject (add o) (add' o')) (member type) (member type) := by
  refine .nextStart_bind fun _ _ => mirrors_variance.bind fun _ => ?_
  refine .test (.hasKind 0 .ellipsis) (.reject _ _) ?_
  refine .test (Sees.or (.hasKind 0 .parenOpen) (.hasKind 0 .less)) (.reject _ _) ?_
  refine .test (.hasKind 0 .bracketOpen) ?_ ?_
  · refine (mirrors_indexer h _ _).bind fun hi => .done fun {o o'} ho => ?_
    simp only [EqualUnder, unplacedObject, ObjectType.mk.injEq, List.map_cons] at hi ho ⊢
    exact ⟨ho.1, congrArg₂ List.cons hi ho.2.1, ho.2.2⟩
  · refine (mirrors_property h _ _).bind fun hp => .done fun {o o'} ho => ?_
    simp only [EqualUnder, unplacedObject, ObjectType.mk.injEq, List.map_cons] at hp ho ⊢
    exact ⟨congrArg₂ List.cons hp ho.1, ho.2⟩

/-- The members of an object type are the same in both layouts. -/
private theorem mirrors_membersLoop (exact : Bool) (close : Token.Kind) (spelling : String)
    (n : ℕ) : Mirrors ρ (EqualUnder unplacedObject) (membersLoop type exact close spelling n)
      (membersLoop type exact close spelling n) := by
  induction n with
  | zero => exact .halt _
  | succ n ih =>
    refine .test (.hasKind 0 close) (.done rfl) (.test .atEnd (.reject _ _) ?_)
    refine (mirrors_member h).bind fun hadd => ?_
    refine .test (Sees.or (.hasKind 0 .comma) (.hasKind 0 .semicolon)) ?_ ?_
    · exact .bind .advance fun _ => ih.bind fun hmore => .done (hadd hmore)
    · exact .test (.hasKind 0 close) (.done (hadd rfl))
        (.test .atEnd (.reject _ _) (.reject _ _))

/-- An object type is the same in both layouts: it is opened, and so closed, by the same kinds of
tokens. -/
theorem mirrors_objectType :
    Mirrors ρ (fun a b => EqualUnder unplacedObject a.1 b.1) (objectType type)
      (objectType type) := by
  refine .bind .advance fun {opening opening'} hopening => ?_
  have hkind : opening'.kind = opening.kind := congrArg Token.Word.kind hopening
  have hmembers : ∀ (exact : Bool) (close : Token.Kind) (spelling : String),
      Mirrors ρ (fun (a b : ObjectType TypeExpr × Span) => EqualUnder unplacedObject a.1 b.1)
        (do
          let object ← Parser.rounds (membersLoop type exact close spelling)
          let _ ← Parser.advance
          return (object, ← Parser.spanFrom opening.span.start))
        (do
          let object ← Parser.rounds (membersLoop type exact close spelling)
          let _ ← Parser.advance
          return (object, ← Parser.spanFrom opening'.span.start)) := by
    intro exact close spelling
    refine (Mirrors.rounds (mirrors_membersLoop h exact close spelling)).bind fun hobject => ?_
    exact .bind .advance fun _ => .spanFrom_bind fun _ _ => .done hobject
  -- What opens the type decides what closes it.
  rw [hkind]
  by_cases hexact : opening.kind = .braceBarOpen
  · simp only [hexact]
    exact hmembers true _ _
  · simp only [hexact]
    exact hmembers false _ _

/-! ### Primary forms -/

/-- A named form is the same in both layouts. The cases are the names with a meaning of their own
and all others. -/
private theorem mirrors_named :
    Mirrors ρ (EqualUnder unplacedShape) (named type) (named type) := by
  refine .look_bind .nextText fun word => ?_
  refine .test (Sees.and (.isWord 0 "typeof") (.hasKind 1 .identifier)) ?_ ?_
  · refine .bind .advance fun _ => mirrors_qualifiedName.bind fun htarget => .done ?_
    exact congrArg Shape.typeOf htarget
  · split_ifs
    · exact .bind .advance fun _ => .done rfl
    · split
      · exact .bind .advance fun _ => .done rfl
      · refine (mirrors_generic h).bind fun hg => .done ?_
        unfold EqualUnder at hg ⊢
        rw [unplacedShape_generic, unplacedShape_generic, hg]

private theorem mirrors_tuple : Mirrors ρ (EqualUnder unplacedShape) (tuple type) (tuple type) := by
  refine .bind .advance fun _ => h.items.bind fun hall => .bind (.expect _ _) fun _ => .done ?_
  unfold EqualUnder at hall ⊢
  simp only [unplacedShape, unplacedAll_eq_map, hall]

/-- **A primary form is the same in both layouts.** The next token is of the same kind in both, and
the cases are its kinds. -/
private theorem mirrors_primaryShape :
    Mirrors ρ (EqualUnder unplacedShape) (primaryShape type) (primaryShape type) := by
  have htext : ∀ shape : String → Shape TypeExpr,
      (∀ text, unplacedShape (shape text) = shape text) →
      Mirrors ρ (EqualUnder unplacedShape) (do return shape (← Parser.advance).text)
        (do return shape (← Parser.advance).text) := by
    intro shape hshape
    refine .bind .advance fun ht => .done ?_
    rw [EqualUnder, hshape, hshape]
    exact congrArg (fun w => shape w.text) ht
  have hobject : Mirrors ρ (EqualUnder unplacedShape) (do return .object (← objectType type).1)
      (do return .object (← objectType type).1) := by
    refine (mirrors_objectType h).bind fun ho => .done ?_
    exact SameObject.shape ho
  refine .look_bind .nextKind fun kind => ?_
  split
  · exact mirrors_named h
  · exact htext (fun text => .string (Text.unquote text)) fun _ => rfl
  · exact htext .number fun _ => rfl
  · refine .test (.hasKind 1 .number) (.bind .advance fun _ => ?_) (.reject _ _)
    exact htext (fun text => .number ("-" ++ text)) fun _ => rfl
  · exact htext .bigInt fun _ => rfl
  · exact .bind .advance fun _ => .done rfl
  · exact hobject
  · exact hobject
  · exact mirrors_tuple h
  · exact (mirrors_typeParams h).bind fun _ => mirrors_function h _ _
  · exact .look_bind .nextText fun _ => .reject _ _
  · exact .reject _ _

private theorem mirrors_primary :
    Mirrors ρ (EqualUnder unplaced) (primary type) (primary type) := by
  refine .test (.hasKind 0 .parenOpen) (mirrors_parenthesized h) (.nextStart_bind fun _ _ => ?_)
  refine (mirrors_primaryShape h).bind fun hshape => .spanFrom_bind fun _ _ => .done ?_
  exact equalUnder_mk hshape _ _

/-! ### Operators -/

/-- Brackets behind a type expression are the same in both layouts: whether they stand on its line
is known to both. -/
private theorem mirrors_bracketsLoop (start start' n : ℕ) {t t' : TypeExpr}
    (ht : EqualUnder unplaced t t') :
    Mirrors ρ (EqualUnder unplaced) (bracketsLoop type start n t)
      (bracketsLoop type start' n t') := by
  induction n generalizing t t' with
  | zero => exact .halt _
  | succ n ih =>
    refine .test (Sees.and (.hasKind 0 .bracketOpen) (.not .lineBreakAhead)) ?_ (.done ht)
    refine .bind .advance fun _ => .eat_bind ?_ (h.bind fun hindex => ?_)
    · refine .spanFrom_bind fun _ _ => ih (equalUnder_mk ?_ _ _)
      exact congrArg Shape.array ht
    · refine .bind (.expect _ _) fun _ => .spanFrom_bind fun _ _ => ih (equalUnder_mk ?_ _ _)
      exact congrArg₂ Shape.indexedAccess ht hindex

private theorem mirrors_bracketed :
    Mirrors ρ (EqualUnder unplaced) (bracketed type) (bracketed type) :=
  .nextStart_bind fun start start' => (mirrors_primary h).bind fun ht =>
    .rounds fun n => mirrors_bracketsLoop h start start' n ht

end

private theorem mirrors_operand {inside : Nested}
    (hwhole : Mirrors ρ (EqualUnder unplaced) inside.whole inside.whole)
    (hoperand : Mirrors ρ (EqualUnder unplaced) inside.operand inside.operand) :
    Mirrors ρ (EqualUnder unplaced) (operand inside) (operand inside) := by
  refine .test (.hasKind 0 .question) ?_ (mirrors_bracketed hwhole)
  refine .bind .advance fun _ => hoperand.bind fun ht => .spanFrom_bind fun _ _ => .done ?_
  refine equalUnder_mk ?_ _ _
  exact congrArg Shape.nullable ht

/-- A list with an operator is the same in both layouts if its parts are. -/
private theorem mirrors_joined {operator : Token.Kind} {shape : List TypeExpr → Shape TypeExpr}
    {part : Parser TypeExpr} (hpart : Mirrors ρ (EqualUnder unplaced) part part)
    (hshape : ∀ ts, unplacedShape (shape ts) = shape (unplacedAll ts)) :
    Mirrors ρ (EqualUnder unplaced) (joined operator shape part) (joined operator shape part) := by
  refine .nextStart_bind fun _ _ => .bind (.eat _) fun _ => hpart.bind fun hfirst => ?_
  refine hpart.operands.bind fun {more more'} hmore => ?_
  have hempty : more'.isEmpty = more.isEmpty := by
    rw [← List.isEmpty_map (f := unplaced), hmore, List.isEmpty_map]
  rw [hempty]
  split_ifs
  · exact .done hfirst
  · refine .spanFrom_bind fun _ _ => .done (equalUnder_mk ?_ _ _)
    unfold EqualUnder at hfirst hmore ⊢
    rw [hshape, hshape, unplacedAll_eq_map, unplacedAll_eq_map, List.map_cons, List.map_cons,
      hfirst, hmore]

private theorem mirrors_union {inside : Nested}
    (hoperand : Mirrors ρ (EqualUnder unplaced) (operand inside) (operand inside)) :
    Mirrors ρ (EqualUnder unplaced) (union inside) (union inside) :=
  mirrors_joined (mirrors_joined hoperand fun _ => rfl) fun _ => rfl

/-- **Type expressions are read the same in two layouts**, under the same limit. -/
theorem mirrors_nested (limit : Option ℕ) (n : ℕ) :
    Mirrors ρ (EqualUnder unplaced) (nested limit n).whole (nested limit n).whole ∧
      Mirrors ρ (EqualUnder unplaced) (nested limit n).operand (nested limit n).operand := by
  induction n with
  | zero => exact ⟨.halt _, .halt _⟩
  | succ n ih =>
    have hoperand := mirrors_operand ih.1 ih.2
    exact ⟨(mirrors_union hoperand).nesting, hoperand.nesting⟩

end TypeExpr

end Reifier
