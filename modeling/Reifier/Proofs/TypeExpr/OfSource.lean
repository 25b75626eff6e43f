import Reifier.Proofs.Parser.Forward
import Reifier.Proofs.Token.Places
import Reifier.Proofs.TypeExpr.Depth

/-!
# What type expressions take from a source

A type expression that has been read takes its names and numbers from tokens of the source, and all
its spans lie in the source (`TypeExpr.OfSource`). Each production keeps this, given that the
parsers for the type expressions inside it do. The offsets that spans are made of are all
boundaries: where a token starts, where one that has been taken ends, and the end of the source
(`Cursor.Sourced`).

The same walk over the productions shows that they only go forward.
-/

namespace Reifier

/-! ### Names, numbers and spans -/

/-- An identifier is an identifier token of a source, at its place. -/
def Identifier.OfSource (source : String) (id : Identifier) : Prop :=
  ∃ t ∈ Token.scan source, t.kind = .identifier ∧ id = ⟨t.text, t.span⟩

/-- There are segments, all of them are identifiers of a source, and the span that they cover lies
there. -/
structure QualifiedName.OfSource (source : String) (q : QualifiedName) : Prop where
  ne_nil : q.segments ≠ []
  segments : ∀ id ∈ q.segments, id.OfSource source
  lies : q.span.Lies source.toList

/-- A number is written in a source, and may have a minus sign in front. -/
def IsNumberOf (source spelling : String) : Prop :=
  ∃ t ∈ Token.scan source, t.kind = .number ∧ (spelling = t.text ∨ spelling = "-" ++ t.text)

section Forms

variable {α : Type} (source : String)

/-- The name is one of a source. -/
def Param.OfSource (p : Param α) : Prop := ∀ id ∈ p.name, id.OfSource source

/-- The key, if it is an identifier, and the span are those of a source. -/
structure Property.OfSource (p : Property α) : Prop where
  key : ∀ id, p.key = .identifier id → id.OfSource source
  span : p.span.Lies source.toList

/-- The name and the span are those of a source. -/
structure Indexer.OfSource (i : Indexer α) : Prop where
  id : ∀ id ∈ i.id, id.OfSource source
  span : i.span.Lies source.toList

/-- The members are those of a source. -/
structure ObjectType.OfSource (o : ObjectType α) : Prop where
  properties : ∀ p ∈ o.properties, p.OfSource source
  indexers : ∀ i ∈ o.indexers, i.OfSource source

/-- What a form holds besides its parts is taken from a source. -/
def Shape.OfSource : Shape α → Prop
  | function params rest _ => (∀ p ∈ params, p.OfSource source) ∧ ∀ p ∈ rest, p.OfSource source
  | typeOf target => target.OfSource source
  | object type => type.OfSource source
  | generic ref => ref.name.OfSource source
  | number spelling => IsNumberOf source spelling
  | bigInt spelling => ∃ t ∈ Token.scan source, t.kind = .bigInt ∧ spelling = t.text
  | _ => True

/-- All that a type expression and its parts hold is taken from a source. -/
inductive TypeExpr.OfSource : TypeExpr → Prop
  | mk {shape : Shape TypeExpr} {span : Span} (form : shape.OfSource source)
      (lies : span.Lies source.toList) (parts : ∀ p ∈ shape.parts, OfSource p) :
      OfSource ⟨shape, span⟩

/-- The name and the arguments of a reference are taken from a source. -/
structure Generic.OfSource (g : Generic TypeExpr) : Prop where
  name : g.name.OfSource source
  args : ∀ t ∈ g.args, t.OfSource source

/-- All that a parameter of a declaration holds is taken from a source. -/
structure TypeParam.OfSource (p : TypeParam) : Prop where
  name : p.name.OfSource source
  span : p.span.Lies source.toList
  typeExprs : ∀ t ∈ p.typeExprs, t.OfSource source

end Forms

namespace TypeExpr.OfSource

variable {source : String} {t : TypeExpr}

theorem form (h : t.OfSource source) : t.shape.OfSource source := by
  cases h with
  | mk form lies parts => exact form

theorem parts (h : t.OfSource source) : ∀ p ∈ t.shape.parts, p.OfSource source := by
  cases h with
  | mk form lies parts => exact parts

/-- What is taken from a source may be given another span of it. -/
private theorem respan (h : t.OfSource source) {span : Span} (hspan : span.Lies source.toList) :
    OfSource source ⟨t.shape, span⟩ := .mk h.form hspan h.parts

/-- What holds of a type expression holds of all that is inside it. -/
theorem of_inside {p : TypeExpr} (h : t.OfSource source) (hp : Relation.ReflTransGen IsPart t p) :
    p.OfSource source := by
  induction hp with
  | refl => exact h
  | tail _ hpart ih => exact ih.parts _ hpart

end TypeExpr.OfSource

private theorem Identifier.OfSource.lies {source : String} {id : Identifier}
    (h : id.OfSource source) : id.span.Lies source.toList := by
  obtain ⟨t, ht, -, rfl⟩ := h
  exact Token.lies_of_mem_scan ht

theorem QualifiedName.last_mem_segments (q : QualifiedName) : q.last ∈ q.segments := by
  unfold last segments
  cases hlast : q.tail.getLast? with
  | none => exact List.mem_cons_self
  | some id => exact List.mem_cons_of_mem _ (List.mem_of_getLast? hlast)

/-- From the first segment to the last one lies in the source. -/
private theorem QualifiedName.OfSource.of_segments {source : String} {q : QualifiedName}
    (h : ∀ id ∈ q.segments, id.OfSource source) : q.OfSource source :=
  ⟨List.cons_ne_nil _ _, h, (h _ List.mem_cons_self).lies.cover (h _ q.last_mem_segments).lies⟩

/-! ### Cursors in a source -/

/-- What a cursor has ahead, where it has come to, and what it has reported are in a source. -/
structure Cursor.Sourced (source : String) (c : Cursor) : Prop where
  ahead : ∀ l ∈ c.rest, l.token ∈ Token.scan source
  endOffset : Text.IsBoundary source.toList c.endOffset
  lastEnd : Text.IsBoundary source.toList c.lastEnd
  diagnostics : ∀ d ∈ c.diagnostics, d.span.Lies source.toList

namespace Cursor.Sourced

variable {source : String} {c : Cursor}

theorem mem_scan (h : c.Sourced source) {l : Lexeme} {ls : List Lexeme} (hrest : c.rest = l :: ls) :
    l.token ∈ Token.scan source := h.ahead l (by rw [hrest]; exact List.mem_cons_self)

/-- What is ahead begins at a boundary of the source. -/
theorem nextStart (h : c.Sourced source) : Text.IsBoundary source.toList c.nextStart := by
  unfold Cursor.nextStart
  split
  · exact h.endOffset
  · rename_i l ls hrest
    exact (Token.lies_of_mem_scan (h.mem_scan hrest)).start

/-- What is ahead has its span in the source. -/
theorem nextSpan (h : c.Sourced source) : c.nextSpan.Lies source.toList := by
  unfold Cursor.nextSpan
  split
  · exact Span.lies_point h.endOffset
  · rename_i l ls hrest
    exact Token.lies_of_mem_scan (h.mem_scan hrest)

/-- A span that is read begins and ends at boundaries, and never ends before it begins. -/
theorem spanFrom (h : c.Sourced source) {start : ℕ} (hstart : Text.IsBoundary source.toList start) :
    (c.spanFrom start).Lies source.toList := by
  refine ⟨le_max_right _ _, hstart, ?_⟩
  rcases max_choice c.lastEnd start with hmax | hmax
  · rw [Cursor.spanFrom, hmax]
    exact h.lastEnd
  · rw [Cursor.spanFrom, hmax]
    exact hstart

/-- A report at what is ahead has its span in the source. -/
private theorem report (h : c.Sourced source) (kind : Diagnostic.Kind) (detail : Option String) :
    (c.report kind detail).Sourced source := by
  unfold Cursor.report
  split
  · exact h
  · refine ⟨h.ahead, h.endOffset, h.lastEnd, ?_⟩
    exact List.forall_mem_append.mpr ⟨h.diagnostics, List.forall_mem_singleton.mpr h.nextSpan⟩

/-- A settled cursor is in the source as it was before. -/
theorem settled (h : c.Sourced source) : c.settled.Sourced source := by
  unfold Cursor.settled
  split
  · exact h
  · rename_i l ls hrest
    refine ⟨?_, h.endOffset, h.lastEnd, h.diagnostics⟩
    have hahead := h.ahead
    rw [hrest] at hahead
    obtain ⟨hl, hls⟩ := List.forall_mem_cons.mp hahead
    exact List.forall_mem_cons.mpr ⟨hl, hls⟩

theorem took (h : c.Sourced source) {l : Lexeme} {ls : List Lexeme} (hrest : c.rest = l :: ls) :
    (c.took l ls).Sourced source where
  ahead m hm := h.ahead m (by rw [hrest]; exact List.mem_cons_of_mem l hm)
  endOffset := h.endOffset
  lastEnd := (Token.lies_of_mem_scan (h.mem_scan hrest)).stop
  diagnostics := h.diagnostics

end Cursor.Sourced

/-- Every move stays in the source. -/
instance lasting_sourced (source : String) : Cursor.Lasting (Cursor.Sourced source) where
  reaches := by
    intro c d hc h
    induction h with
    | refl => exact hc
    | trans _ _ ih₁ ih₂ => exact ih₂ (ih₁ hc)
    | take hrest => exact hc.took hrest
    | settle c => exact hc.settled
    | report c kind detail => exact hc.report kind detail
    | rewind _ ih =>
      have hnext := ih hc
      exact ⟨hc.ahead, hnext.endOffset, hnext.lastEnd, hnext.diagnostics⟩
    | nest _ ih =>
      have hnext := ih ⟨hc.ahead, hc.endOffset, hc.lastEnd, hc.diagnostics⟩
      exact ⟨hnext.ahead, hnext.endOffset, hnext.lastEnd, hnext.diagnostics⟩
  back hc hnext := ⟨hc.ahead, hnext.endOffset, hnext.lastEnd, hnext.diagnostics⟩

namespace TypeExpr

open Reifier.Parser (Forward Triple)
open Cursor (Sourced)

variable {α β : Type} {source : String} {type : Parser TypeExpr} {post : β → Prop}

/-! ### Places -/

private theorem forward_nextStart_bind {f : ℕ → Parser β}
    (hf : ∀ start, Text.IsBoundary source.toList start → Forward (Sourced source) post (f start)) :
    Forward (Sourced source) post (Parser.nextStart >>= f) :=
  .look_bind (fun _ hc => hc.nextStart) hf

private theorem forward_spanFrom_bind {f : Span → Parser β} {start : ℕ}
    (hstart : Text.IsBoundary source.toList start)
    (hf : ∀ span, span.Lies source.toList → Forward (Sourced source) post (f span)) :
    Forward (Sourced source) post (Parser.spanFrom start >>= f) :=
  .look_bind (fun _ hc => hc.spanFrom hstart) hf

/-- A token that is taken is one of the source. -/
theorem forward_advance_bind {f : Token → Parser β}
    (hf : ∀ t ∈ Token.scan source, Forward (Sourced source) post (f t)) :
    Forward (Sourced source) post (Parser.advance >>= f) := by
  intro c₀
  have hmem : ∀ (c : Cursor) (l : Lexeme) (ls : List Lexeme), Sourced source c → True →
      c.rest = l :: ls → l.token ∈ Token.scan source := fun _ _ _ hc _ hrest => hc.mem_scan hrest
  exact (Forward.take_bind (fun _ => True) (· ∈ Token.scan source) hmem hf c₀).anti
    fun c hc => ⟨hc, trivial⟩

/-- A token whose kind has been seen is one of this kind. -/
private theorem triple_take_bind {kind : Token.Kind} {f : Token → Parser β}
    (hf : ∀ t ∈ Token.scan source, t.kind = kind → Forward (Sourced source) post (f t))
    (c₀ : Cursor) :
    Triple (fun c => (Sourced source c ∧ c₀.Goes c) ∧ c.hasKind 0 kind = true)
      (Parser.advance >>= f) (fun b c => post b ∧ Sourced source c ∧ c₀.Goes c)
      fun c => (Sourced source c ∧ c₀.Goes c) ∧ c.lastReport ≠ none := by
  refine Forward.take_bind _ (fun t => t ∈ Token.scan source ∧ t.kind = kind) ?_
    (fun t ht => hf t ht.1 ht.2) c₀
  intro c l ls hc hkind hrest
  obtain ⟨l', ls', hrest', hl⟩ := Cursor.hasKind_zero_iff.mp hkind
  rw [hrest] at hrest'
  cases hrest'
  exact ⟨hc.mem_scan hrest, of_decide_eq_true hl⟩

/-! ### Names and arguments -/

theorem forward_identifier :
    Forward (Sourced source) (Identifier.OfSource source) identifier := by
  intro c₀
  refine .test (triple_take_bind (fun t ht hkind => ?_) c₀) (Forward.reject _ _ c₀)
  exact .pure ⟨t, ht, hkind, rfl⟩

/-- The segments of a name are identifiers of the source. -/
private theorem forward_segmentsLoop (rounds : ℕ) :
    Forward (Sourced source) (fun ids => ∀ id ∈ ids, id.OfSource source) (segmentsLoop rounds) := by
  induction rounds with
  | zero => exact .halt _
  | succ rounds ih =>
    refine .test (.any_advance_bind fun _ => ?_) (.pure (List.forall_mem_nil _))
    exact .bind forward_identifier fun id hid => .bind ih fun ids hids =>
      .pure (List.forall_mem_cons.mpr ⟨hid, hids⟩)

private theorem forward_qualifiedName :
    Forward (Sourced source) (QualifiedName.OfSource source) qualifiedName :=
  .bind forward_identifier fun _ hhead => .bind (.rounds forward_segmentsLoop) fun _ htail =>
    .pure (.of_segments (List.forall_mem_cons.mpr ⟨hhead, htail⟩))

private theorem forward_typeArgs (h : Forward (Sourced source) (OfSource source) type) :
    Forward (Sourced source) (fun args => ∀ t ∈ args, t.OfSource source) (typeArgs type) :=
  .expect_bind fun _ => .bind h.items fun _ hargs => .expect_bind fun _ => .pure hargs

theorem forward_generic (h : Forward (Sourced source) (OfSource source) type) :
    Forward (Sourced source) (Generic.OfSource source) (generic type) := by
  refine .bind forward_qualifiedName fun name hname => .test ?_ (.pure ⟨hname, ?_⟩)
  · exact .bind (forward_typeArgs h) fun args hargs => .pure ⟨hname, hargs⟩
  · exact List.forall_mem_nil _

private theorem forward_variance_bind {f : Unit → Parser β}
    (hf : Forward (Sourced source) post (f ())) :
    Forward (Sourced source) post (variance >>= f) := by
  have hvariance : Forward (Sourced source) (fun _ => True) variance :=
    .test (.any_advance_bind fun _ => .pure trivial) (.pure trivial)
  exact .bind hvariance fun _ _ => hf

private theorem forward_typeParam (h : Forward (Sourced source) (OfSource source) type) :
    Forward (Sourced source) (TypeParam.OfSource source) (typeParam type) := by
  refine forward_nextStart_bind fun start hstart => forward_variance_bind ?_
  refine .bind forward_identifier fun name hname => .bind h.after? fun bound hbound => ?_
  refine .bind h.after? fun default hdefault => forward_spanFrom_bind hstart fun span hspan => ?_
  refine .pure ⟨hname, hspan, ?_⟩
  exact List.forall_mem_append.mpr ⟨by simpa using hbound, by simpa using hdefault⟩

theorem forward_typeParams (h : Forward (Sourced source) (OfSource source) type) :
    Forward (Sourced source) (fun ps => ∀ p ∈ ps, TypeParam.OfSource source p)
      (typeParams type) :=
  .expect_bind fun _ => .bind (forward_typeParam h).items fun _ hps =>
    .expect_bind fun _ => .pure hps

/-! ### Functions -/

/-- The name and the type of a parameter are those of a source. -/
def ParamOfSource (source : String) (p : Param TypeExpr) : Prop :=
  p.OfSource source ∧ p.type.OfSource source

/-- A parameter is one of the source, with a name or without one. -/
private theorem forward_param (h : Forward (Sourced source) (OfSource source) type) :
    Forward (Sourced source) (ParamOfSource source) (param type) := by
  refine .test (.bind forward_identifier fun name hname => ?_) (.bind h fun t ht => .pure ⟨?_, ht⟩)
  · have hrest : ∀ optional, Forward (Sourced source) (ParamOfSource source) (do
        let _ ← Parser.advance
        let t ← type
        return ⟨some name, t, optional⟩) := by
      refine fun optional => .any_advance_bind fun _ => .bind h fun t ht => .pure ⟨?_, ht⟩
      rintro id ⟨⟩
      exact hname
    exact .eat_bind (hrest true) (hrest false)
  · rintro id ⟨⟩

/-- The parameters and the rest parameter are those of a source. -/
def ParamsOfSource (source : String) (all : List (Param TypeExpr) × Option (Param TypeExpr)) :
    Prop := (∀ p ∈ all.1, ParamOfSource source p) ∧ ∀ p ∈ all.2, ParamOfSource source p

/-- Parameters are of the source. The induction is on the rounds of the loop. -/
private theorem forward_params (h : Forward (Sourced source) (OfSource source) type) :
    Forward (Sourced source) (ParamsOfSource source) (params type) := by
  have hnone : ∀ p ∈ (none : Option (Param TypeExpr)), ParamOfSource source p := by
    rintro p ⟨⟩
  have hloop : ∀ rounds, Forward (Sourced source) (ParamsOfSource source)
      (paramsLoop type rounds) := by
    intro rounds
    induction rounds with
    | zero => exact .halt _
    | succ rounds ih =>
      refine .test (.pure ⟨List.forall_mem_nil _, hnone⟩) (.eat_bind ?_ ?_)
      · refine .bind (forward_param h) fun rest hrest => ?_
        have hlast : ∀ p ∈ some rest, ParamOfSource source p := by
          rintro p ⟨⟩
          exact hrest
        exact .eat_bind (.pure ⟨List.forall_mem_nil _, hlast⟩)
          (.pure ⟨List.forall_mem_nil _, hlast⟩)
      · refine .bind (forward_param h) fun first hfirst => .eat_bind ?_ ?_
        · refine .bind ih fun all hall => .pure ⟨?_, hall.2⟩
          exact List.forall_mem_cons.mpr ⟨hfirst, hall.1⟩
        · exact .pure ⟨List.forall_mem_singleton.mpr hfirst, hnone⟩
  exact .expect_bind fun _ => .bind (.rounds hloop) fun _ hall => .expect_bind fun _ => .pure hall

/-- A form and its parts are those of a source. -/
structure ShapeOfSource (source : String) (shape : Shape TypeExpr) : Prop where
  form : shape.OfSource source
  parts : ∀ p ∈ shape.parts, p.OfSource source

private theorem ShapeOfSource.spanned {shape : Shape TypeExpr} (h : ShapeOfSource source shape)
    {span : Span} (hspan : span.Lies source.toList) : OfSource source ⟨shape, span⟩ :=
  .mk h.form hspan h.parts

private theorem shapeOfSource_function {all : List (Param TypeExpr) × Option (Param TypeExpr)}
    {result : TypeExpr} (hall : ParamsOfSource source all) (hresult : result.OfSource source) :
    ShapeOfSource source (.function all.1 all.2 result) where
  form := ⟨fun p hp => (hall.1 p hp).1, fun p hp => (hall.2 p hp).1⟩
  parts := Shape.forall_parts_function.mpr
    ⟨fun p hp => (hall.1 p hp).2, fun p hp => (hall.2 p hp).2, hresult⟩

private theorem forward_function (h : Forward (Sourced source) (OfSource source) type)
    (separator : Token.Kind) (spelling : String) :
    Forward (Sourced source) (ShapeOfSource source) (function type separator spelling) :=
  .bind (forward_params h) fun _ hall => .expect_bind fun _ => .bind h fun _ hresult =>
    .pure (shapeOfSource_function hall hresult)

/-- What stands in parentheses is of the source, be it a function or a group. -/
private theorem forward_parenthesized (h : Forward (Sourced source) (OfSource source) type) :
    Forward (Sourced source) (OfSource source) (parenthesized type) := by
  refine forward_nextStart_bind fun start hstart => .test ?_ (.any_advance_bind fun _ => ?_)
  · exact .bind (forward_function h _ _) fun shape hshape =>
      forward_spanFrom_bind hstart fun span hspan => .pure (hshape.spanned hspan)
  · refine .bind h fun inner hinner => .expect_bind fun _ => .eat_bind ?_ ?_
    · refine .bind h fun result hresult => forward_spanFrom_bind hstart fun span hspan => ?_
      have hall : ParamsOfSource source ([⟨none, inner, false⟩], none) := by
        refine ⟨List.forall_mem_singleton.mpr ⟨?_, hinner⟩, ?_⟩
        · rintro id ⟨⟩
        · rintro p ⟨⟩
      exact .pure ((shapeOfSource_function hall hresult).spanned hspan)
    · exact forward_spanFrom_bind hstart fun span hspan => .pure (hinner.respan hspan)

/-! ### Object types -/

private theorem forward_indexerName :
    Forward (Sourced source) (fun id? => ∀ id ∈ id?, id.OfSource source) indexerName := by
  refine .test (.bind forward_identifier fun id hid => .any_advance_bind fun _ => .pure ?_)
    (.pure ?_)
  · rintro id' ⟨⟩
    exact hid
  · rintro id ⟨⟩

/-- An indexer and its parts are those of a source. -/
structure IndexerOfSource (source : String) (i : Indexer TypeExpr) : Prop where
  own : i.OfSource source
  key : i.key.OfSource source
  value : i.value.OfSource source

private theorem forward_indexer (h : Forward (Sourced source) (OfSource source) type) {start : ℕ}
    (hstart : Text.IsBoundary source.toList start) :
    Forward (Sourced source) (IndexerOfSource source) (indexer type start) := by
  refine .any_advance_bind fun _ => .bind forward_indexerName fun id hid => ?_
  refine .bind h fun key hkey => .expect_bind fun _ => .expect_bind fun _ => ?_
  exact .bind h fun value hvalue => forward_spanFrom_bind hstart fun span hspan =>
    .pure ⟨⟨hid, hspan⟩, hkey, hvalue⟩

private theorem forward_propertyKey :
    Forward (Sourced source) (fun key => ∀ id, key = .identifier id → id.OfSource source)
      propertyKey := by
  refine .test (.bind forward_identifier fun id hid => .pure ?_)
    (.test (.any_advance_bind fun _ => .pure ?_) (.reject _ _))
  · rintro id' ⟨⟩
    exact hid
  · rintro id ⟨⟩

/-- A method is a function of the source that begins behind its name. -/
private theorem forward_method (h : Forward (Sourced source) (OfSource source) type) :
    Forward (Sourced source) (OfSource source) (method type) := by
  refine forward_nextStart_bind fun start hstart => ?_
  have hrest : Forward (Sourced source) (OfSource source) (do
      let shape ← function type .colon ":"
      return ⟨shape, ← Parser.spanFrom start⟩) :=
    .bind (forward_function h _ _) fun shape hshape =>
      forward_spanFrom_bind hstart fun span hspan => .pure (hshape.spanned hspan)
  exact .test (.bind (forward_typeParams h) fun _ _ => hrest) hrest

/-- A property and its value are those of a source. -/
structure PropertyOfSource (source : String) (p : Property TypeExpr) : Prop where
  own : p.OfSource source
  value : p.value.OfSource source

/-- A property is of the source. It begins where the member does. -/
private theorem forward_property (h : Forward (Sourced source) (OfSource source) type) {start : ℕ}
    (hstart : Text.IsBoundary source.toList start) :
    Forward (Sourced source) (PropertyOfSource source) (property type start) := by
  refine .bind forward_propertyKey fun key hkey => .test ?_ ?_
  · exact .bind (forward_method h) fun value hvalue =>
      forward_spanFrom_bind hstart fun span hspan => .pure ⟨⟨hkey, hspan⟩, hvalue⟩
  · have hrest : ∀ optional, Forward (Sourced source) (PropertyOfSource source) (do
        let _ ← Parser.expect .colon ":"
        let value ← type
        return ⟨key, value, optional, ← Parser.spanFrom start⟩) := fun optional =>
      .expect_bind fun _ => .bind h fun value hvalue =>
        forward_spanFrom_bind hstart fun span hspan => .pure ⟨⟨hkey, hspan⟩, hvalue⟩
    exact .eat_bind (hrest true) (hrest false)

/-- The members of an object type are those of a source. -/
structure MembersOfSource (source : String) (o : ObjectType TypeExpr) : Prop where
  properties : ∀ p ∈ o.properties, PropertyOfSource source p
  indexers : ∀ i ∈ o.indexers, IndexerOfSource source i

theorem MembersOfSource.shape {o : ObjectType TypeExpr} (h : MembersOfSource source o) :
    ShapeOfSource source (.object o) where
  form := ⟨fun p hp => (h.properties p hp).own, fun i hi => (h.indexers i hi).own⟩
  parts := Shape.forall_parts_object.mpr ⟨fun p hp => (h.properties p hp).value,
    fun i hi => ⟨(h.indexers i hi).key, (h.indexers i hi).value⟩⟩

/-- A member adds what is of the source to an object type. -/
private theorem forward_member (h : Forward (Sourced source) (OfSource source) type) :
    Forward (Sourced source)
      (fun add => ∀ o, MembersOfSource source o → MembersOfSource source (add o))
      (member type) := by
  refine forward_nextStart_bind fun start hstart => forward_variance_bind ?_
  refine .test (.reject _ _) (.test (.reject _ _) (.test ?_ ?_))
  · exact .bind (forward_indexer h hstart) fun i hi => .pure fun o ho =>
      ⟨ho.properties, List.forall_mem_cons.mpr ⟨hi, ho.indexers⟩⟩
  · exact .bind (forward_property h hstart) fun p hp => .pure fun o ho =>
      ⟨List.forall_mem_cons.mpr ⟨hp, ho.properties⟩, ho.indexers⟩

/-- The members that the loop adds are of the source. -/
private theorem forward_membersLoop (h : Forward (Sourced source) (OfSource source) type)
    (exact : Bool) (close : Token.Kind) (spelling : String) (rounds : ℕ) :
    Forward (Sourced source) (MembersOfSource source)
      (membersLoop type exact close spelling rounds) := by
  have hempty : MembersOfSource source ⟨[], [], exact⟩ :=
    ⟨List.forall_mem_nil _, List.forall_mem_nil _⟩
  induction rounds with
  | zero => exact .halt _
  | succ rounds ih =>
    refine .test (.pure hempty) (.test (.reject _ _) (.bind (forward_member h) fun add hadd => ?_))
    refine .test (.any_advance_bind fun _ => .bind ih fun o ho => .pure (hadd o ho)) ?_
    exact .test (.pure (hadd _ hempty)) (.test (.reject _ _) (.reject _ _))

/-- An object type is of the source, as is its span. -/
theorem forward_objectType (h : Forward (Sourced source) (OfSource source) type) :
    Forward (Sourced source) (fun o => MembersOfSource source o.1 ∧ o.2.Lies source.toList)
      (objectType type) := by
  refine forward_advance_bind fun opening hopening => ?_
  have hstart := (Token.lies_of_mem_scan hopening).start
  have hlast : ∀ o : ObjectType TypeExpr, MembersOfSource source o →
      Forward (Sourced source) (fun o => MembersOfSource source o.1 ∧ o.2.Lies source.toList)
        (do
          let _ ← Parser.advance
          return (o, ← Parser.spanFrom opening.span.start)) := fun o ho =>
    .any_advance_bind fun _ => forward_spanFrom_bind hstart fun span hspan => .pure ⟨ho, hspan⟩
  have hmembers := fun exact close spelling =>
    Forward.rounds fun rounds => forward_membersLoop h exact close spelling rounds
  dsimp only
  split
  · exact .bind (hmembers _ _ _) hlast
  · exact .bind (hmembers _ _ _) hlast

/-! ### Primary forms -/

/-- A form that holds nothing. -/
private theorem shapeOfSource_of_nil {shape : Shape TypeExpr} (hform : shape.OfSource source)
    (hparts : shape.parts = []) : ShapeOfSource source shape := by
  refine ⟨hform, ?_⟩
  rw [hparts]
  exact List.forall_mem_nil _

/-- A named form is of the source. The cases are the names with a meaning of their own and all
others. -/
private theorem forward_named (h : Forward (Sourced source) (OfSource source) type) :
    Forward (Sourced source) (ShapeOfSource source) (named type) := by
  refine .any_look_bind fun word => .test (.any_advance_bind fun _ => ?_) ?_
  · exact .bind forward_qualifiedName fun q hq => .pure (shapeOfSource_of_nil hq rfl)
  · split
    · exact .any_advance_bind fun _ => .pure (shapeOfSource_of_nil trivial rfl)
    · cases Keyword.ofSpelling? word with
      | some keyword =>
        exact .any_advance_bind fun _ => .pure (shapeOfSource_of_nil trivial rfl)
      | none => exact .bind (forward_generic h) fun g hg => .pure ⟨hg.name, hg.args⟩

private theorem forward_tuple (h : Forward (Sourced source) (OfSource source) type) :
    Forward (Sourced source) (ShapeOfSource source) (tuple type) :=
  .any_advance_bind fun _ => .bind h.items fun _ hall => .expect_bind fun _ =>
    .pure ⟨trivial, hall⟩

private theorem hasKind_zero_of_nextKind {c : Cursor} {kind : Token.Kind}
    (h : c.rest.head?.map (·.token.kind) = some kind) : c.hasKind 0 kind = true := by
  obtain ⟨l, hl, hkind⟩ := Option.map_eq_some_iff.mp h
  obtain ⟨ls, hrest⟩ := List.head?_eq_some_iff.mp hl
  exact Cursor.hasKind_zero_iff.mpr ⟨l, ls, hrest, decide_eq_true hkind⟩

/-- **A primary form is of the source.** The cases are the kinds of the next token: numbers, strings
and names are texts of tokens, and the other forms are made of type expressions of the source. -/
private theorem forward_primaryShape (h : Forward (Sourced source) (OfSource source) type) :
    Forward (Sourced source) (ShapeOfSource source) (primaryShape type) := by
  intro c₀
  refine .look_bind fun kind? => ?_
  -- The kind that has been seen matters only where the text of the token is kept.
  have hany : ∀ {p : Parser (Shape TypeExpr)}, Forward (Sourced source) (ShapeOfSource source) p →
      Triple (fun c => (Sourced source c ∧ c₀.Goes c) ∧
          c.rest.head?.map (·.token.kind) = kind?) p
        (fun shape c => ShapeOfSource source shape ∧ Sourced source c ∧ c₀.Goes c)
        fun c => (Sourced source c ∧ c₀.Goes c) ∧ c.lastReport ≠ none :=
    fun hp c hc => hp c₀ c hc.1
  cases kind? with
  | none => exact hany (.reject _ _)
  | some kind =>
    have htake : ∀ make : String → Shape TypeExpr, (∀ t ∈ Token.scan source, t.kind = kind →
        ShapeOfSource source (make t.text)) →
        Triple (fun c => (Sourced source c ∧ c₀.Goes c) ∧
            c.rest.head?.map (·.token.kind) = some kind)
          (do return make (← Parser.advance).text)
          (fun shape c => ShapeOfSource source shape ∧ Sourced source c ∧ c₀.Goes c)
          fun c => (Sourced source c ∧ c₀.Goes c) ∧ c.lastReport ≠ none := fun make hmake =>
      (triple_take_bind (fun t ht hkind => .pure (hmake t ht hkind)) c₀).anti fun c hc =>
        ⟨hc.1, hasKind_zero_of_nextKind hc.2⟩
    cases kind with
    | identifier => exact hany (forward_named h)
    | string =>
      have hstring : ∀ value, ShapeOfSource source (.string value) := fun value =>
        shapeOfSource_of_nil trivial rfl
      exact htake (fun text => .string (Text.unquote text)) fun t _ _ => hstring _
    | number => exact htake _ fun t ht hkind => shapeOfSource_of_nil ⟨t, ht, hkind, .inl rfl⟩ rfl
    | minus =>
      have hnumber : ∀ t ∈ Token.scan source, t.kind = .number →
          ShapeOfSource source (.number ("-" ++ t.text)) := fun t ht hkind =>
        shapeOfSource_of_nil ⟨t, ht, hkind, .inr rfl⟩ rfl
      refine .test (.advance_bind (fun c l ls hc hrest => ?_) fun _ =>
        triple_take_bind (fun t ht hkind => .pure (hnumber t ht hkind)) c₀) (hany (.reject _ _))
      obtain ⟨⟨⟨hc, hgoes⟩, -⟩, hsecond⟩ := hc
      refine ⟨⟨hc.took hrest, hgoes.trans ⟨[l], .take hrest⟩⟩, ?_⟩
      rwa [Cursor.hasKind_took hrest]
    | bigInt => exact htake _ fun t ht hkind => shapeOfSource_of_nil ⟨t, ht, hkind, rfl⟩ rfl
    | star => exact hany (.any_advance_bind fun _ => .pure (shapeOfSource_of_nil trivial rfl))
    | braceOpen => exact hany (.bind (forward_objectType h) fun o ho => .pure ho.1.shape)
    | braceBarOpen => exact hany (.bind (forward_objectType h) fun o ho => .pure ho.1.shape)
    | bracketOpen => exact hany (forward_tuple h)
    | less => exact hany (.bind (forward_typeParams h) fun _ _ => forward_function h _ _)
    | unexpected => exact hany (.any_look_bind fun _ => .reject _ _)
    | _ => exact hany (.reject _ _)

private theorem forward_primary (h : Forward (Sourced source) (OfSource source) type) :
    Forward (Sourced source) (OfSource source) (primary type) := by
  refine .test (forward_parenthesized h) (forward_nextStart_bind fun start hstart => ?_)
  exact .bind (forward_primaryShape h) fun shape hshape =>
    forward_spanFrom_bind hstart fun span hspan => .pure (hshape.spanned hspan)

/-! ### Operators -/

/-- Brackets behind a type expression of the source make one whose span begins where the first one
does. -/
private theorem forward_bracketsLoop (h : Forward (Sourced source) (OfSource source) type)
    {start : ℕ} (hstart : Text.IsBoundary source.toList start) (rounds : ℕ) {t : TypeExpr}
    (ht : t.OfSource source) :
    Forward (Sourced source) (OfSource source) (bracketsLoop type start rounds t) := by
  induction rounds generalizing t with
  | zero => exact .halt _
  | succ rounds ih =>
    refine .test (.any_advance_bind fun _ => .eat_bind ?_ (.bind h fun index hindex => ?_)) (.pure ht)
    · exact forward_spanFrom_bind hstart fun span hspan =>
        ih (.mk trivial hspan (List.forall_mem_singleton.mpr ht))
    · refine .expect_bind fun _ => forward_spanFrom_bind hstart fun span hspan =>
        ih (.mk trivial hspan ?_)
      exact List.forall_mem_cons.mpr ⟨ht, List.forall_mem_singleton.mpr hindex⟩

private theorem forward_bracketed (h : Forward (Sourced source) (OfSource source) type) :
    Forward (Sourced source) (OfSource source) (bracketed type) :=
  forward_nextStart_bind fun _ hstart => .bind (forward_primary h) fun _ ht =>
    .rounds fun rounds => forward_bracketsLoop h hstart rounds ht

variable {inside : Nested}

private theorem forward_operand (hwhole : Forward (Sourced source) (OfSource source) inside.whole)
    (hoperand : Forward (Sourced source) (OfSource source) inside.operand) :
    Forward (Sourced source) (OfSource source) (operand inside) := by
  refine .test (forward_advance_bind fun token htoken => ?_) (forward_bracketed hwhole)
  refine .bind hoperand fun t ht =>
    forward_spanFrom_bind (Token.lies_of_mem_scan htoken).start fun span hspan => ?_
  exact .pure (.mk trivial hspan (List.forall_mem_singleton.mpr ht))

/-- A list with an operator is of the source if its parts are. A single part is left as it is. -/
private theorem forward_joined {part : Parser TypeExpr} {shape : List TypeExpr → Shape TypeExpr}
    (hshape : ∀ ts, (shape ts).OfSource source ∧ (shape ts).parts = ts) (operator : Token.Kind)
    (h : Forward (Sourced source) (OfSource source) part) :
    Forward (Sourced source) (OfSource source) (joined operator shape part) := by
  refine forward_nextStart_bind fun start hstart => ?_
  have hrest : Forward (Sourced source) (OfSource source) (do
      let first ← part
      let more ← Parser.operands operator part
      if more.isEmpty then return first
      else return ⟨shape (first :: more), ← Parser.spanFrom start⟩) := by
    refine .bind h fun first hfirst => .bind h.operands fun more hmore => ?_
    split
    · exact .pure hfirst
    · refine forward_spanFrom_bind hstart fun span hspan => .pure (.mk (hshape _).1 hspan ?_)
      rw [(hshape _).2]
      exact List.forall_mem_cons.mpr ⟨hfirst, hmore⟩
  exact .eat_bind hrest hrest

private theorem forward_union (hwhole : Forward (Sourced source) (OfSource source) inside.whole)
    (hoperand : Forward (Sourced source) (OfSource source) inside.operand) :
    Forward (Sourced source) (OfSource source) (union inside) := by
  have hunion : ∀ ts, Shape.OfSource source (.union ts : Shape TypeExpr) ∧
      (Shape.union ts).parts = ts := fun _ => ⟨trivial, rfl⟩
  have hintersection : ∀ ts, Shape.OfSource source (.intersection ts : Shape TypeExpr) ∧
      (Shape.intersection ts).parts = ts := fun _ => ⟨trivial, rfl⟩
  exact forward_joined hunion _ (forward_joined hintersection _ (forward_operand hwhole hoperand))

/-- **What is read as a type expression is taken from the source**, under any limit. -/
theorem forward_nested (source : String) (limit : Option ℕ) (knots : ℕ) :
    Forward (Sourced source) (OfSource source) (nested limit knots).whole ∧
      Forward (Sourced source) (OfSource source) (nested limit knots).operand := by
  have hentered : ∀ c : Cursor, c.Sourced source → c.entered.Sourced source := fun c hc =>
    ⟨hc.ahead, hc.endOffset, hc.lastEnd, hc.diagnostics⟩
  have hleft : ∀ c : Cursor, c.Sourced source → c.left.Sourced source := fun c hc =>
    ⟨hc.ahead, hc.endOffset, hc.lastEnd, hc.diagnostics⟩
  induction knots with
  | zero => exact ⟨.halt _, .halt _⟩
  | succ knots ih =>
    exact ⟨.nesting hentered hleft (forward_union ih.1 ih.2),
      .nesting hentered hleft (forward_operand ih.1 ih.2)⟩

end TypeExpr

end Reifier
