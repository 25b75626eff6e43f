import Reifier.Proofs.Expr.Unambiguous
import Reifier.Proofs.Number
import Reifier.Proofs.Program.Inside
import Reifier.Proofs.TypeExpr.Building

/-!
# Counterparts are told apart by their printed form

The counterpart of a type of a source can stand where a type is expected in a call of the library
(`fits_reify`), so the counterparts of two types are equal if they are printed alike
(`eq_of_render_reify_eq`). This rests on names of a source being identifiers and on its numbers
being spelled with digits, and on the binding of the library being a name: were it `a.b`, then the
type of strings and a reference `a.b.String` would be printed alike
(`exists_render_eq_of_dotted`).
-/

namespace Reifier

/-! ### Names and numbers of a source -/

section Source

variable {source : String}

private theorem Identifier.OfSource.isIdentifier {id : Identifier} (h : id.OfSource source) :
    Name.isIdentifier id.name = true := by
  obtain ⟨t, ht, hkind, rfl⟩ := h
  have hspells := Token.spells_of_mem_scan ht
  rwa [hkind] at hspells

/-- A qualified name of a source is a dotted name. -/
private theorem QualifiedName.OfSource.isDotted {q : QualifiedName} (h : q.OfSource source) :
    q.toExpr.IsDotted := by
  obtain ⟨hhead, htail⟩ := List.forall_mem_cons.mp h.segments
  have hfold : ∀ (ids : List Identifier) (object : Expr), object.IsDotted →
      (∀ id ∈ ids, id.OfSource source) →
      (ids.foldl (fun object id => Expr.member object id.name) object).IsDotted := by
    intro ids
    induction ids with
    | nil => exact fun _ hobject _ => hobject
    | cons id ids ih =>
      intro object hobject hids
      obtain ⟨hid, hids⟩ := List.forall_mem_cons.mp hids
      exact ih _ (.member hobject hid.isIdentifier) hids
  exact hfold q.tail _ (.ident hhead.isIdentifier) htail

/-- A number of a source is a numeral, with a sign or without one. -/
private theorem isNumeral_of_isNumberOf {spelling : String} (h : IsNumberOf source spelling) :
    IsNumeral spelling := by
  obtain ⟨t, ht, hkind, hspelling⟩ := h
  have hspells := Token.spells_of_mem_scan ht
  have hmatches := Token.matches_of_mem_scan ht (hkind ▸ Token.Kind.noConfusion)
  rw [hkind] at hspells hmatches
  obtain ⟨c, cs, hcs, hc, -⟩ := Number.isNumber_of_matches hmatches
  rcases hspelling with rfl | rfl
  · exact ⟨⟨c, cs, hcs, .inl hc⟩, hspells⟩
  · have hchars : ("-" ++ t.text).toList = '-' :: t.text.toList := by
      rw [String.toList_append]
      rfl
    refine ⟨⟨'-', _, hchars, .inr rfl⟩, ?_⟩
    rw [hchars]
    exact List.forall_mem_cons.mpr ⟨by decide, hspells⟩

end Source

/-! ### Calls of the library -/

namespace Library

variable {lib : Library}

/-- Arguments stand at their positions. -/
def FitAll (lib : Library) (slot : ℕ → Slot) (args : List Expr) : Prop :=
  ∀ (i : ℕ) (e : Expr), args[i]? = some e → Fits lib (slot i) e

theorem FitAll.nil (slot : ℕ → Slot) : FitAll lib slot [] := fun _ _ h => nomatch h

/-- The positions of the arguments behind the first one are shifted by one. -/
theorem FitAll.cons {slot : ℕ → Slot} {e : Expr} {args : List Expr} (he : Fits lib (slot 0) e)
    (h : FitAll lib (fun i => slot (i + 1)) args) : FitAll lib slot (e :: args) := by
  intro i d hd
  cases i with
  | zero =>
    obtain rfl : e = d := Option.some.inj hd
    exact he
  | succ i => exact h i d hd

private theorem fitAll_nameArg {slot : ℕ → Slot} (h : slot 0 = .text) (name : Option String) :
    FitAll lib slot (nameArg name) := by
  cases name with
  | none => exact .nil slot
  | some value => exact .cons (h ▸ .text value) (.nil _)

private theorem fits_primitive (hlib : Name.isIdentifier lib.binding = true) (p : Primitive) :
    Fits lib .type (lib.primitive p) :=
  .name (.member (.ident hlib) (by cases p <;> decide))

/-- A call of a combinator with one argument before the display name. -/
private theorem fits_call_one {c : Combinator} {e : Expr}
    (h : Fits lib ((Callee.combinator c).slot 0) e)
    (hlast : (Callee.combinator c).slot 1 = .text) (name : Option String) :
    Fits lib .type (lib.call c [e] name) :=
  .call (.combinator c) (FitAll.cons h (fitAll_nameArg hlast name))

/-- A call of a combinator with two arguments before the display name. -/
private theorem fits_call_two {c : Combinator} {e d : Expr}
    (h : Fits lib ((Callee.combinator c).slot 0) e) (h' : Fits lib ((Callee.combinator c).slot 1) d)
    (hlast : (Callee.combinator c).slot 2 = .text) (name : Option String) :
    Fits lib .type (lib.call c [e, d] name) :=
  .call (.combinator c) (FitAll.cons h (.cons h' (fitAll_nameArg hlast name)))

private theorem fits_enums (values : List String) (name : Option String) :
    Fits lib .type (lib.enums values name) := by
  have hvalues : Fits lib (.list .text) (.array (values.map Expr.string)) :=
    .list (List.forall_mem_map.mpr fun value _ => .text value)
  exact .call .enumsOf (FitAll.cons hvalues (fitAll_nameArg rfl name))

/-- The descriptor of a call fits. The cases are those of a name and of strictness. -/
private theorem fits_descriptor {name : Option String} {strict : Bool} :
    ∀ e ∈ (descriptor? name strict).toList, Fits lib .descriptor e := by
  have hstrict : Fits lib (Slot.ofKey "strict") (.bool true) := .flag true
  have hname : ∀ name, Fits lib (Slot.ofKey "name") (.string name) := .text
  cases name with
  | none =>
    cases strict with
    | false => exact List.forall_mem_nil _
    | true =>
      refine List.forall_mem_singleton.mpr (.descriptor (.entries ?_))
      exact List.forall_mem_singleton.mpr hstrict
  | some name =>
    cases strict with
    | false => exact List.forall_mem_singleton.mpr (.display name)
    | true =>
      refine List.forall_mem_singleton.mpr (.descriptor (.entries ?_))
      exact List.forall_mem_cons.mpr ⟨hname name, List.forall_mem_singleton.mpr hstrict⟩

private theorem fits_interface {properties : List (String × Expr)}
    (h : ∀ p ∈ properties, Fits lib .type p.2) (name : Option String) (strict : Bool) :
    Fits lib .type (lib.interface properties name strict) := by
  have hproperties : Fits lib (.entries fun _ => .type) (.object properties) := .entries h
  have hrest : FitAll lib (fun _ => .descriptor) (descriptor? name strict).toList := fun _ _ he =>
    fits_descriptor _ (List.mem_of_getElem? he)
  exact .call (.combinator .interface) (FitAll.cons hproperties hrest)

private theorem fits_literal (hlib : Name.isIdentifier lib.binding = true) (base : Primitive)
    {param : String} (hparam : Name.isIdentifier param = true) {value : Expr}
    (h : Fits lib .literal value) : Fits lib .type (lib.literal base param value) := by
  have htest : Fits lib .predicate (.function (some param) (.strictEq (.ident param) value)) := by
    refine .function ?_ (.strictEq hparam h)
    rintro name ⟨⟩
    exact hparam
  exact fits_call_two (c := .refinement) (fits_primitive hlib base) htest rfl none

private theorem fits_empty : Fits lib .type lib.empty := by
  have hnever : Fits lib .predicate (.function none (.bool false)) :=
    .function (fun _ h => nomatch h) (.verdict false)
  exact fits_call_two (c := .irreducible) (.text "Empty") hnever rfl none

end Library

/-! ### Types -/

namespace TypeExpr

open Library (fits_call_one fits_call_two)

variable {source : String} {ctx : TypeContext} {t u : TypeExpr} {es : List Expr}
  {name : Option String} {e : Expr}

/-- Components are taken from the source that the whole is taken from. -/
private theorem OfSource.component (h : t.OfSource source) (hu : u ∈ t.components ctx) :
    u.OfSource source := by
  obtain ⟨shape, span⟩ := t
  have hparts := h.parts
  cases shape with
  | array element => exact hparts u hu
  | nullable inner => exact hparts u hu
  | tuple items => exact hparts u hu
  | union members =>
    unfold components at hu
    dsimp only at hu
    split_ifs at hu
    · cases hu
    · exact hparts u hu
  | intersection members => exact hparts u hu
  | object type =>
    obtain ⟨hproperties, hindexers⟩ := Shape.forall_parts_object.mp hparts
    have hmem : u ∈ type.components := hu
    unfold ObjectType.components at hmem
    -- An indexer alone has the components; otherwise the properties have them.
    split at hmem
    · rename_i i hi
      obtain ⟨hkey, hvalue⟩ := hindexers i (hi ▸ List.mem_cons_self)
      rcases List.mem_cons.mp hmem with rfl | hmem
      · exact hkey
      · exact List.mem_singleton.mp hmem ▸ hvalue
    · exact List.forall_mem_map.mpr hproperties u hmem
  | generic g =>
    unfold components at hu
    dsimp only at hu
    split at hu
    · rename_i element hreferent
      exact List.mem_singleton.mp hu ▸ hparts element (mem_args_of_referent_list hreferent)
    · rename_i properties hreferent
      obtain ⟨type, place, hmem, rfl⟩ := exists_args_of_referent_strict hreferent
      have hproperties := (Shape.forall_parts_object.mp (hparts _ hmem).parts).1
      exact List.forall_mem_map.mpr hproperties u hu
    · cases hu
  | _ => cases hu

/-- Types for all properties fit as their types. -/
private theorem fits_entries {lib : Library} {properties : List (Property TypeExpr)}
    (hes : ∀ e ∈ es, Fits lib .type e) :
    ∀ p ∈ entries lib properties es, Fits lib .type p.2 := by
  induction properties generalizing es with
  | nil => exact List.forall_mem_nil _
  | cons p properties ih =>
    cases es with
    | nil => exact List.forall_mem_nil _
    | cons e es =>
      obtain ⟨he, hes⟩ := List.forall_mem_cons.mp hes
      refine List.forall_mem_cons.mpr ⟨?_, ih hes⟩
      dsimp only
      split_ifs
      · exact fits_call_one (c := .maybe) he rfl none
      · exact he

/-- Refinements by dotted names fit. The induction is on the names. -/
private theorem fits_refineAll {lib : Library} {base : Expr} (hbase : Fits lib .type base)
    {ps : List Expr} (hps : ∀ p ∈ ps, p.IsDotted) (name : Option String) :
    Fits lib .type (refineAll lib name base ps) := by
  induction ps generalizing base with
  | nil => exact hbase
  | cons p ps ih =>
    obtain ⟨hp, hps⟩ := List.forall_mem_cons.mp hps
    exact ih (fits_call_two (c := .refinement) hbase (.predicate hp) rfl name) hps

/-- The predicates of an intersection of a source are dotted names. -/
private theorem isDotted_of_mem_predicates {members : List TypeExpr}
    (h : ∀ m ∈ members, m.OfSource source) : ∀ p ∈ predicates ctx members, p.IsDotted := by
  intro p hp
  obtain ⟨target, htarget, rfl⟩ := List.mem_map.mp hp
  obtain ⟨m, hm, hsome⟩ := List.mem_filterMap.mp htarget
  obtain ⟨shape, span⟩ := m
  unfold predicateTarget? at hsome
  split at hsome
  · rename_i g hshape
    split at hsome
    · rename_i target' place hargs
      split_ifs at hsome
      cases hsome
      obtain rfl : shape = .generic g := hshape
      have harg : ⟨.typeOf target, place⟩ ∈ g.args := hargs ▸ List.mem_cons_self
      exact QualifiedName.OfSource.isDotted ((h _ hm).parts _ harg).form
    · cases hsome
  · cases hsome

/-- What an object type becomes fits if its components do. -/
private theorem fits_buildObject {lib : Library} {type : ObjectType TypeExpr}
    (hes : ∀ e ∈ es, Fits lib .type e) (hlength : es.length = type.components.length) :
    Fits lib .type (buildObject lib type es name) := by
  obtain ⟨properties, _ | ⟨i, _ | _⟩, strict⟩ := type
  · exact Library.fits_interface (fits_entries hes) name strict
  · obtain ⟨domain, codomain, rfl⟩ := List.length_eq_two.mp hlength
    obtain ⟨hdomain, hcodomain⟩ := List.forall_mem_cons.mp hes
    exact fits_call_two (c := .dict) hdomain (hcodomain codomain List.mem_cons_self) rfl name
  · exact Library.fits_interface (fits_entries hes) name strict

/-- What a reference becomes fits if its components do. The cases are those of what it stands
for. -/
private theorem fits_buildReferent {lib : Library} (hlib : Name.isIdentifier lib.binding = true)
    {g : Generic TypeExpr} (span : Span) (hname : g.name.OfSource source)
    (hes : ∀ e ∈ es, Fits lib .type e)
    (hlength : es.length = (components ctx ⟨.generic g, span⟩).length) :
    Fits lib .type (buildReferent lib g.name es name (ctx.referent g)) := by
  cases hreferent : ctx.referent g with
  | list element =>
    rw [components_list hreferent] at hlength
    obtain ⟨d, rfl⟩ := List.length_eq_one_iff.mp hlength
    exact fits_call_one (c := .list) (hes d List.mem_cons_self) rfl name
  | strict properties => exact Library.fits_interface (fits_entries hes) name true
  | bound => exact .name hname.isDotted
  | malformed problem => exact Library.fits_empty
  | _ => exact Library.fits_primitive hlib _

/-- **One step.** What a type is built into can stand for a type if what its components become
can. -/
theorem fits_build (hlib : Name.isIdentifier ctx.library.binding = true) (h : t.OfSource source)
    (hes : ∀ e ∈ es, Fits ctx.library .type e)
    (hlength : es.length = (t.typeComponents ctx).length) :
    Fits ctx.library .type (t.build ctx es name) := by
  obtain ⟨shape, span⟩ := t
  cases shape with
  -- => Types without a counterpart are given an empty one, which fits as well.
  | keyword word =>
    cases word with
    | symbol => exact Library.fits_empty
    | empty => exact Library.fits_empty
    | _ => exact Library.fits_primitive hlib _
  | function params rest result => exact Library.fits_primitive hlib _
  | typeOf target => exact Library.fits_primitive hlib _
  | array element =>
    obtain ⟨d, rfl⟩ := List.length_eq_one_iff.mp hlength
    exact fits_call_one (c := .list) (hes d List.mem_cons_self) rfl name
  | nullable inner =>
    obtain ⟨d, rfl⟩ := List.length_eq_one_iff.mp hlength
    exact fits_call_one (c := .maybe) (hes d List.mem_cons_self) rfl name
  | tuple items => exact fits_call_one (c := .tuple) (.list hes) rfl name
  | union members =>
    unfold build buildUnion
    dsimp only
    cases literals? members with
    | some values => exact Library.fits_enums values name
    | none => exact fits_call_one (c := .union) (.list hes) rfl name
  | intersection members =>
    refine fits_refineAll ?_ (isDotted_of_mem_predicates h.parts) name
    unfold buildBase
    split
    · exact hes _ List.mem_cons_self
    · exact fits_call_one (c := .intersection) (.list hes) rfl name
  | object type => exact fits_buildObject hes hlength
  | generic g => exact fits_buildReferent hlib span h.form hes hlength
  | string value => exact Library.fits_enums [value] name
  | number spelling =>
    exact Library.fits_literal hlib .number (by decide) (.number (isNumeral_of_isNumberOf h.form))
  | boolean value => exact Library.fits_literal hlib .boolean (by decide) (.bool value)
  | bigInt spelling => exact Library.fits_empty
  | indexedAccess object index => exact Library.fits_empty

/-- Each counterpart is that of a type expression. -/
private theorem Counterparts.exists_of_mem {ts : List TypeExpr} (h : Counterparts ctx ts es)
    (he : e ∈ es) : ∃ t ∈ ts, reify ctx t none = .ok e := by
  induction h with
  | nil => cases he
  | @cons t d ts es hd _ ih =>
    rcases List.mem_cons.mp he with rfl | he
    · exact ⟨t, List.mem_cons_self, hd⟩
    · obtain ⟨u, hu, hreify⟩ := ih he
      exact ⟨u, List.mem_cons_of_mem t hu, hreify⟩

/-- The counterpart of a type of a source can stand for a type. -/
theorem fits_reify (hlib : Name.isIdentifier ctx.library.binding = true) (ht : t.OfSource source)
    (h : reify ctx t name = .ok e) : Fits ctx.library .type e := by
  induction t using components_induction ctx generalizing name e with
  | h t ih =>
    obtain ⟨es, hes, hbuilt⟩ := isBuilt_of_reify h
    obtain rfl : e = t.build ctx es name := Except.ok.inj (h.symm.trans (hbuilt name))
    refine fits_build hlib ht (fun d hd => ?_) hes.length_eq.symm
    obtain ⟨u, hu, hd⟩ := hes.exists_of_mem hd
    have hcomponent := typeComponents_subset hu
    exact ih u hcomponent (ht.component hcomponent) hd

end TypeExpr

namespace Program

open TypeExpr

/-- **Printed combinators are unambiguous.** The counterparts of two types of any programs, made for
one binding of the library with whatever type parameters, globals and display names, are equal if
they are printed alike. -/
theorem eq_of_render_reify_eq {limit limit' : Option ℕ} {source source' : String}
    {reading reading' : Reading} (hparse : parse limit source = .ok reading)
    (hparse' : parse limit' source' = .ok reading') {t t' : TypeExpr}
    (ht : reading.program.Holds t) (ht' : reading'.program.Holds t') {ctx ctx' : TypeContext}
    (hlibrary : ctx'.library = ctx.library)
    (hbinding : Name.isIdentifier ctx.library.binding = true) {name name' : Option String}
    {e e' : Expr} (he : reify ctx t name = .ok e) (he' : reify ctx' t' name' = .ok e')
    (hprinted : e.render 0 = e'.render 0) : e = e' := by
  have hfits := fits_reify hbinding (ht.ofSource hparse) he
  have hfits' := fits_reify (hlibrary ▸ hbinding) (ht'.ofSource hparse') he'
  rw [hlibrary] at hfits'
  exact hfits.eq_of_render_eq hbinding hfits' hprinted

/-- The printed counterparts of the types of a source, as far as they have one. -/
def printedOf (ctx : TypeContext) (source : String) : Option (List (Option String)) :=
  (parse none source).toOption.map fun reading =>
    (reading.program.declarations.flatMap Declaration.typeExprs).map fun t =>
      (reify ctx t none).toOption.map (Expr.render 0)

/-- What is printed for a source comes from a type expression that is read in it and reified. -/
private theorem exists_of_printedOf {ctx : TypeContext} {source printed : String}
    (h : printedOf ctx source = some [some printed]) :
    ∃ reading t e, parse none source = .ok reading ∧ reading.program.Holds t ∧
      reify ctx t none = .ok e ∧ e.render 0 = printed := by
  unfold printedOf at h
  cases hparse : parse none source with
  | error cause =>
    rw [hparse] at h
    cases h
  | ok reading =>
    rw [hparse] at h
    simp only [Except.toOption, Option.map_some, Option.some.injEq,
      List.map_eq_singleton_iff] at h
    obtain ⟨t, hroots, hprinted⟩ := h
    have hroot : t ∈ reading.program.declarations.flatMap Declaration.typeExprs := by
      rw [hroots]
      exact List.mem_cons_self
    obtain ⟨decl, hdecl, hroot⟩ := List.mem_flatMap.mp hroot
    cases hreify : reify ctx t none with
    | error refusal =>
      rw [hreify] at hprinted
      cases hprinted
    | ok e =>
      rw [hreify] at hprinted
      exact ⟨reading, t, e, rfl, ⟨decl, hdecl, t, hroot, .refl⟩, hreify,
        Option.some.inj hprinted⟩

/-- The context without type parameters and names declared elsewhere. -/
def bareContext (binding : String) : TypeContext := ⟨⟨binding⟩, .empty, .empty⟩

/-- The object types `{| a: string |}` and `$Exact<{ a: string }>` are printed alike, so they have
the same counterpart. -/
theorem eq_of_render_reify_eq_exact :
    ∃ reading reading' t t' e e',
      parse none "type A = {| a: string |}" = .ok reading ∧
      parse none "type B = $Exact<{ a: string }>" = .ok reading' ∧
      reading.program.Holds t ∧ reading'.program.Holds t' ∧
      Name.isIdentifier (bareContext "_t").library.binding = true ∧
      reify (bareContext "_t") t none = .ok e ∧ reify (bareContext "_t") t' none = .ok e' ∧
      e.render 0 = "_t.interface(\x7b\n  a: _t.String\n\x7d, \x7b\n  strict: true\n\x7d)" ∧
      e'.render 0 = e.render 0 ∧ e = e' := by
  have hbinding : Name.isIdentifier (bareContext "_t").library.binding = true := by decide
  have hfirst : printedOf (bareContext "_t") "type A = {| a: string |}" =
      some [some "_t.interface(\x7b\n  a: _t.String\n\x7d, \x7b\n  strict: true\n\x7d)"] := by
    decide +kernel
  have hsecond : printedOf (bareContext "_t") "type B = $Exact<{ a: string }>" =
      some [some "_t.interface(\x7b\n  a: _t.String\n\x7d, \x7b\n  strict: true\n\x7d)"] := by
    decide +kernel
  obtain ⟨reading, t, e, hparse, ht, he, hprinted⟩ := exists_of_printedOf hfirst
  obtain ⟨reading', t', e', hparse', ht', he', hprinted'⟩ := exists_of_printedOf hsecond
  refine ⟨reading, reading', t, t', e, e', hparse, hparse', ht, ht', hbinding, he, he', hprinted,
    hprinted'.trans hprinted.symm, ?_⟩
  exact eq_of_render_reify_eq hparse hparse' ht ht' rfl hbinding he he'
    (hprinted.trans hprinted'.symm)

/-- A binding that is no name could be taken for a longer one. -/
theorem exists_render_eq_of_dotted :
    ∃ t t' e e', reify (bareContext "a.b") t none = .ok e ∧
      reify (bareContext "a.b") t' none = .ok e' ∧ e.render 0 = e'.render 0 ∧ e ≠ e' := by
  let name : QualifiedName := ⟨⟨"a", .point 0⟩, [⟨"b", .point 0⟩, ⟨"String", .point 0⟩]⟩
  refine ⟨⟨.keyword .string, .point 0⟩, ⟨.generic ⟨name, none⟩, .point 0⟩, _, name.toExpr, rfl,
    rfl, by decide, fun h => ?_⟩
  exact nomatch (Expr.member.inj h).1

end Program

end Reifier
