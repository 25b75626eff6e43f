import Reifier.Proofs.Expr.Plain
import Reifier.Proofs.Program.OfSource
import Reifier.Proofs.Token.Kinds
import Reifier.Proofs.TypeExpr.Refusal

/-!
# Counterparts of types are plain

What a type expression of a source is turned into has plain names and numbers, if the name of the
library is plain (`plain_reify`, `Interface.plain_reify`): its names are identifiers of the source
and those of the library, and its numbers are numbers of the source. Keys and display names are
strings.
-/

namespace Reifier

open Token (Spelled)

/-! ### Names and numbers of a source -/

/-- An identifier from a source is spelled as a name. -/
theorem Identifier.OfSource.spelled {source : String} {id : Identifier} (h : id.OfSource source) :
    Spelled id.name := by
  obtain ⟨t, ht, hkind, rfl⟩ := h
  have hspells := Token.spells_of_mem_scan ht
  rw [hkind] at hspells
  exact Token.spelled_of_isIdentifier hspells

/-- A number from a source is spelled as one. -/
private theorem spelled_of_isNumberOf {source spelling : String} (h : IsNumberOf source spelling) :
    Spelled spelling := by
  obtain ⟨t, ht, hkind, hspelling⟩ := h
  have hspells := Token.spells_of_mem_scan ht
  rw [hkind] at hspells
  have htext : Spelled t.text := fun c hc => Token.plain_of_isNumeric (hspells c hc)
  rcases hspelling with rfl | rfl
  · exact htext
  · intro c hc
    rw [String.toList_append] at hc
    rcases List.mem_append.mp hc with hc | hc
    · rw [List.mem_singleton.mp hc]
      decide
    · exact htext c hc

/-- A qualified name from a source is printed as plain text. -/
private theorem QualifiedName.OfSource.plain {source : String} {q : QualifiedName}
    (h : q.OfSource source) : q.toExpr.Plain := by
  obtain ⟨hhead, htail⟩ := List.forall_mem_cons.mp h.segments
  have hfold : ∀ (ids : List Identifier) (object : Expr), object.Plain →
      (∀ id ∈ ids, id.OfSource source) →
      (ids.foldl (fun object id => Expr.member object id.name) object).Plain := by
    intro ids
    induction ids with
    | nil => exact fun _ hobject _ => hobject
    | cons id ids ih =>
      intro object hobject hids
      obtain ⟨hid, hids⟩ := List.forall_mem_cons.mp hids
      exact ih _ ⟨hobject, hid.spelled⟩ hids
  exact hfold q.tail _ hhead.spelled htail

/-! ### The library -/

namespace Library

variable {lib : Library} (hlib : Spelled lib.binding)

include hlib

private theorem plain_primitive (p : Primitive) : (lib.primitive p).Plain :=
  ⟨hlib, by cases p <;> decide⟩

private theorem plain_combinator (c : Combinator) : (lib.member c.name).Plain :=
  ⟨hlib, by cases c <;> decide⟩

omit hlib in
private theorem plain_nameArg (name : Option String) : ∀ e ∈ nameArg name, e.Plain := by
  cases name with
  | none => exact List.forall_mem_nil _
  | some name => exact List.forall_mem_singleton.mpr trivial

private theorem plain_call (c : Combinator) {args : List Expr} (h : ∀ e ∈ args, e.Plain)
    (name : Option String) : (lib.call c args name).Plain :=
  ⟨plain_combinator hlib c,
    Expr.allPlain_iff.mpr (List.forall_mem_append.mpr ⟨h, plain_nameArg name⟩)⟩

private theorem plain_call_array (c : Combinator) {items : List Expr} (h : ∀ e ∈ items, e.Plain)
    (name : Option String) : (lib.call c [.array items] name).Plain :=
  have hitems : (Expr.array items).Plain := Expr.allPlain_iff.mpr h
  plain_call hlib c (List.forall_mem_singleton.mpr hitems) name

private theorem plain_enums (values : List String) (name : Option String) :
    (lib.enums values name).Plain := by
  refine ⟨⟨plain_combinator hlib .enums, by decide⟩, ?_, Expr.allPlain_iff.mpr (plain_nameArg name)⟩
  exact Expr.allPlain_iff.mpr (List.forall_mem_map.mpr fun _ _ => trivial)

private theorem plain_interface {properties : List (String × Expr)}
    (h : ∀ p ∈ properties, p.2.Plain) (name : Option String) (strict : Bool) :
    (lib.interface properties name strict).Plain := by
  have hdescriptor : ∀ e ∈ (descriptor? name strict).toList, e.Plain := by
    cases name <;> cases strict <;> simp [descriptor?, Expr.Plain, Expr.AllEntriesPlain]
  exact ⟨plain_combinator hlib .interface, Expr.allEntriesPlain_iff.mpr h,
    Expr.allPlain_iff.mpr hdescriptor⟩

private theorem plain_interfaceExtend {mixins : List Expr} (h : ∀ e ∈ mixins, e.Plain)
    (name : Option String) : (lib.interfaceExtend mixins name).Plain :=
  ⟨⟨plain_combinator hlib .interface, by decide⟩, Expr.allPlain_iff.mpr h,
    Expr.allPlain_iff.mpr (plain_nameArg name)⟩

private theorem plain_empty : lib.empty.Plain := by
  have hnever : (Expr.function none (.bool false)).Plain := ⟨fun _ h => (nomatch h), trivial⟩
  have hname : (Expr.string "Empty").Plain := trivial
  exact plain_call hlib .irreducible
    (List.forall_mem_cons.mpr ⟨hname, List.forall_mem_singleton.mpr hnever⟩) none

private theorem plain_refinement {base predicate : Expr} (hbase : base.Plain) (h : predicate.Plain)
    (name : Option String) : (lib.refinement base predicate name).Plain :=
  plain_call hlib .refinement
    (List.forall_mem_cons.mpr ⟨hbase, List.forall_mem_singleton.mpr h⟩) name

/-- A literal is a test of its value by a function, which is plain if the parameter and the value
are. -/
private theorem plain_literal (base : Primitive) {param : String} (hparam : Spelled param)
    {value : Expr} (h : value.Plain) : (lib.literal base param value).Plain := by
  have hparams : ∀ name ∈ some param, Spelled name := by
    rintro _ ⟨⟩
    exact hparam
  have htest : (Expr.function (some param) (.strictEq (.ident param) value)).Plain :=
    ⟨hparams, hparam, h⟩
  exact plain_refinement hlib (plain_primitive hlib base) htest none

end Library

/-! ### Types -/

namespace TypeExpr

/-- A result is a refusal, or a value that satisfies `P`. -/
def Gives {α : Type} (P : α → Prop) (x : Except Refusal α) : Prop := ∀ a, x = .ok a → P a

namespace Gives

variable {α β : Type} {P : α → Prop} {Q : β → Prop} {x : Except Refusal α}

private theorem ok {a : α} (h : P a) : Gives P (.ok a) := by
  rintro _ ⟨⟩
  exact h

private theorem error (refusal : Refusal) : Gives P (.error refusal) := fun _ h => nomatch h

protected theorem bind {f : α → Except Refusal β} (h : Gives P x)
    (hf : ∀ a, P a → Gives Q (f a)) : Gives Q (x >>= f) := by
  cases x with
  | ok a => exact hf a (h a rfl)
  | error refusal => exact error refusal

protected theorem map {f : α → β} (h : Gives P x) (hf : ∀ a, P a → Q (f a)) :
    Gives Q (f <$> x) := by
  cases x with
  | ok a => exact ok (hf a (h a rfl))
  | error refusal => exact error refusal

end Gives

/-- What a member of an intersection holds is plain. -/
def Member.Plain : Member → Prop
  | type value => value.Plain
  | predicate value => value.Plain

/-- The predicate of a refinement is plain. -/
private theorem plain_predicate {source : String} {g : Generic TypeExpr} (h : g.OfSource source)
    (span : Span) : Gives Expr.Plain (predicate g span) := by
  unfold predicate
  split
  · rename_i target _ hargs
    have htarget := h.args _ (hargs ▸ List.mem_cons_self)
    exact .ok (QualifiedName.OfSource.plain htarget.form)
  · exact .error _

/-- What a member of an intersection gives as a predicate is plain. -/
private theorem plain_predicateMember? {source : String} {t : TypeExpr} (h : t.OfSource source)
    {ctx : TypeContext} {p : Except Refusal Expr} (hp : predicateMember? ctx t = some p) :
    Gives Expr.Plain p := by
  unfold predicateMember? at hp
  split at hp
  · rename_i g hshape
    split_ifs at hp
    have hform := h.form
    have hparts := h.parts
    rw [hshape] at hform hparts
    exact Option.some.inj hp ▸ plain_predicate ⟨hform, hparts⟩ t.span
  · cases hp

/-- **The parts of an intersection are put together from plain parts alone.** The cases are those of
the merging: no type, a single one, and several. The induction on the predicates goes along with the
refinements around the base. -/
private theorem plain_merge {lib : Library} (hlib : Spelled lib.binding) {members : List Member}
    (h : ∀ m ∈ members, m.Plain) (name : Option String) (span : Span) :
    Gives Expr.Plain (merge lib members name span) := by
  have htypes : ∀ e ∈ Member.types members, e.Plain := by
    intro e he
    obtain ⟨m, hm, heq⟩ := List.mem_filterMap.mp he
    cases m with
    | type value => exact Option.some.inj heq ▸ h _ hm
    | predicate value => cases heq
  -- Each predicate wraps what those before it have made.
  have hrefine : ∀ (ps : List Expr) (base : Expr), base.Plain → (∀ p ∈ ps, p.Plain) →
      (ps.foldl (fun base p => lib.refinement base p name) base).Plain := by
    intro ps
    induction ps with
    | nil => exact fun _ hbase _ => hbase
    | cons p ps ih =>
      intro base hbase hps
      obtain ⟨hp, hps⟩ := List.forall_mem_cons.mp hps
      exact ih _ (Library.plain_refinement hlib hbase hp name) hps
  have hpredicates : ∀ p ∈ Member.predicates members, p.Plain := by
    intro p hp
    obtain ⟨m, hm, heq⟩ := List.mem_filterMap.mp hp
    cases m with
    | type value => cases heq
    | predicate value => exact Option.some.inj heq ▸ h _ hm
  unfold merge
  dsimp only
  split
  · exact .error _
  · rename_i single hsingle
    exact .ok (hrefine _ _ (htypes single (hsingle ▸ List.mem_cons_self)) hpredicates)
  · exact .ok (hrefine _ _ (Library.plain_call_array hlib .intersection htypes name) hpredicates)

private theorem plain_reifyKeyword {lib : Library} (hlib : Spelled lib.binding) (keyword : Keyword)
    (span : Span) : Gives Expr.Plain (reifyKeyword lib keyword span) := by
  cases keyword with
  | symbol => exact .error _
  | empty => exact .ok (Library.plain_empty hlib)
  | _ => exact .ok (Library.plain_primitive hlib _)

variable {source : String} {ctx : TypeContext}

mutual

/-- **The counterpart of a type of a source is plain.** -/
theorem plain_reify (hlib : Spelled ctx.library.binding) : (t : TypeExpr) →
    (name : Option String) → t.OfSource source → Gives Expr.Plain (reify ctx t name)
  | ⟨.keyword word, span⟩, _, _ => plain_reifyKeyword hlib word span
  | ⟨.function .., _⟩, _, _ => .ok (Library.plain_primitive hlib _)
  | ⟨.typeOf _, _⟩, _, _ => .ok (Library.plain_primitive hlib _)
  | ⟨.array element, _⟩, name, h =>
    (plain_reify hlib element none (h.parts element List.mem_cons_self)).bind fun _ he =>
      .ok (Library.plain_call hlib .list (List.forall_mem_singleton.mpr he) name)
  | ⟨.nullable inner, _⟩, name, h =>
    (plain_reify hlib inner none (h.parts inner List.mem_cons_self)).bind fun _ he =>
      .ok (Library.plain_call hlib .maybe (List.forall_mem_singleton.mpr he) name)
  | ⟨.tuple items, _⟩, name, h => (plain_reifyAll hlib items h.parts).bind fun _ hes =>
      .ok (Library.plain_call_array hlib .tuple hes name)
  | ⟨.union members, _⟩, name, h => by
    rw [reify]
    cases literals? members with
    | some values => exact .ok (Library.plain_enums hlib values name)
    | none =>
      exact (plain_reifyAll hlib members h.parts).bind fun _ hes =>
        .ok (Library.plain_call_array hlib .union hes name)
  | ⟨.intersection members, span⟩, name, h =>
    (plain_reifyMembers hlib members h.parts).bind fun _ hms => plain_merge hlib hms name span
  | ⟨.object type, _⟩, name, h =>
    plain_reifyObject hlib type name (Shape.forall_parts_object.mp h.parts)
  | ⟨.generic ref, span⟩, name, h => plain_reifyGeneric hlib ref span name ⟨h.form, h.parts⟩
  | ⟨.string value, _⟩, name, _ => .ok (Library.plain_enums hlib [value] name)
  | ⟨.number _, _⟩, _, h =>
    .ok (Library.plain_literal hlib .number (by decide) (spelled_of_isNumberOf h.form))
  | ⟨.boolean _, _⟩, _, _ => .ok (Library.plain_literal hlib .boolean (by decide) trivial)
  | ⟨.bigInt _, _⟩, _, _ => .error _
  | ⟨.indexedAccess .., _⟩, _, _ => .error _
termination_by structural t => t

/-- A generic form of a source is reified as plain text, be it one of the known names or any
other. -/
private theorem plain_reifyGeneric (hlib : Spelled ctx.library.binding) : (g : Generic TypeExpr) →
    (span : Span) → (display : Option String) → g.OfSource source →
    Gives Expr.Plain (reifyGeneric ctx g span display)
  | ⟨name, args?⟩, span, display, h => by
    rw [reifyGeneric_eq]
    split_ifs
    · exact .ok (Library.plain_primitive hlib _)
    · match args?, h with
      | some [element], h =>
        exact (plain_reify hlib element none (h.args element List.mem_cons_self)).bind fun _ he =>
          .ok (Library.plain_call hlib .list (List.forall_mem_singleton.mpr he) display)
      | none, _ => exact .error _
      | some [], _ => exact .error _
      | some (_ :: _ :: _), _ => exact .error _
    · exact .ok (Library.plain_primitive hlib _)
    · exact .ok (Library.plain_primitive hlib _)
    · obtain _ | _ | ⟨⟨shape, _⟩, more⟩ := args?
      · exact .error _
      · exact .error _
      · cases shape with
        | object type =>
          obtain ⟨properties, _, _⟩ := type
          cases more with
          | nil =>
            have hparts := Shape.forall_parts_object.mp (h.args _ List.mem_cons_self).parts
            exact (plain_reifyProperties hlib properties hparts.1).bind fun _ hes =>
              .ok (Library.plain_interface hlib hes display true)
          | cons => exact .error _
        | _ => exact .error _
    · exact (plain_predicate h span).bind fun _ _ => .ok h.name.plain
    · exact .ok h.name.plain
termination_by structural g => g

/-- An object type of a source is reified as plain text. -/
private theorem plain_reifyObject (hlib : Spelled ctx.library.binding) : (o : ObjectType TypeExpr) →
    (name : Option String) → ((∀ p ∈ o.properties, p.value.OfSource source) ∧
      ∀ i ∈ o.indexers, i.key.OfSource source ∧ i.value.OfSource source) →
    Gives Expr.Plain (reifyObject ctx o name)
  | ⟨_, [⟨_, key, value, _⟩], _⟩, name, h => by
    obtain ⟨hkey, hvalue⟩ := h.2 _ List.mem_cons_self
    exact (plain_reify hlib key none hkey).bind fun _ hdomain =>
      (plain_reify hlib value none hvalue).bind fun _ hcodomain =>
        .ok (Library.plain_call hlib .dict
          (List.forall_mem_cons.mpr ⟨hdomain, List.forall_mem_singleton.mpr hcodomain⟩) name)
  | ⟨properties, [], exact⟩, name, h =>
    (plain_reifyProperties hlib properties h.1).bind fun _ hes =>
      .ok (Library.plain_interface hlib hes name exact)
  | ⟨properties, _ :: _ :: _, exact⟩, name, h =>
    (plain_reifyProperties hlib properties h.1).bind fun _ hes =>
      .ok (Library.plain_interface hlib hes name exact)
termination_by structural o => o

private theorem plain_reifyAll (hlib : Spelled ctx.library.binding) : (ts : List TypeExpr) →
    (∀ t ∈ ts, t.OfSource source) → Gives (fun es => ∀ e ∈ es, e.Plain) (reifyAll ctx ts)
  | [], _ => .ok (List.forall_mem_nil _)
  | t :: ts, h =>
    (plain_reify hlib t none (h t List.mem_cons_self)).bind fun _ he =>
      (plain_reifyAll hlib ts fun u hu => h u (List.mem_cons_of_mem t hu)).bind fun _ hes =>
        .ok (List.forall_mem_cons.mpr ⟨he, hes⟩)
termination_by structural ts => ts

/-- The members of an intersection are reified as plain text. -/
private theorem plain_reifyMembers (hlib : Spelled ctx.library.binding) : (ts : List TypeExpr) →
    (∀ t ∈ ts, t.OfSource source) → Gives (fun ms => ∀ m ∈ ms, m.Plain) (reifyMembers ctx ts)
  | [], _ => .ok (List.forall_mem_nil _)
  | t :: ts, h => by
    rw [reifyMembers]
    have hrest := plain_reifyMembers hlib ts fun u hu => h u (List.mem_cons_of_mem t hu)
    cases hpredicate : predicateMember? ctx t with
    | some p =>
      have hfirst : Gives Member.Plain (Member.predicate <$> p) :=
        (plain_predicateMember? (h t List.mem_cons_self) hpredicate).map fun _ hp => hp
      refine hfirst.bind fun m hm => hrest.bind fun ms hms => .ok (a := m :: ms) ?_
      exact List.forall_mem_cons.mpr ⟨hm, hms⟩
    | none =>
      have hfirst : Gives Member.Plain (Member.type <$> reify ctx t none) :=
        (plain_reify hlib t none (h t List.mem_cons_self)).map fun _ he => he
      refine hfirst.bind fun m hm => hrest.bind fun ms hms => .ok (a := m :: ms) ?_
      exact List.forall_mem_cons.mpr ⟨hm, hms⟩
termination_by structural ts => ts

/-- Properties are reified as plain text. -/
private theorem plain_reifyProperties (hlib : Spelled ctx.library.binding) :
    (ps : List (Property TypeExpr)) → (∀ p ∈ ps, p.value.OfSource source) →
    Gives (fun es => ∀ e ∈ es, e.2.Plain) (reifyProperties ctx ps)
  | [], _ => .ok (List.forall_mem_nil _)
  | ⟨_, value, optional, _⟩ :: ps, h =>
    (plain_reify hlib value none (h _ List.mem_cons_self)).bind fun e he =>
      (plain_reifyProperties hlib ps fun p hp =>
        h p (List.mem_cons_of_mem _ hp)).bind fun _ hes => by
        refine .ok (List.forall_mem_cons.mpr ⟨?_, hes⟩)
        cases optional with
        | true => exact Library.plain_call hlib .maybe (List.forall_mem_singleton.mpr he) none
        | false => exact he
termination_by structural ps => ps

end

/-- The bases of an interface are reified as plain text. -/
private theorem plain_reifyBases (hlib : Spelled ctx.library.binding) (gs : List (Generic TypeExpr))
    (h : ∀ g ∈ gs, g.OfSource source) :
    Gives (fun es => ∀ e ∈ es, e.Plain) (reifyBases ctx gs) := by
  induction gs with
  | nil => exact .ok (List.forall_mem_nil _)
  | cons g gs ih =>
    obtain ⟨hg, hgs⟩ := List.forall_mem_cons.mp h
    exact (plain_reifyGeneric hlib g g.name.span none hg).bind fun _ he =>
      (ih hgs).bind fun _ hes => .ok (List.forall_mem_cons.mpr ⟨he, hes⟩)

end TypeExpr

/-- **The counterpart of an interface of a source is plain.** -/
theorem Interface.plain_reify {source : String} {ctx : TypeContext}
    (hlib : Spelled ctx.library.binding) {decl : Interface} (h : decl.OfSource source) :
    TypeExpr.Gives Expr.Plain (decl.reify ctx) := by
  unfold Interface.reify
  have hproperties := TypeExpr.plain_reifyProperties hlib decl.body.properties fun p hp =>
    (h.body.properties p hp).value
  split_ifs
  · have hindexers : ∀ i ∈ decl.body.indexers, i.key.OfSource source ∧ i.value.OfSource source :=
      fun i hi => ⟨(h.body.indexers i hi).key, (h.body.indexers i hi).value⟩
    exact TypeExpr.plain_reifyObject hlib decl.body _
      ⟨fun p hp => (h.body.properties p hp).value, hindexers⟩
  · refine (TypeExpr.plain_reifyBases hlib decl.bases h.bases).bind fun bases hbases => ?_
    refine hproperties.bind fun es hes => .ok (Library.plain_interfaceExtend hlib ?_ _)
    refine List.forall_mem_append.mpr ⟨hbases, List.forall_mem_singleton.mpr ?_⟩
    exact Expr.allEntriesPlain_iff.mpr hes

end Reifier
