import Reifier.Proofs.Expr.Occurrence
import Reifier.Proofs.TypeExpr.Building

/-!
# What counterparts refer to

An identifier that occurs free in the counterpart of a type is the binding of the library, or it
begins a name that is referred to where a part of the type is reified (`Refers`): the name of a
reference that has no meaning of its own, or that of a predicate of an intersection. All of these
names do occur, and a name that stands for all values only occurs where no reference means it
(`closedOver_of_reify`).

What one form puts around the counterparts of its components is said once for every form
(`TypeExpr.draws_build`); the rest is an induction on components.
-/

namespace Reifier

open TypeExpr

/-! ### Calls of the library -/

namespace Library

variable {lib : Library} {x : String} {name : Option String}

@[simp] theorem free_member_iff {property : String} :
    (lib.member property).Free x ↔ x = lib.binding := by
  simp [member]

@[simp] theorem free_primitive_iff {p : Primitive} :
    (lib.primitive p).Free x ↔ x = lib.binding := by
  simp [primitive]

private theorem not_free_nameArg {e : Expr} (he : e ∈ nameArg name) : ¬ e.Free x := by
  cases name with
  | none => cases he
  | some n => simp [List.mem_singleton.mp he]

/-- A name for display is no identifier. -/
private theorem exists_free_append_nameArg {args : List Expr} :
    (∃ arg ∈ args ++ nameArg name, arg.Free x) ↔ ∃ arg ∈ args, arg.Free x := by
  refine exists_congr fun arg => and_congr_left fun hfree => ?_
  rw [List.mem_append, or_iff_left fun harg => not_free_nameArg harg hfree]

@[simp] theorem free_call_iff {c : Combinator} {args : List Expr} :
    (lib.call c args name).Free x ↔ x = lib.binding ∨ ∃ arg ∈ args, arg.Free x := by
  rw [call, Expr.free_call_iff, free_member_iff, exists_free_append_nameArg]

/-- An enumeration of strings has the library free in it and nothing else. -/
@[simp] theorem free_enums_iff {values : List String} :
    (lib.enums values name).Free x ↔ x = lib.binding := by
  have hargs : (∃ arg ∈ [Expr.array (values.map Expr.string)] ++ nameArg name, arg.Free x) ↔
      False := by
    rw [exists_free_append_nameArg]
    simp
  rw [enums, ← List.singleton_append, Expr.free_call_iff, hargs, or_false, Expr.free_member_iff,
    free_member_iff]

@[simp] theorem free_interface_iff {properties : List (String × Expr)} {strict : Bool} :
    (lib.interface properties name strict).Free x ↔
      x = lib.binding ∨ ∃ p ∈ properties, p.2.Free x := by
  cases name <;> cases strict <;> simp [interface, descriptor?]

/-- An extension of interfaces has the library free in it, and what is free in one of them. -/
@[simp] theorem free_interfaceExtend_iff {mixins : List Expr} :
    (lib.interfaceExtend mixins name).Free x ↔ x = lib.binding ∨ ∃ m ∈ mixins, m.Free x := by
  have hargs : (∃ arg ∈ [Expr.array mixins] ++ nameArg name, arg.Free x) ↔
      ∃ m ∈ mixins, m.Free x := by
    rw [exists_free_append_nameArg]
    simp
  rw [interfaceExtend, ← List.singleton_append, Expr.free_call_iff, hargs, Expr.free_member_iff,
    free_member_iff]

@[simp] theorem free_empty_iff : lib.empty.Free x ↔ x = lib.binding := by
  simp [empty]

/-- The parameter of the function that compares with a literal is bound in it. -/
private theorem free_literal_iff {base : Primitive} {param : String} {value : Expr}
    (hvalue : ¬ value.Free x) : (lib.literal base param value).Free x ↔ x = lib.binding := by
  have hbound : ¬ (param ≠ x ∧ x = param) := fun h => h.1 h.2.symm
  simp [literal, refinement, hvalue, hbound]

end Library

/-- Of a name with dots only the first segment is an identifier. -/
@[simp] theorem QualifiedName.free_toExpr_iff {q : QualifiedName} {x : String} :
    q.toExpr.Free x ↔ x = q.head.name := by
  have hfold : ∀ (ids : List Identifier) (e : Expr),
      (ids.foldl (fun object id => .member object id.name) e).Free x ↔ e.Free x := by
    intro ids
    induction ids with
    | nil => exact fun e => Iff.rfl
    | cons id ids ih => exact fun e => (ih _).trans Expr.free_member_iff
  exact (hfold q.tail _).trans Expr.free_ident_iff

/-! ### Names and the binding of the library -/

/-- Of the identifiers that `F` holds of, all those are there that `R` holds of, and at most the
binding of the library besides. -/
structure Draws (lib : Library) (R F : String → Prop) : Prop where
  only : ∀ x, F x → x = lib.binding ∨ R x
  all : ∀ x, R x → F x

namespace Draws

variable {lib : Library} {R R' F F' G : String → Prop}

theorem refl (lib : Library) (R : String → Prop) : Draws lib R R :=
  ⟨fun _ => .inr, fun _ => id⟩

/-- What the binding itself is added to. -/
theorem of_iff (h : ∀ x, F x ↔ x = lib.binding ∨ R x) : Draws lib R F :=
  ⟨fun x => (h x).mp, fun x hx => (h x).mpr (.inr hx)⟩

theorem trans (h : Draws lib R F) (h' : Draws lib F G) : Draws lib R G :=
  ⟨fun x hx => (h'.only x hx).elim .inl (h.only x), fun x hx => h'.all x (h.all x hx)⟩

private theorem or (h : Draws lib R F) (h' : Draws lib R' F') :
    Draws lib (fun x => R x ∨ R' x) fun x => F x ∨ F' x where
  only x hx := hx.elim (fun hF => (h.only x hF).imp_right .inl)
    fun hF' => (h'.only x hF').imp_right .inr
  all x hx := hx.imp (h.all x) (h'.all x)

/-- What no name is added to. -/
private theorem unnamed (h : Draws lib R F) :
    Draws lib (fun x => (∃ q ∈ ([] : List QualifiedName), q.head.name = x) ∨ R x) F := by
  simpa using h

end Draws

namespace TypeExpr

variable {ctx : TypeContext} {t u : TypeExpr} {lib : Library} {x : String} {name : Option String}
  {e : Expr} {es : List Expr} {ts : List TypeExpr} {span : Span}

/-! ### What a type refers to -/

/-- The names that a type expression itself refers to: the name of a reference, unless it stands for
all values or has a meaning of its own, and the names of the predicates of an intersection. -/
def names (ctx : TypeContext) (t : TypeExpr) : List QualifiedName :=
  match t.shape with
  | .generic g =>
    if ctx.isAny g ∨ g.name.simple? ∈ [some "Array", some "Object", some "Function", some "$Exact"]
    then [] else [g.name]
  | .intersection members => members.filterMap (predicateTarget? ctx)
  | _ => []

/-- A type expression is reified on the way from another one: it is a type in it, from component to
component. -/
def Reified (ctx : TypeContext) : TypeExpr → TypeExpr → Prop :=
  Relation.ReflTransGen fun t u => u ∈ t.typeComponents ctx

/-- Where type expressions are reified, a name is referred to that begins with `x`. -/
def Refers (ctx : TypeContext) (ts : List TypeExpr) (x : String) : Prop :=
  ∃ t ∈ ts, ∃ u, Reified ctx t u ∧ ∃ q ∈ u.names ctx, q.head.name = x

/-- What a type expression refers to, it refers to itself, or one of its components does. -/
private theorem refers_singleton_iff :
    Refers ctx [t] x ↔
      (∃ q ∈ t.names ctx, q.head.name = x) ∨ Refers ctx (t.typeComponents ctx) x := by
  unfold Refers
  constructor
  · rintro ⟨s, hs, u, hu, hq⟩
    obtain rfl := List.mem_singleton.mp hs
    rcases Relation.ReflTransGen.cases_head hu with rfl | ⟨v, hv, hu⟩
    · exact .inl hq
    · exact .inr ⟨v, hv, u, hu, hq⟩
  · rintro (hq | ⟨v, hv, u, hu, hq⟩)
    · exact ⟨t, List.mem_singleton_self t, t, .refl, hq⟩
    · exact ⟨t, List.mem_singleton_self t, u, .head hv hu, hq⟩

/-! ### One form around its components -/

/-- The properties of an interface have the same names free in them as the counterparts of their
types. -/
private theorem draws_entries {properties : List (Property TypeExpr)}
    (h : es.length = properties.length) :
    Draws lib (fun x => ∃ d ∈ es, d.Free x)
      fun x => ∃ p ∈ entries lib properties es, p.2.Free x := by
  induction properties generalizing es with
  | nil =>
    obtain rfl := List.eq_nil_of_length_eq_zero h
    simpa [entries] using Draws.refl lib fun _ => False
  | cons p properties ih =>
    obtain ⟨d, es, rfl⟩ := List.exists_cons_of_length_eq_add_one h
    have hd : Draws lib (fun x => d.Free x)
        fun x => (if p.optional then lib.maybe d none else d).Free x := by
      split_ifs
      · exact .of_iff fun _ => by simp [Library.maybe]
      · exact .refl lib _
    simpa [entries] using hd.or (ih (Nat.succ_injective h))

private theorem draws_interface {properties : List (Property TypeExpr)}
    (h : es.length = properties.length) (strict : Bool) :
    Draws lib (fun x => ∃ d ∈ es, d.Free x)
      fun x => (lib.interface (entries lib properties es) name strict).Free x :=
  (draws_entries h).trans (.of_iff fun _ => Library.free_interface_iff)

private theorem draws_buildObject {type : ObjectType TypeExpr}
    (h : es.length = type.components.length) :
    Draws lib (fun x => ∃ d ∈ es, d.Free x) fun x => (buildObject lib type es name).Free x := by
  obtain ⟨properties, _ | ⟨i, _ | _⟩, strict⟩ := type
  · exact draws_interface (h.trans (List.length_map _)) strict
  · exact .of_iff fun x => Library.free_call_iff
  · exact draws_interface (h.trans (List.length_map _)) strict

private theorem draws_buildBase : Draws lib (fun x => ∃ d ∈ es, d.Free x)
    fun x => (buildBase lib es name).Free x := by
  match es with
  | [] => exact .of_iff fun x => by simp [buildBase, Library.intersection]
  | [single] => simpa [buildBase] using Draws.refl lib fun x => single.Free x
  | _ :: _ :: _ => exact .of_iff fun x => by simp [buildBase, Library.intersection]

/-- Refining with predicates one after another adds the names that are free in them. The induction
is on the predicates, the base being any. -/
private theorem draws_refineAll (base : Expr) (ps : List Expr) :
    Draws lib (fun x => (∃ p ∈ ps, p.Free x) ∨ base.Free x)
      fun x => (refineAll lib name base ps).Free x := by
  induction ps generalizing base with
  | nil => simpa [refineAll] using Draws.refl lib fun x => base.Free x
  | cons p ps ih =>
    -- The first predicate ends up innermost, so it is part of the base for the others.
    have hstep : Draws lib (fun x => base.Free x ∨ p.Free x)
        fun x => (lib.refinement base p name).Free x :=
      .of_iff fun x => by simp [Library.refinement]
    have hrest := ((Draws.refl lib fun x => ∃ p ∈ ps, p.Free x).or hstep).trans (ih _)
    have hcons : refineAll lib name base (p :: ps) =
        refineAll lib name (lib.refinement base p name) ps := rfl
    simpa [hcons, or_comm, or_left_comm, or_assoc] using hrest

/-- The binding of the library is all that occurs where there are no components. -/
private theorem draws_nil {F : String → Prop} (h : ∀ x, F x ↔ x = lib.binding) :
    Draws lib (fun x => ∃ d ∈ ([] : List Expr), d.Free x) F :=
  .of_iff fun x => by simp [h]

/-- A union has the names of its members free in it. If they are all strings, there are no names. -/
private theorem draws_buildUnion {members : List TypeExpr}
    (h : es.length = (components ctx ⟨.union members, span⟩).length) :
    Draws lib (fun x => ∃ d ∈ es, d.Free x)
      fun x => (buildUnion lib (literals? members) es name).Free x := by
  unfold components at h
  dsimp only at h
  cases hliterals : literals? members with
  | some values =>
    rw [hliterals] at h
    obtain rfl := List.eq_nil_of_length_eq_zero h
    exact draws_nil fun x => Library.free_enums_iff
  | none => exact .of_iff fun x => by simp [buildUnion, Library.union]

/-- If the arguments of a reference are what it takes, its name is taken as it is exactly if it
neither stands for all values nor has a meaning of its own. -/
private theorem referent_eq_bound_iff {g : Generic TypeExpr}
    (h : ∀ problem, ctx.referent g ≠ .malformed problem) :
    ctx.referent g = .bound ↔ ¬ (ctx.isAny g ∨
      g.name.simple? ∈ [some "Array", some "Object", some "Function", some "$Exact"]) := by
  have hmalformed := h .invalidRefinement
  unfold TypeContext.referent at hmalformed ⊢
  split_ifs at hmalformed ⊢ with hany harray hobject hfunction hexact hmarker
  · simp [hany]
  · split <;> simp [harray]
  · simp [hobject]
  · simp [hfunction]
  · split <;> simp [hexact]
  · split at hmalformed
    · simp [hany, hmarker, refinementMarker]
    · exact absurd rfl hmalformed
  · simp [hany, harray, hobject, hfunction, hexact]

/-- What becomes of a reference has its name free in it and the names of its arguments. The cases
are those of what the name refers to; a malformed one is refused. -/
private theorem draws_buildReferent {g : Generic TypeExpr}
    (hes : es.length = (components ctx ⟨.generic g, span⟩).length)
    (h : ∀ problem, ctx.referent g ≠ .malformed problem) :
    Draws lib (fun x => (∃ q ∈ names ctx ⟨.generic g, span⟩, q.head.name = x) ∨ ∃ d ∈ es, d.Free x)
      fun x => (buildReferent lib g.name es name (ctx.referent g)).Free x := by
  have hbound := referent_eq_bound_iff h
  have hnames (hother : ctx.referent g ≠ .bound) : names ctx ⟨.generic g, span⟩ = [] :=
    if_pos (not_not.mp (mt hbound.mpr hother))
  cases hreferent : ctx.referent g with
  | malformed problem => exact absurd hreferent (h problem)
  -- In all other cases a reference becomes something of the library.
  | bound =>
    have hname : names ctx ⟨.generic g, span⟩ = [g.name] := if_neg (hbound.mp hreferent)
    obtain rfl : es = [] := by simpa [components, hreferent] using hes
    simpa [hname, buildReferent, eq_comm] using Draws.refl lib fun x => x = g.name.head.name
  | list element =>
    rw [hnames (by simp [hreferent])]
    exact .unnamed (.of_iff fun x => Library.free_call_iff)
  | strict properties =>
    rw [hnames (by simp [hreferent])]
    rw [components_strict hreferent, List.length_map] at hes
    exact .unnamed (draws_interface hes true)
  | _ =>
    rw [hnames (by simp [hreferent])]
    obtain rfl : es = [] := by simpa [components, hreferent] using hes
    exact .unnamed (draws_nil fun x => Library.free_primitive_iff)

/-- **One step.** What a type is built into refers to what the type itself refers to, and to what
the counterparts of its components do. -/
theorem draws_build (hes : es.length = (t.typeComponents ctx).length)
    (hgeneric : ∀ g, t.shape = .generic g → ∀ problem, ctx.referent g ≠ .malformed problem) :
    Draws ctx.library (fun x => (∃ q ∈ t.names ctx, q.head.name = x) ∨ ∃ d ∈ es, d.Free x)
      fun x => (t.build ctx es name).Free x := by
  obtain ⟨shape, span⟩ := t
  cases shape with
  | array element => exact .unnamed (.of_iff fun x => Library.free_call_iff)
  | nullable inner => exact .unnamed (.of_iff fun x => Library.free_call_iff)
  | tuple items => exact .unnamed (.of_iff fun x => by simp [build, Library.tuple])
  | union members =>
    have hes : es.length = (components ctx ⟨.union members, span⟩).length := hes
    exact .unnamed (draws_buildUnion hes)
  | intersection members =>
    -- The names that stand in an intersection itself are those of its predicates.
    have hpredicates : ∀ x, (∃ p ∈ predicates ctx members, p.Free x) ↔
        ∃ q ∈ names ctx ⟨.intersection members, span⟩, q.head.name = x := fun x => by
      simp [predicates, names, eq_comm]
    have hbase : Draws ctx.library (fun x => ∃ d ∈ es, d.Free x)
        fun x => (buildBase ctx.library es name).Free x := draws_buildBase
    have hrefined : Draws ctx.library
        (fun x => (∃ p ∈ predicates ctx members, p.Free x) ∨ ∃ d ∈ es, d.Free x)
        fun x => (build ctx ⟨.intersection members, span⟩ es name).Free x :=
      ((Draws.refl _ _).or hbase).trans (draws_refineAll _ _)
    simpa only [hpredicates] using hrefined
  | object type => exact .unnamed (draws_buildObject hes)
  | generic g => exact draws_buildReferent hes (hgeneric g rfl)
  | keyword word =>
    obtain rfl := List.eq_nil_of_length_eq_zero hes
    cases word <;>
      exact .unnamed (draws_nil fun x => by simp [build, reifyKeyword, Except.toOption])
  | number spelling =>
    obtain rfl := List.eq_nil_of_length_eq_zero hes
    exact .unnamed (draws_nil fun x => Library.free_literal_iff Expr.not_free_number)
  | boolean value =>
    obtain rfl := List.eq_nil_of_length_eq_zero hes
    exact .unnamed (draws_nil fun x => Library.free_literal_iff Expr.not_free_bool)
  | _ =>
    obtain rfl := List.eq_nil_of_length_eq_zero hes
    exact .unnamed (draws_nil fun x => by simp [build])

/-! ### The whole type -/

private theorem refers_append_iff {ts us : List TypeExpr} :
    Refers ctx (ts ++ us) x ↔ Refers ctx ts x ∨ Refers ctx us x := by
  simp only [Refers, List.mem_append, or_and_right, exists_or]

/-- The counterparts of type expressions draw on what these refer to if each one does. -/
private theorem draws_of_counterparts (hes : Counterparts ctx ts es)
    (h : ∀ t ∈ ts, ∀ e, reify ctx t none = .ok e →
      Draws ctx.library (Refers ctx [t]) fun x => e.Free x) :
    Draws ctx.library (Refers ctx ts) fun x => ∃ d ∈ es, d.Free x := by
  induction hes with
  | nil => exact ⟨fun x hx => by simp at hx, fun x hx => by simp [Refers] at hx⟩
  | @cons t e ts es he _ ih =>
    obtain ⟨ht, hts⟩ := List.forall_mem_cons.mp h
    have hboth := (ht e he).or (ih hts)
    simp only [← refers_append_iff, List.singleton_append] at hboth
    simpa using hboth

/-- The identifiers in the counterpart of a type begin the names that the type refers to, the
binding of the library apart. -/
private theorem draws_of_reify (h : reify ctx t name = .ok e) :
    Draws ctx.library (Refers ctx [t]) fun x => e.Free x := by
  induction t using components_induction ctx generalizing name e with
  | h t ih =>
    obtain ⟨es, hes, hbuilt⟩ := isBuilt_of_reify h
    obtain rfl : e = t.build ctx es name := Except.ok.inj (h.symm.trans (hbuilt name))
    have hgeneric : ∀ g, t.shape = .generic g → ∀ problem, ctx.referent g ≠ .malformed problem := by
      rintro g hg problem hreferent
      obtain ⟨shape, span⟩ := t
      obtain rfl : shape = .generic g := hg
      rw [reify, reifyGeneric_eq_referent, hreferent] at h
      cases h
    have hcomponents : Draws ctx.library (Refers ctx (t.typeComponents ctx))
        fun x => ∃ d ∈ es, d.Free x :=
      draws_of_counterparts hes fun u hu d hd => ih u (typeComponents_subset hu) hd
    have hwhole : Draws ctx.library
        (fun x => (∃ q ∈ t.names ctx, q.head.name = x) ∨ Refers ctx (t.typeComponents ctx) x)
        fun x => (t.build ctx es name).Free x :=
      ((Draws.refl _ _).or hcomponents).trans (draws_build hes.length_eq.symm hgeneric)
    simpa only [← refers_singleton_iff] using hwhole

end TypeExpr

/-! ### Interfaces -/

/-- The type expressions that the counterpart of an interface is put together from: its body, or its
bases and the values of its properties. -/
def Interface.positions (decl : Interface) : List TypeExpr :=
  if decl.bases.isEmpty then [⟨.object decl.body, decl.bodySpan⟩]
  else decl.bases.map (fun g => ⟨.generic g, g.name.span⟩) ++
    decl.body.properties.map Property.value

variable {ctx : TypeContext} {decl : Interface} {e : Expr}

/-- What an interface becomes draws on its properties and bases. -/
private theorem draws_of_reify_interface (h : decl.reify ctx = .ok e) :
    Draws ctx.library (Refers ctx decl.positions) fun x => e.Free x := by
  unfold Interface.reify at h
  unfold Interface.positions
  split_ifs at h ⊢ with hbases
  · have hbody : TypeExpr.reify ctx ⟨.object decl.body, decl.bodySpan⟩ (some decl.id.name) =
        .ok e := by
      rw [TypeExpr.reify, h]
    exact draws_of_reify hbody
  · obtain ⟨bases, hbases, h⟩ := exists_of_bind_eq_ok h
    obtain ⟨all, hall, h⟩ := exists_of_bind_eq_ok h
    obtain rfl := Except.ok.inj h
    obtain ⟨es, hes, rfl⟩ := exists_of_reifyProperties hall
    have hmixins : Counterparts ctx (decl.bases.map fun g => ⟨.generic g, g.name.span⟩) bases := by
      rw [reifyBases_eq_mapM, mapM_eq_ok_iff] at hbases
      rw [Counterparts, List.forall₂_map_left_iff]
      exact hbases.imp fun g e hg => by rw [TypeExpr.reify, hg]
    have hproperties : Draws ctx.library (Refers ctx (decl.body.properties.map Property.value))
        fun x => ∃ p ∈ entries ctx.library decl.body.properties es, p.2.Free x :=
      (draws_of_counterparts hes fun t _ e => draws_of_reify).trans
        (draws_entries (hes.length_eq.symm.trans (List.length_map _)))
    have hparts := (draws_of_counterparts hmixins fun t _ e => draws_of_reify).or hproperties
    simp only [← refers_append_iff] at hparts
    exact hparts.trans (.of_iff fun x => by simp [or_and_right, exists_or])

/-- The counterpart of type expressions is closed over the library and what they refer to: its free
identifiers are the binding of the library and the first segments of the names that are referred to
where the type expressions are reified. One that stands for all values when a reference is to it is
there only as the binding, as the first of several segments, or as a predicate. -/
structure ClosedOver (ctx : TypeContext) (ts : List TypeExpr) (e : Expr) : Prop where
  only : ∀ x, e.Free x → x = ctx.library.binding ∨ Refers ctx ts x
  all : ∀ x, Refers ctx ts x → e.Free x
  erased : ∀ x, (x ∈ ctx.params ∨ x ∈ ctx.globals ∨ isMagicType x = true) → e.Free x →
    x = ctx.library.binding ∨ ∃ t ∈ ts, ∃ u, Reified ctx t u ∧ ∃ q ∈ u.names ctx,
      q.head.name = x ∧ (q.tail ≠ [] ∨ ∃ members, u.shape = .intersection members)

/-- A name that stands for all values is no name of a reference. -/
private theorem tail_ne_nil_or_intersection {u : TypeExpr} {q : QualifiedName}
    (hq : q ∈ u.names ctx)
    (hany : q.head.name ∈ ctx.params ∨ q.head.name ∈ ctx.globals ∨ isMagicType q.head.name = true) :
    q.tail ≠ [] ∨ ∃ members, u.shape = .intersection members := by
  unfold TypeExpr.names at hq
  split at hq
  · rename_i g _
    split_ifs at hq with hmeaning
    · cases hq
    · obtain rfl := List.mem_singleton.mp hq
      refine .inl fun htail => hmeaning (.inl ?_)
      simp [TypeContext.isAny, QualifiedName.simple?, htail, hany, or_assoc]
  · exact .inr ⟨_, ‹_›⟩
  · cases hq

/-- What draws on the names that are referred to is closed over them: a reference to all values
gives no name of its own. -/
private theorem Draws.closedOver {ts : List TypeExpr}
    (h : Draws ctx.library (Refers ctx ts) fun x => e.Free x) : ClosedOver ctx ts e where
  only := h.only
  all := h.all
  erased x hany hfree := by
    refine (h.only x hfree).imp_right ?_
    rintro ⟨t, ht, u, hu, q, hq, rfl⟩
    exact ⟨t, ht, u, hu, q, hq, rfl, tail_ne_nil_or_intersection hq hany⟩

/-- **Counterparts are closed over the library and what is referred to.** This holds for each type
expression that has a counterpart, with whatever display name, and for each interface that has
one. -/
theorem closedOver_of_reify (ctx : TypeContext) :
    (∀ t name e, TypeExpr.reify ctx t name = .ok e → ClosedOver ctx [t] e) ∧
    ∀ decl e, Interface.reify ctx decl = .ok e → ClosedOver ctx decl.positions e :=
  ⟨fun _ _ _ h => (draws_of_reify h).closedOver,
    fun _ _ h => (draws_of_reify_interface h).closedOver⟩

/-- In `interface I<T> extends A.B { p: T & $Refinement<typeof f> }` the type parameter stands for
all values, so its name does not occur in the counterpart. -/
theorem closedOver_of_reify_extended :
    ∃ (ctx : TypeContext) (decl : Interface) (e : Expr),
      decl.reify ctx = .ok e ∧ ClosedOver ctx decl.positions e ∧
        e.Free ctx.library.binding ∧ e.Free "A" ∧ e.Free "f" ∧ ¬ e.Free "T" := by
  let ctx : TypeContext := ⟨⟨"_t"⟩, .ofList ["T"], .empty⟩
  let predicate : TypeExpr := ⟨.generic ⟨⟨⟨"$Refinement", ⟨36, 47⟩⟩, []⟩,
    some [⟨.typeOf ⟨⟨"f", ⟨55, 56⟩⟩, []⟩, ⟨48, 56⟩⟩]⟩, ⟨36, 57⟩⟩
  let value : TypeExpr :=
    ⟨.intersection [⟨.generic ⟨⟨⟨"T", ⟨32, 33⟩⟩, []⟩, none⟩, ⟨32, 33⟩⟩, predicate], ⟨32, 57⟩⟩
  let decl : Interface :=
    { id := ⟨"I", ⟨10, 11⟩⟩
      params := some [⟨⟨"T", ⟨12, 13⟩⟩, none, none, ⟨12, 13⟩⟩]
      bases := [⟨⟨⟨"A", ⟨23, 24⟩⟩, [⟨"B", ⟨25, 26⟩⟩]⟩, none⟩]
      body := ⟨[⟨.identifier ⟨"p", ⟨29, 30⟩⟩, value, false, ⟨29, 57⟩⟩], [], false⟩
      bodySpan := ⟨27, 59⟩
      recursive := false
      span := ⟨0, 59⟩ }
  have hreify : decl.reify ctx = .ok (ctx.library.interfaceExtend
      [.member (.ident "A") "B", .object [("p", ctx.library.refinement (ctx.library.primitive .any)
        (.ident "f") none)]] (some "I")) := rfl
  refine ⟨ctx, decl, _, hreify, (closedOver_of_reify ctx).2 decl _ hreify, ?_⟩
  simp [ctx, Library.refinement]

/-- What is written as a predicate of an intersection need not occur. In
`type A<$Refinement> = string & $Refinement<typeof p>` it is the argument of a type parameter. -/
theorem not_forall_free_predicate :
    ¬ ∀ (ctx : TypeContext) (members : List TypeExpr) (g : Generic TypeExpr)
        (target : QualifiedName) (span place argSpan : Span) (name : Option String) (e : Expr),
      ⟨.generic g, place⟩ ∈ members → g.name.simple? = some "$Refinement" →
      g.args? = some [⟨.typeOf target, argSpan⟩] →
      TypeExpr.reify ctx ⟨.intersection members, span⟩ name = .ok e → e.Free target.head.name := by
  intro hall
  let ctx : TypeContext := ⟨⟨"_t"⟩, .ofList ["$Refinement"], .empty⟩
  let target : QualifiedName := ⟨⟨"p", ⟨50, 51⟩⟩, []⟩
  let g : Generic TypeExpr :=
    ⟨⟨⟨"$Refinement", ⟨31, 42⟩⟩, []⟩, some [⟨.typeOf target, ⟨43, 51⟩⟩]⟩
  let members : List TypeExpr := [⟨.keyword .string, ⟨22, 28⟩⟩, ⟨.generic g, ⟨31, 52⟩⟩]
  have hreify : TypeExpr.reify ctx ⟨.intersection members, ⟨22, 52⟩⟩ (some "A") =
      .ok (ctx.library.intersection [ctx.library.primitive .string, ctx.library.primitive .any]
        (some "A")) := rfl
  have hfree := hall ctx members g target _ _ _ _ _ (List.mem_cons_of_mem _ List.mem_cons_self) rfl
    rfl hreify
  simp [ctx, target, Library.intersection] at hfree

end Reifier
