import Mathlib.Tactic
import Reifier.Proofs.TypeExpr.Refusal

/-!
# What a type is put together from

A type expression is reified from its components (`TypeExpr.components`): the type expressions
directly inside it of which a counterpart is made, or which are looked at as a predicate. Not all
that is written inside a type expression is such a component: nothing of a function is, nor what
stands beside the only indexer of an object, nor the arguments of most references. What a reference
stands for is said once (`TypeContext.referent`).

The components of a type expression are smaller than it (`TypeExpr.components_induction`), and its
counterpart depends on nothing else inside it; the equations here say how.
-/

namespace Reifier

/-- A list of results is the list of their values if they all are values. -/
theorem mapM_eq_ok_iff {α β : Type} {f : α → Except Refusal β} {xs : List α} {ys : List β} :
    xs.mapM f = .ok ys ↔ List.Forall₂ (fun x y => f x = .ok y) xs ys := by
  induction xs generalizing ys with
  | nil =>
    rw [List.mapM_nil, List.forall₂_nil_left_iff]
    exact ⟨fun h => (Except.ok.inj h).symm, fun h => h ▸ rfl⟩
  | cons x xs ih =>
    rw [List.mapM_cons, List.forall₂_cons_left_iff]
    constructor
    · intro h
      obtain ⟨y, hy, h⟩ := exists_of_bind_eq_ok h
      obtain ⟨more, hmore, h⟩ := exists_of_bind_eq_ok h
      cases h
      exact ⟨y, more, hy, ih.mp hmore, rfl⟩
    · rintro ⟨y, more, hy, hmore, rfl⟩
      rw [hy, ih.mpr hmore]
      rfl

/-! ### References -/

/-- What a reference stands for: all values, the lists of one type, a ready-made type, the objects
with some properties and no others, the type that its name is bound to, or nothing because its
arguments are not what it takes. -/
inductive Referent where
  | any
  | list (element : TypeExpr)
  | primitive (primitive : Primitive)
  | strict (properties : List (Property TypeExpr))
  | bound
  | malformed (problem : ShapeProblem)

/-- What a reference stands for. A name of no special meaning is taken as it is. -/
def TypeContext.referent (ctx : TypeContext) (g : Generic TypeExpr) : Referent :=
  if ctx.isAny g then .any
  else if g.name.simple? = some "Array" then
    match g.args with
    | [element] => .list element
    | args => .malformed (.arrayArity args.length)
  else if g.name.simple? = some "Object" then .primitive .object
  else if g.name.simple? = some "Function" then .primitive .function
  else if g.name.simple? = some "$Exact" then
    match g.args with
    | [⟨.object type, _⟩] => .strict type.properties
    | _ => .malformed .invalidExact
  else if g.name.simple? = some refinementMarker then
    match g.args with
    | [⟨.typeOf _, _⟩] => .bound
    | _ => .malformed .invalidRefinement
  else .bound

namespace TypeExpr

variable {ctx : TypeContext} {t u : TypeExpr}

/-- A reference is reified as what it stands for. -/
theorem reifyGeneric_eq_referent (ctx : TypeContext) (g : Generic TypeExpr) (span : Span)
    (name : Option String) :
    reifyGeneric ctx g span name =
      match ctx.referent g with
      | .any => .ok (ctx.library.primitive .any)
      | .list element => (ctx.library.list · name) <$> reify ctx element none
      | .primitive primitive => .ok (ctx.library.primitive primitive)
      | .strict properties =>
        (ctx.library.interface · name true) <$> reifyProperties ctx properties
      | .bound => .ok g.name.toExpr
      | .malformed problem => .error (.shape problem span) := by
  obtain ⟨q, args?⟩ := g
  rw [reifyGeneric_eq]
  unfold TypeContext.referent
  dsimp only
  split_ifs with hany harray hobject hfunction hexact hmarker
  · rfl
  · obtain _ | _ | ⟨element, _ | _⟩ := args? <;> rfl
  · rfl
  · rfl
  · obtain _ | _ | ⟨⟨shape, _⟩, _ | _⟩ := args?
    · rfl
    · rfl
    · cases shape <;> rfl
    · cases shape <;> rfl
  · obtain _ | _ | ⟨⟨shape, _⟩, _ | _⟩ := args?
    · rfl
    · rfl
    · cases shape <;> rfl
    · cases shape <;> rfl
  · rfl

end TypeExpr

/-! ### Components -/

/-- The parts of an object type that are reified: the key and the value of an indexer that is the
only one, and otherwise the values of the properties. -/
def ObjectType.components (o : ObjectType TypeExpr) : List TypeExpr :=
  match o.indexers with
  | [i] => [i.key, i.value]
  | _ => o.properties.map Property.value

namespace TypeExpr

variable {ctx : TypeContext} {t u : TypeExpr}

/-- The type expressions that a type expression is reified from, in the order of the text. -/
def components (ctx : TypeContext) (t : TypeExpr) : List TypeExpr :=
  match t.shape with
  | .array element => [element]
  | .nullable inner => [inner]
  | .tuple items => items
  | .union members => if (literals? members).isSome then [] else members
  | .intersection members => members
  | .object type => type.components
  | .generic g =>
    match ctx.referent g with
    | .list element => [element]
    | .strict properties => properties.map Property.value
    | _ => []
  | _ => []

/-- A reference `$Refinement`, whatever its arguments, that does not stand for all values. -/
def IsPredicate (ctx : TypeContext) (t : TypeExpr) : Prop :=
  ∃ g, t.shape = .generic g ∧ g.name.simple? = some "$Refinement" ∧ ctx.isAny g = false

/-- A member of an intersection is taken as a predicate exactly if it is a reference to one. -/
private theorem isSome_predicateMember?_iff :
    (predicateMember? ctx t).isSome = true ↔ IsPredicate ctx t := by
  obtain ⟨shape, span⟩ := t
  unfold predicateMember? IsPredicate
  cases shape with
  | generic g =>
    have hmarked : isRefinement g = true ↔ g.name.simple? = some "$Refinement" := decide_eq_true_iff
    simp [hmarked]
  | _ => simp

instance (ctx : TypeContext) : DecidablePred (IsPredicate ctx) := fun _ =>
  decidable_of_iff _ isSome_predicateMember?_iff

/-- What the predicate of a member `$Refinement<typeof p>` of an intersection is called. -/
def predicateTarget? (ctx : TypeContext) (t : TypeExpr) : Option QualifiedName :=
  match t.shape with
  | .generic g =>
    match g.args with
    | [⟨.typeOf target, _⟩] => if IsPredicate ctx t then some target else none
    | _ => none
  | _ => none

/-- What is no predicate names none. -/
private theorem predicateTarget?_eq_none (h : ¬ IsPredicate ctx t) :
    predicateTarget? ctx t = none := by
  unfold predicateTarget?
  split
  · split
    · exact if_neg h
    · rfl
  · rfl

/-- A predicate that is not refused becomes the name that it is given. -/
private theorem exists_of_predicateMember? {p : Expr} (h : predicateMember? ctx t = some (.ok p)) :
    ∃ target, predicateTarget? ctx t = some target ∧ p = target.toExpr := by
  have hpredicate : IsPredicate ctx t := isSome_predicateMember?_iff.mp (by rw [h]; rfl)
  obtain ⟨g, hshape, hname, hany⟩ := id hpredicate
  unfold predicateMember? at h
  simp only [hshape] at h
  split_ifs at h
  unfold predicate at h
  split at h
  · rename_i target _ hargs
    cases h
    refine ⟨target, ?_, rfl⟩
    unfold predicateTarget?
    simp only [hshape, hargs, if_pos hpredicate]
  · cases h

/-- The components that are types: all but the predicates of an intersection. -/
def typeComponents (ctx : TypeContext) (t : TypeExpr) : List TypeExpr :=
  match t.shape with
  | .intersection members => members.filter fun m => ¬ IsPredicate ctx m
  | _ => t.components ctx

theorem typeComponents_subset (h : u ∈ t.typeComponents ctx) : u ∈ t.components ctx := by
  obtain ⟨shape, span⟩ := t
  cases shape with
  | intersection members => exact (List.mem_filter.mp h).1
  | _ => exact h

theorem components_union {members : List TypeExpr} (h : literals? members = none) (span : Span) :
    components ctx ⟨.union members, span⟩ = members := by
  unfold components
  dsimp only
  rw [h]
  rfl

theorem components_list {g : Generic TypeExpr} (h : ctx.referent g = .list u) (span : Span) :
    components ctx ⟨.generic g, span⟩ = [u] := by
  unfold components
  dsimp only
  rw [h]

theorem components_strict {g : Generic TypeExpr} {properties : List (Property TypeExpr)}
    (h : ctx.referent g = .strict properties) (span : Span) :
    components ctx ⟨.generic g, span⟩ = properties.map Property.value := by
  unfold components
  dsimp only
  rw [h]

/-- The type of a property is smaller than the properties. -/
private theorem sizeOf_value_lt {properties : List (Property TypeExpr)}
    (h : u ∈ properties.map Property.value) : sizeOf u < sizeOf properties := by
  obtain ⟨p, hp, rfl⟩ := List.mem_map.mp h
  have hlt := List.sizeOf_lt_of_mem hp
  obtain ⟨key, value, optional, span⟩ := p
  simp only [Property.mk.sizeOf_spec] at hlt
  dsimp only
  omega

/-- A component of an object type is smaller than this one. -/
private theorem sizeOf_component_lt_object {o : ObjectType TypeExpr} (h : u ∈ o.components) :
    sizeOf u < sizeOf o := by
  obtain ⟨properties, indexers, strict⟩ := o
  rw [ObjectType.mk.sizeOf_spec]
  unfold ObjectType.components at h
  split at h
  · rename_i i heq
    obtain ⟨id, key, value, span⟩ := i
    obtain rfl : indexers = [⟨id, key, value, span⟩] := heq
    simp only [List.mem_cons, List.not_mem_nil, or_false] at h
    simp only [List.cons.sizeOf_spec, Indexer.mk.sizeOf_spec]
    rcases h with rfl | rfl <;> omega
  · have hlt : sizeOf u < sizeOf properties := sizeOf_value_lt h
    omega

private theorem sizeOf_arg_lt {g : Generic TypeExpr} (h : u ∈ g.args) : sizeOf u < sizeOf g := by
  obtain ⟨q, _ | args⟩ := g
  · cases h
  · have hlt := List.sizeOf_lt_of_mem h
    rw [Generic.mk.sizeOf_spec, Option.some.sizeOf_spec]
    dsimp only [Generic.args, Option.getD_some] at hlt
    omega

/-- What a reference stands for is written in its arguments. -/
theorem mem_args_of_referent_list {g : Generic TypeExpr} (h : ctx.referent g = .list u) :
    u ∈ g.args := by
  unfold TypeContext.referent at h
  split_ifs at h
  · split at h
    · rename_i element hargs
      cases h
      exact hargs ▸ List.mem_cons_self
    · cases h
  · split at h <;> cases h
  · split at h <;> cases h

/-- A strict reference has an object type as an argument, and its properties are those of this
one. -/
theorem exists_args_of_referent_strict {g : Generic TypeExpr}
    {properties : List (Property TypeExpr)} (h : ctx.referent g = .strict properties) :
    ∃ type span, ⟨.object type, span⟩ ∈ g.args ∧ type.properties = properties := by
  unfold TypeContext.referent at h
  split_ifs at h
  · split at h <;> cases h
  · split at h
    · rename_i type span hargs
      cases h
      exact ⟨type, span, hargs ▸ List.mem_cons_self, rfl⟩
    · cases h
  · split at h <;> cases h

private theorem sizeOf_lt_of_referent_strict {g : Generic TypeExpr}
    {properties : List (Property TypeExpr)} (h : ctx.referent g = .strict properties) :
    sizeOf properties < sizeOf g := by
  obtain ⟨⟨properties, indexers, strict⟩, span, hmem, rfl⟩ := exists_args_of_referent_strict h
  have hlt := sizeOf_arg_lt hmem
  simp only [TypeExpr.mk.sizeOf_spec, Shape.object.sizeOf_spec, ObjectType.mk.sizeOf_spec] at hlt
  dsimp only
  omega

/-- A component is smaller than what is put together from it. -/
theorem sizeOf_component_lt (h : u ∈ t.components ctx) : sizeOf u < sizeOf t := by
  obtain ⟨shape, span⟩ := t
  rw [TypeExpr.mk.sizeOf_spec]
  cases shape with
  | array element =>
    obtain rfl := List.mem_singleton.mp h
    rw [Shape.array.sizeOf_spec]
    omega
  | nullable inner =>
    obtain rfl := List.mem_singleton.mp h
    rw [Shape.nullable.sizeOf_spec]
    omega
  | tuple items =>
    have hmem : u ∈ items := h
    have hlt := List.sizeOf_lt_of_mem hmem
    rw [Shape.tuple.sizeOf_spec]
    omega
  | union members =>
    -- A union of strings has no components.
    have hmem : u ∈ members := by
      unfold components at h
      dsimp only at h
      split_ifs at h
      · cases h
      · exact h
    have hlt := List.sizeOf_lt_of_mem hmem
    rw [Shape.union.sizeOf_spec]
    omega
  | intersection members =>
    have hmem : u ∈ members := h
    have hlt := List.sizeOf_lt_of_mem hmem
    rw [Shape.intersection.sizeOf_spec]
    omega
  | object type =>
    have hlt := sizeOf_component_lt_object (o := type) h
    rw [Shape.object.sizeOf_spec]
    omega
  | generic g =>
    rw [Shape.generic.sizeOf_spec]
    unfold components at h
    dsimp only at h
    -- Only lists and strict references have components, which are arguments or parts of one.
    split at h
    · rename_i element hreferent
      obtain rfl := List.mem_singleton.mp h
      have hlt := sizeOf_arg_lt (mem_args_of_referent_list hreferent)
      omega
    · rename_i properties hreferent
      have hlt := (sizeOf_value_lt h).trans (sizeOf_lt_of_referent_strict hreferent)
      omega
    · cases h
  | _ => cases h

/-- What holds of a type expression if it holds of its components holds of all of them. -/
theorem components_induction (ctx : TypeContext) {P : TypeExpr → Prop}
    (h : ∀ t, (∀ u ∈ t.components ctx, P u) → P t) (t : TypeExpr) : P t :=
  h t fun u _ => components_induction ctx h u
termination_by sizeOf t
decreasing_by exact sizeOf_component_lt ‹_›

/-! ### Equations -/

theorem reifyAll_eq_mapM (ts : List TypeExpr) :
    reifyAll ctx ts = ts.mapM fun t => reify ctx t none := by
  induction ts with
  | nil => rfl
  | cons t ts ih => rw [reifyAll, ih, List.mapM_cons]

/-- The entry of an interface that a property becomes. -/
def reifyProperty (ctx : TypeContext) (p : Property TypeExpr) : Except Refusal (String × Expr) :=
  (fun e => (p.key.name, if p.optional then ctx.library.maybe e none else e)) <$>
    reify ctx p.value none

/-- Properties are reified one by one. -/
theorem reifyProperties_eq_mapM (ps : List (Property TypeExpr)) :
    reifyProperties ctx ps = ps.mapM (reifyProperty ctx) := by
  induction ps with
  | nil => rfl
  | cons p ps ih =>
    rw [reifyProperties, ih, List.mapM_cons, reifyProperty, map_eq_pure_bind, bind_assoc]
    simp only [pure_bind]

/-- What a member of an intersection becomes. -/
def reifyMember (ctx : TypeContext) (t : TypeExpr) : Except Refusal Member :=
  match predicateMember? ctx t with
  | some p => Member.predicate <$> p
  | none => Member.type <$> reify ctx t none

/-- Members are reified one by one. -/
theorem reifyMembers_eq_mapM (ts : List TypeExpr) :
    reifyMembers ctx ts = ts.mapM (reifyMember ctx) := by
  induction ts with
  | nil => rfl
  | cons t ts ih =>
    rw [reifyMembers, ih, List.mapM_cons, reifyMember]
    cases predicateMember? ctx t <;> rfl

/-- What a member of an intersection becomes is its counterpart if it is a type, and its predicate
if it is one. -/
private theorem reifyMember_cases {m : Member} (h : reifyMember ctx t = .ok m) :
    (¬ IsPredicate ctx t ∧ ∃ e, reify ctx t none = .ok e ∧ m = .type e) ∨
      (IsPredicate ctx t ∧ ∃ p, predicateMember? ctx t = some (.ok p) ∧ m = .predicate p) := by
  unfold reifyMember at h
  rw [← isSome_predicateMember?_iff]
  cases hp : predicateMember? ctx t with
  | some p =>
    rw [hp] at h
    cases p with
    | ok e =>
      cases h
      exact .inr ⟨rfl, e, rfl, rfl⟩
    | error refusal => cases h
  | none =>
    rw [hp] at h
    cases hreify : reify ctx t none with
    | ok e =>
      rw [hreify] at h
      cases h
      exact .inl ⟨Bool.false_ne_true, e, rfl, rfl⟩
    | error refusal =>
      rw [hreify] at h
      cases h

/-- The members of an intersection that are types give the types among what the members become. -/
theorem forall₂_types {ts : List TypeExpr} {ms : List Member} (h : reifyMembers ctx ts = .ok ms) :
    List.Forall₂ (fun t e => reify ctx t none = .ok e) (ts.filter fun t => ¬ IsPredicate ctx t)
      (Member.types ms) := by
  rw [reifyMembers_eq_mapM, mapM_eq_ok_iff] at h
  induction h with
  | nil => exact .nil
  | cons ht _ ih =>
    obtain ⟨htype, e, he, rfl⟩ | ⟨hpredicate, p, -, rfl⟩ := reifyMember_cases ht
    · rw [List.filter_cons_of_pos (by simpa using htype)]
      exact .cons he ih
    · rw [List.filter_cons_of_neg (by simpa using hpredicate)]
      exact ih

/-- The members of an intersection that are predicates give the predicates among what the members
become. -/
theorem predicates_eq {ts : List TypeExpr} {ms : List Member} (h : reifyMembers ctx ts = .ok ms) :
    Member.predicates ms = (ts.filterMap (predicateTarget? ctx)).map QualifiedName.toExpr := by
  rw [reifyMembers_eq_mapM, mapM_eq_ok_iff] at h
  induction h with
  | nil => rfl
  | @cons t m ts ms ht _ ih =>
    obtain ⟨htype, e, -, rfl⟩ | ⟨-, p, hp, rfl⟩ := reifyMember_cases ht
    · rw [List.filterMap_cons_none (predicateTarget?_eq_none htype)]
      exact ih
    · obtain ⟨target, htarget, rfl⟩ := exists_of_predicateMember? hp
      rw [List.filterMap_cons_some htarget, List.map_cons, ← ih]
      rfl

theorem reifyBases_eq_mapM (gs : List (Generic TypeExpr)) :
    reifyBases ctx gs = gs.mapM fun g => reifyGeneric ctx g g.name.span none := by
  induction gs with
  | nil => rfl
  | cons g gs ih => rw [reifyBases, ih, List.mapM_cons]

/-- An object type with exactly one indexer becomes a dictionary, and any other one an interface. -/
theorem reifyObject_eq (o : ObjectType TypeExpr) (name : Option String) :
    reifyObject ctx o name =
      match o.indexers with
      | [i] => do
        let domain ← reify ctx i.key none
        let codomain ← reify ctx i.value none
        return ctx.library.dict domain codomain name
      | _ => (ctx.library.interface · name o.exact) <$> reifyProperties ctx o.properties := by
  obtain ⟨properties, _ | ⟨i, _ | _⟩, strict⟩ := o <;> rfl

end TypeExpr

end Reifier
