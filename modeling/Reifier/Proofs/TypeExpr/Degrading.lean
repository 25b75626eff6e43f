import Reifier.Proofs.TypeExpr.Components

/-!
# Names that stand for all values

That a name stands for the type of all values, as a type parameter or as one that is declared
elsewhere, can be said in the type itself: `t.degrade x` is `t` with `any` written in place of each
reference to `x`. Its counterpart, or its refusal, is that of `t` where `x` stands for all values
(`reify_insert`). Nothing else that is spelled `x` matters: neither a name with dots that begins
with it, nor a predicate, nor what a value of that name has the type of.
-/

namespace Reifier

namespace TypeExpr

/-! ### Writing `any` for a name -/

mutual

/-- A type expression with `any` in place of each reference to the name `x`. -/
def degrade (x : String) : TypeExpr → TypeExpr
  | ⟨shape, span⟩ => ⟨degradeShape x shape, span⟩
termination_by structural t => t

/-- A form with `any` in place of each reference to the name `x`, itself included. A reference that
has dots in its name is none to `x`, but there may be some in its arguments. -/
def degradeShape (x : String) : Shape TypeExpr → Shape TypeExpr
  | .keyword word => .keyword word
  | .function params rest result =>
    .function (degradeParams x params) (degradeRest x rest) (degrade x result)
  | .typeOf target => .typeOf target
  | .array element => .array (degrade x element)
  | .nullable inner => .nullable (degrade x inner)
  | .tuple items => .tuple (degradeAll x items)
  | .union members => .union (degradeAll x members)
  | .intersection members => .intersection (degradeAll x members)
  | .object ⟨properties, indexers, exact⟩ =>
    .object ⟨degradeProperties x properties, degradeIndexers x indexers, exact⟩
  | .generic ⟨name, none⟩ =>
    if name.simple? = some x then .keyword .any else .generic ⟨name, none⟩
  | .generic ⟨name, some args⟩ =>
    if name.simple? = some x then .keyword .any else .generic ⟨name, some (degradeAll x args)⟩
  | .string value => .string value
  | .number spelling => .number spelling
  | .boolean value => .boolean value
  | .bigInt spelling => .bigInt spelling
  | .indexedAccess object index => .indexedAccess (degrade x object) (degrade x index)
termination_by structural shape => shape

/-- Type expressions with `any` in place of each reference to the name `x`. -/
def degradeAll (x : String) : List TypeExpr → List TypeExpr
  | [] => []
  | t :: ts => degrade x t :: degradeAll x ts
termination_by structural ts => ts

/-- Parameters with `any` in place of each reference to the name `x`. -/
def degradeParams (x : String) : List (Param TypeExpr) → List (Param TypeExpr)
  | [] => []
  | ⟨name, type, optional⟩ :: ps => ⟨name, degrade x type, optional⟩ :: degradeParams x ps
termination_by structural ps => ps

/-- A rest parameter with `any` in place of each reference to the name `x`. -/
def degradeRest (x : String) : Option (Param TypeExpr) → Option (Param TypeExpr)
  | none => none
  | some ⟨name, type, optional⟩ => some ⟨name, degrade x type, optional⟩
termination_by structural rest => rest

/-- Properties with `any` in place of each reference to the name `x`. -/
def degradeProperties (x : String) : List (Property TypeExpr) → List (Property TypeExpr)
  | [] => []
  | ⟨key, value, optional, span⟩ :: ps =>
    ⟨key, degrade x value, optional, span⟩ :: degradeProperties x ps
termination_by structural ps => ps

/-- Indexers with `any` in place of each reference to the name `x`. -/
def degradeIndexers (x : String) : List (Indexer TypeExpr) → List (Indexer TypeExpr)
  | [] => []
  | ⟨id, key, value, span⟩ :: is =>
    ⟨id, degrade x key, degrade x value, span⟩ :: degradeIndexers x is
termination_by structural is => is

end

variable {x : String} {t : TypeExpr} {ctx wider : TypeContext}

/-- An object type with `any` in place of each reference to the name `x`. -/
def degradeObject (x : String) (o : ObjectType TypeExpr) : ObjectType TypeExpr :=
  ⟨degradeProperties x o.properties, degradeIndexers x o.indexers, o.exact⟩

/-- A reference with `any` in place of each reference to the name `x` in its arguments. -/
def degradeArgs (x : String) (g : Generic TypeExpr) : Generic TypeExpr :=
  ⟨g.name, g.args?.map (degradeAll x)⟩

private theorem args_degradeArgs (g : Generic TypeExpr) :
    (degradeArgs x g).args = degradeAll x g.args := by
  obtain ⟨name, _ | args⟩ := g <;> rfl

private theorem length_degradeAll (ts : List TypeExpr) : (degradeAll x ts).length = ts.length := by
  induction ts with
  | nil => rfl
  | cons t ts ih => rw [degradeAll, List.length_cons, List.length_cons, ih]

private theorem degradeShape_generic (g : Generic TypeExpr) :
    degradeShape x (.generic g) =
      if g.name.simple? = some x then .keyword .any else .generic (degradeArgs x g) := by
  obtain ⟨name, _ | args⟩ := g <;> rfl

/-- Whether a union is one of strings is not changed: only references are. -/
private theorem literals?_degradeAll (ts : List TypeExpr) :
    literals? (degradeAll x ts) = literals? ts := by
  induction ts with
  | nil => rfl
  | cons t ts ih =>
    obtain ⟨shape, span⟩ := t
    cases shape with
    | string value => exact congrArg (Option.map (value :: ·)) ih
    | generic g =>
      rw [degradeAll, degrade, degradeShape_generic]
      split_ifs <;> rfl
    | _ => rfl

/-- What a reference stands for, with `any` in place of each reference to the name `x`. -/
def degradeReferent (x : String) : Referent → Referent
  | .list element => .list (element.degrade x)
  | .strict properties => .strict (degradeProperties x properties)
  | other => other

/-- A reference to another name that is marked as a predicate is the same predicate. -/
private theorem predicate_degradeArgs (g : Generic TypeExpr) (span : Span) :
    predicate (degradeArgs x g) span = predicate g span := by
  unfold predicate
  rw [args_degradeArgs]
  rcases g.args with _ | ⟨⟨shape, _⟩, more⟩
  · rfl
  · cases shape with
    | generic other =>
      rw [degradeAll, degrade, degradeShape_generic]
      split_ifs <;> cases more <;> rfl
    | _ => cases more <;> rfl

/-! ### Contexts in which one more name stands for all values -/

/-- In `wider` the same holds as in `ctx`, except that the name `x` stands for all values, too. -/
structure Widens (x : String) (ctx wider : TypeContext) : Prop where
  library : wider.library = ctx.library
  isAny : ∀ g : Generic TypeExpr, wider.isAny g = true ↔
    ctx.isAny g = true ∨ g.name.simple? = some x

private theorem widens_params (x : String) (ctx : TypeContext) :
    Widens x ctx { ctx with params := ctx.params.insert x } := by
  refine ⟨rfl, fun g => ?_⟩
  unfold TypeContext.isAny
  cases g.name.simple? with
  | none => simp
  | some name => simp [or_assoc, or_comm]

private theorem widens_globals (x : String) (ctx : TypeContext) :
    Widens x ctx { ctx with globals := ctx.globals.insert x } := by
  refine ⟨rfl, fun g => ?_⟩
  unfold TypeContext.isAny
  cases g.name.simple? with
  | none => simp
  | some name => simp [or_assoc, or_comm, or_left_comm]

namespace Widens

variable (h : Widens x ctx wider)

include h

private theorem isAny_of_eq {g : Generic TypeExpr} (hx : g.name.simple? = some x) :
    wider.isAny g = true := (h.isAny g).mpr (.inr hx)

private theorem isAny_degradeArgs {g : Generic TypeExpr} (hx : g.name.simple? ≠ some x) :
    ctx.isAny (degradeArgs x g) = wider.isAny g := by
  have hiff := h.isAny g
  rw [or_iff_left hx] at hiff
  exact Bool.eq_iff_iff.mpr hiff.symm

/-- **A reference to another name stands for the same in the wider context,** up to what its
arguments become. The cases are the known names. -/
private theorem referent_degradeArgs {g : Generic TypeExpr} (hx : g.name.simple? ≠ some x) :
    ctx.referent (degradeArgs x g) = degradeReferent x (wider.referent g) := by
  have hname : (degradeArgs x g).name = g.name := rfl
  unfold TypeContext.referent
  rw [h.isAny_degradeArgs hx, hname, args_degradeArgs]
  split_ifs with hany harray hobject hfunction hexact hmarker
  · rfl
  · match g.args with
    | [] => rfl
    | [element] => rfl
    | first :: second :: more =>
      dsimp only [degradeAll, degradeReferent]
      rw [List.length_cons, List.length_cons, length_degradeAll]
      rfl
  · rfl
  · rfl
  · rcases g.args with _ | ⟨⟨shape, _⟩, more⟩
    · rfl
    · cases shape with
      -- A reference in the place of the argument becomes `any`, or another reference.
      | generic other =>
        rw [degradeAll, degrade, degradeShape_generic]
        split_ifs <;> cases more <;> rfl
      | _ => cases more <;> rfl
  · rcases g.args with _ | ⟨⟨shape, _⟩, more⟩
    · rfl
    · cases shape with
      | generic other =>
        rw [degradeAll, degrade, degradeShape_generic]
        split_ifs <;> cases more <;> rfl
      | _ => cases more <;> rfl
  · rfl

/-- A predicate stays one, for its name is not a reference to a type. -/
private theorem predicateMember?_degrade (t : TypeExpr) :
    predicateMember? ctx (t.degrade x) = predicateMember? wider t := by
  obtain ⟨shape, span⟩ := t
  unfold predicateMember?
  cases shape with
  | generic g =>
    rw [degrade, degradeShape_generic]
    split_ifs with hx
    · dsimp only
      rw [h.isAny_of_eq hx, Bool.not_true, Bool.and_false]
      rfl
    · dsimp only
      rw [h.isAny_degradeArgs hx, predicate_degradeArgs]
      rfl
  | _ => rfl

/-! ### The same result -/

/-- A type expression has the same counterpart in `wider` as it has in `ctx` with `any` in place of
each reference to `x`, or is refused alike. -/
def Agrees (x : String) (ctx wider : TypeContext) (t : TypeExpr) : Prop :=
  ∀ name : Option String, reify wider t name = reify ctx (t.degrade x) name

omit h in
/-- Lists are reified alike if their elements are. -/
private theorem reifyAll_degradeAll {ts : List TypeExpr} (hts : ∀ t ∈ ts, Agrees x ctx wider t) :
    reifyAll wider ts = reifyAll ctx (degradeAll x ts) := by
  induction ts with
  | nil => rfl
  | cons t ts ih =>
    obtain ⟨ht, hts⟩ := List.forall_mem_cons.mp hts
    rw [degradeAll, reifyAll, reifyAll, ht none, ih hts]

/-- Members are reified alike if they are as type expressions; the predicates are the same. -/
private theorem reifyMembers_degradeAll {ts : List TypeExpr}
    (hts : ∀ t ∈ ts, Agrees x ctx wider t) :
    reifyMembers wider ts = reifyMembers ctx (degradeAll x ts) := by
  induction ts with
  | nil => rfl
  | cons t ts ih =>
    obtain ⟨ht, hts⟩ := List.forall_mem_cons.mp hts
    rw [degradeAll, reifyMembers, reifyMembers, ht none, ih hts, h.predicateMember?_degrade]

private theorem reifyProperties_degradeProperties {ps : List (Property TypeExpr)}
    (hps : ∀ u ∈ ps.map Property.value, Agrees x ctx wider u) :
    reifyProperties wider ps = reifyProperties ctx (degradeProperties x ps) := by
  induction ps with
  | nil => rfl
  | cons p ps ih =>
    obtain ⟨hp, hps⟩ := List.forall_mem_cons.mp hps
    rw [degradeProperties, reifyProperties, reifyProperties, hp none, ih hps, h.library]

/-- Object types are reified alike if their components are. -/
private theorem reifyObject_degradeObject {o : ObjectType TypeExpr}
    (ho : ∀ u ∈ o.components, Agrees x ctx wider u) (name : Option String) :
    reifyObject wider o name = reifyObject ctx (degradeObject x o) name := by
  rw [reifyObject_eq, reifyObject_eq, h.library]
  obtain ⟨properties, _ | ⟨i, _ | _⟩, strict⟩ := o
  · have hproperties : reifyProperties wider properties =
        reifyProperties ctx (degradeProperties x properties) := h.reifyProperties_degradeProperties ho
    dsimp only [degradeObject, degradeIndexers]
    rw [hproperties]
  · obtain ⟨hkey, hrest⟩ := List.forall_mem_cons.mp ho
    dsimp only [degradeObject, degradeIndexers]
    rw [hkey none, hrest i.value List.mem_cons_self none]
  · have hproperties : reifyProperties wider properties =
        reifyProperties ctx (degradeProperties x properties) := h.reifyProperties_degradeProperties ho
    dsimp only [degradeObject, degradeIndexers]
    rw [hproperties]

/-- References to other names are reified alike if their components are. -/
private theorem reifyGeneric_degradeArgs {g : Generic TypeExpr} (hx : g.name.simple? ≠ some x)
    {span : Span} (hg : ∀ u ∈ components wider ⟨.generic g, span⟩, Agrees x ctx wider u)
    (name : Option String) :
    reifyGeneric wider g span name = reifyGeneric ctx (degradeArgs x g) span name := by
  rw [reifyGeneric_eq_referent, reifyGeneric_eq_referent, h.referent_degradeArgs hx, h.library]
  cases hreferent : wider.referent g with
  | list element =>
    rw [components_list hreferent] at hg
    dsimp only [degradeReferent]
    rw [hg element List.mem_cons_self]
  | strict properties =>
    rw [components_strict hreferent] at hg
    dsimp only [degradeReferent]
    rw [h.reifyProperties_degradeProperties hg]
  | _ => rfl

/-- The same holds for every type expression, by induction on what it is reified from. -/
private theorem agrees (t : TypeExpr) : Agrees x ctx wider t := by
  induction t using components_induction wider with
  | h t ih =>
    intro name
    obtain ⟨shape, span⟩ := t
    rw [degrade]
    cases shape with
    | array element =>
      rw [degradeShape, reify, reify, ih element List.mem_cons_self, h.library]
    | nullable inner =>
      rw [degradeShape, reify, reify, ih inner List.mem_cons_self, h.library]
    | tuple items =>
      have hitems : reifyAll wider items = reifyAll ctx (degradeAll x items) :=
        reifyAll_degradeAll ih
      rw [degradeShape, reify, reify, hitems, h.library]
    | union members =>
      rw [degradeShape, reify, reify, literals?_degradeAll, h.library]
      -- A union of strings has no components, and so there is nothing to degrade.
      cases hliterals : literals? members with
      | some values => rfl
      | none =>
        rw [components_union hliterals] at ih
        rw [reifyAll_degradeAll ih]
    | intersection members =>
      have hmembers : reifyMembers wider members = reifyMembers ctx (degradeAll x members) :=
        h.reifyMembers_degradeAll ih
      rw [degradeShape, reify, reify, hmembers, h.library]
    | object type =>
      rw [reify, h.reifyObject_degradeObject (o := type) ih]
      rfl
    | generic g =>
      rw [degradeShape_generic, reify]
      -- A reference to the name itself is `any` on both sides.
      split_ifs with hx
      · rw [reifyGeneric_eq_referent, TypeContext.referent, if_pos (h.isAny_of_eq hx), h.library]
        rfl
      · rw [h.reifyGeneric_degradeArgs hx ih, reify]
    | bigInt spelling => rfl
    | indexedAccess base index => rfl
    | _ => rw [degradeShape, reify, reify, h.library]

end Widens

/-- **A name that stands for all values can be written as `any`.** A type under one more type
parameter `x`, or with one more name `x` that is declared elsewhere, has the counterpart that it has
without it when `any` is written in place of each reference to `x`, or is refused alike. References
to names with dots and the types of values stay, whatever they begin with. -/
theorem reify_insert (ctx : TypeContext) (x : String) (t : TypeExpr) (name : Option String) :
    reify { ctx with params := ctx.params.insert x } t name = reify ctx (t.degrade x) name ∧
    reify { ctx with globals := ctx.globals.insert x } t name = reify ctx (t.degrade x) name :=
  ⟨(widens_params x ctx).agrees t name, (widens_globals x ctx).agrees t name⟩

end TypeExpr

end Reifier
