import Reifier.Proofs.TypeExpr.Components

/-!
# Which types are refused

A type is refused for one of few forms (`TypeExpr.Offends`), and only where it is looked at: at the
type expressions that are met from it on the way through components (`TypeExpr.Reached`). They are
looked at in the order of the text, each after its components (`TypeExpr.visited`), and the first
one that has such a form decides on the refusal (`reify_error_iff_offends`).

One step is that a type is refused for its first component that is refused, and otherwise for its
own form (`of?_reify`).
-/

namespace Reifier

/-! ### Refusals of results -/

namespace Refusal

variable {α β : Type}

private theorem of?_map (f : α → β) (x : Except Refusal α) : of? (f <$> x) = of? x := by
  cases x <;> rfl

private theorem of?_bind {f : α → Except Refusal β} {x : Except Refusal α} {next : Option Refusal}
    (h : ∀ a, x = .ok a → of? (f a) = next) : of? (x >>= f) = (of? x).or next := by
  cases x with
  | ok a => exact h a rfl
  | error refusal => rfl

private theorem of?_bind_pure (f : α → β) (x : Except Refusal α) :
    of? (x >>= fun a => pure (f a)) = of? x := by
  cases x <;> rfl

/-- The first result that is a refusal decides. -/
private theorem of?_mapM (f : α → Except Refusal β) (xs : List α) :
    of? (xs.mapM f) = xs.findSome? fun x => of? (f x) := by
  induction xs with
  | nil => rfl
  | cons x xs ih =>
    have hrest : ∀ b, of? (xs.mapM f >>= fun bs => pure (b :: bs)) =
        xs.findSome? fun x => of? (f x) := fun b => by rw [of?_bind_pure, ih]
    rw [List.mapM_cons, of?_bind fun b _ => hrest b, List.findSome?_cons]
    cases of? (f x) <;> rfl

end Refusal

/-- What is found first in lists behind each other is found first in one of them. -/
private theorem findSome?_eq_flatMap {α β γ : Type} {xs : List α} {f : α → Option γ}
    {g : α → List β} {p : β → Option γ} (h : ∀ x ∈ xs, f x = (g x).findSome? p) :
    xs.findSome? f = (xs.flatMap g).findSome? p := by
  induction xs with
  | nil => rfl
  | cons x xs ih =>
    obtain ⟨hx, hxs⟩ := List.forall_mem_cons.mp h
    rw [List.findSome?_cons, List.flatMap_cons, List.findSome?_append, hx, ih hxs]
    cases (g x).findSome? p <;> rfl

namespace TypeExpr

variable {ctx : TypeContext} {t u : TypeExpr}

/-! ### What is met -/

/-- A type expression is met from another one: from component to component, it is reified on the way
or looked at as a predicate. -/
def Reached (ctx : TypeContext) : TypeExpr → TypeExpr → Prop :=
  Relation.ReflTransGen fun t u => u ∈ t.components ctx

/-- The type expressions that are met from a type expression, in the order in which their forms are
looked at: one component after the other, and what they are components of behind them. -/
def visited (ctx : TypeContext) (t : TypeExpr) : List TypeExpr :=
  (t.components ctx).attach.flatMap (fun u => visited ctx u.val) ++ [t]
termination_by sizeOf t
decreasing_by exact sizeOf_component_lt u.property

private theorem visited_eq (ctx : TypeContext) (t : TypeExpr) :
    t.visited ctx = (t.components ctx).flatMap (visited ctx) ++ [t] := by
  rw [visited, List.flatMap_subtype (g := visited ctx) fun _ _ => rfl, List.unattach_attach]

private theorem mem_visited : u ∈ t.visited ctx ↔ Reached ctx t u := by
  induction t using components_induction ctx with
  | h t ih =>
    rw [visited_eq, List.mem_append, List.mem_flatMap, List.mem_singleton, Reached,
      Relation.ReflTransGen.cases_head_iff, or_comm, eq_comm]
    refine or_congr Iff.rfl (exists_congr fun v => and_congr_right fun hv => ih v hv)

/-! ### What is refused -/

/-- The forms that are refused: those without a counterpart, references whose arguments are not what
they take, and intersections without a type. -/
inductive Offends (ctx : TypeContext) : TypeExpr → ShapeProblem → Prop
  | symbol {span : Span} : Offends ctx ⟨.keyword .symbol, span⟩ (.unsupported "symbol type")
  | bigInt {spelling : String} {span : Span} :
      Offends ctx ⟨.bigInt spelling, span⟩ (.unsupported "bigint literal type")
  | indexedAccess {base index : TypeExpr} {span : Span} :
      Offends ctx ⟨.indexedAccess base index, span⟩ (.unsupported "indexed access type")
  | array {g : Generic TypeExpr} {span : Span} (hany : ctx.isAny g = false)
      (hname : g.name.simple? = some "Array") (hargs : g.args.length ≠ 1) :
      Offends ctx ⟨.generic g, span⟩ (.arrayArity g.args.length)
  | exact {g : Generic TypeExpr} {span : Span} (hany : ctx.isAny g = false)
      (hname : g.name.simple? = some "$Exact")
      (hargs : ∀ type place, g.args ≠ [⟨.object type, place⟩]) :
      Offends ctx ⟨.generic g, span⟩ .invalidExact
  | refinement {g : Generic TypeExpr} {span : Span} (hany : ctx.isAny g = false)
      (hname : g.name.simple? = some "$Refinement")
      (hargs : ∀ predicate place, g.args ≠ [⟨.typeOf predicate, place⟩]) :
      Offends ctx ⟨.generic g, span⟩ .invalidRefinement
  | intersection {members : List TypeExpr} {span : Span}
      (hmembers : ∀ m ∈ members, IsPredicate ctx m) :
      Offends ctx ⟨.intersection members, span⟩ .refinementWithoutBase

/-- What is wrong with the form of a type expression, if it is one that is refused. -/
def problem? (ctx : TypeContext) (t : TypeExpr) : Option ShapeProblem :=
  match t.shape with
  | .keyword .symbol => some (.unsupported t.shape.describe)
  | .bigInt _ => some (.unsupported t.shape.describe)
  | .indexedAccess .. => some (.unsupported t.shape.describe)
  | .intersection members =>
    if ∀ m ∈ members, IsPredicate ctx m then some .refinementWithoutBase else none
  | .generic g =>
    match ctx.referent g with
    | .malformed problem => some problem
    | _ => none
  | _ => none

/-- The refusal for the form of a type expression, if it is one that is refused. -/
def refusal? (ctx : TypeContext) (t : TypeExpr) : Option Refusal :=
  (t.problem? ctx).map (.shape · t.span)

/-- The references whose arguments are not what they take. -/
private theorem referent_eq_malformed_iff {g : Generic TypeExpr} {problem : ShapeProblem}
    {span : Span} :
    ctx.referent g = .malformed problem ↔ Offends ctx ⟨.generic g, span⟩ problem := by
  unfold TypeContext.referent
  constructor
  · intro h
    -- A reference is malformed if its name is known and its arguments are not those that the name
    -- takes.
    split_ifs at h with hany harray hobject hfunction hexact hmarker
    · split at h
      · cases h
      · rename_i hargs
        cases h
        exact .array (Bool.not_eq_true _ ▸ hany) harray fun hlength => by
          obtain ⟨element, hsingle⟩ := List.length_eq_one_iff.mp hlength
          exact hargs element hsingle
    · split at h
      · cases h
      · rename_i hargs
        cases h
        exact .exact (Bool.not_eq_true _ ▸ hany) hexact fun type place => hargs type place
    · split at h
      · cases h
      · rename_i hargs
        cases h
        exact .refinement (Bool.not_eq_true _ ▸ hany) hmarker fun p place => hargs p place
  · intro h
    cases h with
    | array hany hname hargs =>
      rw [if_neg (by rw [hany]; decide), if_pos hname]
      split
      · rename_i element hsingle
        exact absurd (congrArg List.length hsingle) hargs
      · rfl
    | exact hany hname hargs =>
      rw [if_neg (by rw [hany]; decide), hname]
      simp
    | refinement hany hname hargs =>
      rw [if_neg (by rw [hany]; decide), hname]
      simp [refinementMarker]

/-- What is wrong with a type expression itself is found by looking at its form and its references.
The cases are the forms. -/
private theorem problem?_eq_some_iff {problem : ShapeProblem} :
    t.problem? ctx = some problem ↔ Offends ctx t problem := by
  obtain ⟨shape, span⟩ := t
  cases shape with
  | keyword word =>
    cases word with
    | symbol =>
      refine ⟨fun h => Option.some.inj h ▸ .symbol, fun h => ?_⟩
      cases h
      rfl
    | _ => exact ⟨(nomatch ·), (nomatch ·)⟩
  | bigInt spelling =>
    refine ⟨fun h => Option.some.inj h ▸ .bigInt, fun h => ?_⟩
    cases h
    rfl
  | indexedAccess base index =>
    refine ⟨fun h => Option.some.inj h ▸ .indexedAccess, fun h => ?_⟩
    cases h
    rfl
  | intersection members =>
    unfold problem?
    dsimp only
    split_ifs with hmembers
    · refine ⟨fun h => Option.some.inj h ▸ .intersection hmembers, fun h => ?_⟩
      cases h
      rfl
    · refine ⟨(nomatch ·), fun h => ?_⟩
      cases h with
      | intersection hpredicates => exact absurd hpredicates hmembers
  | generic g =>
    rw [← referent_eq_malformed_iff]
    unfold problem?
    dsimp only
    split
    · rename_i other hother
      simp [hother]
    · rename_i hother
      exact ⟨(nomatch ·), fun h => absurd h (hother problem)⟩
  | _ => exact ⟨(nomatch ·), (nomatch ·)⟩

/-! ### One step -/

private theorem of?_reifyAll (ts : List TypeExpr) :
    Refusal.of? (reifyAll ctx ts) = ts.findSome? fun u => Refusal.of? (reify ctx u none) := by
  rw [reifyAll_eq_mapM, Refusal.of?_mapM]

private theorem of?_reifyProperties (ps : List (Property TypeExpr)) :
    Refusal.of? (reifyProperties ctx ps) =
      (ps.map Property.value).findSome? fun u => Refusal.of? (reify ctx u none) := by
  rw [reifyProperties_eq_mapM, Refusal.of?_mapM, List.findSome?_map]
  simp only [reifyProperty, Refusal.of?_map, Function.comp_def]

/-- An object type is refused for the first of its components that is. -/
private theorem of?_reifyObject (o : ObjectType TypeExpr) (name : Option String) :
    Refusal.of? (reifyObject ctx o name) =
      o.components.findSome? fun u => Refusal.of? (reify ctx u none) := by
  rw [reifyObject_eq]
  unfold ObjectType.components
  split
  · rename_i i _
    have hvalue : ∀ domain, Refusal.of? (do
        let codomain ← reify ctx i.value none
        return ctx.library.dict domain codomain name) = Refusal.of? (reify ctx i.value none) :=
      fun domain => Refusal.of?_bind_pure _ _
    rw [Refusal.of?_bind fun domain _ => hvalue domain, List.findSome?_cons,
      List.findSome?_singleton]
    cases Refusal.of? (reify ctx i.key none) <;> rfl
  · rw [Refusal.of?_map, of?_reifyProperties]

/-- A member of an intersection is refused as it would be anywhere else. -/
private theorem of?_reifyMember (ctx : TypeContext) (t : TypeExpr) :
    Refusal.of? (reifyMember ctx t) = Refusal.of? (reify ctx t none) := by
  obtain ⟨shape, span⟩ := t
  unfold reifyMember predicateMember?
  cases shape with
  | generic g =>
    dsimp only
    split_ifs with hpredicate
    · obtain ⟨hmarked, hany⟩ := Bool.and_eq_true_iff.mp hpredicate
      have hname : g.name.simple? = some "$Refinement" := of_decide_eq_true hmarked
      rw [Refusal.of?_map, reify, reifyGeneric_eq, if_neg (by simpa using hany), hname]
      exact (Refusal.of?_bind_pure _ _).symm
    · exact Refusal.of?_map _ _
  | _ => exact Refusal.of?_map _ _

/-- Merging is refused only if there is no type among the members. -/
private theorem of?_merge (lib : Library) (members : List Member) (name : Option String)
    (span : Span) : Refusal.of? (merge lib members name span) =
      if Member.types members = [] then some (.shape .refinementWithoutBase span) else none := by
  unfold merge
  match Member.types members with
  | [] => rfl
  | [_] => rfl
  | _ :: _ :: _ => rfl

/-- No member becomes a type exactly if all of them are predicates. -/
private theorem types_eq_nil_iff {ts : List TypeExpr} {ms : List Member}
    (h : reifyMembers ctx ts = .ok ms) :
    Member.types ms = [] ↔ ∀ t ∈ ts, IsPredicate ctx t := by
  have hlength := (forall₂_types h).length_eq
  rw [← List.length_eq_zero_iff, ← hlength, List.length_eq_zero_iff, List.filter_eq_nil_iff]
  simp only [decide_eq_true_eq, not_not]

/-- **One step.** A type is refused for the first of its components that is refused, and if none is,
for its own form. -/
theorem of?_reify (ctx : TypeContext) (t : TypeExpr) (name : Option String) :
    Refusal.of? (reify ctx t name) =
      ((t.components ctx).findSome? fun u => Refusal.of? (reify ctx u none)).or
        (t.refusal? ctx) := by
  obtain ⟨shape, span⟩ := t
  cases shape with
  | keyword word => cases word <;> rfl
  | array element =>
    rw [reify, Refusal.of?_bind_pure]
    exact (Option.or_none.trans List.findSome?_singleton).symm
  | nullable inner =>
    rw [reify, Refusal.of?_bind_pure]
    exact (Option.or_none.trans List.findSome?_singleton).symm
  | tuple items =>
    rw [reify, Refusal.of?_bind_pure, of?_reifyAll]
    exact Option.or_none.symm
  | union members =>
    rw [reify]
    unfold components
    dsimp only
    cases literals? members with
    | some values => rfl
    | none =>
      rw [Refusal.of?_bind_pure, of?_reifyAll]
      exact Option.or_none.symm
  | intersection members =>
    -- The members are all looked at before it matters that none of them is a type.
    have hmerge : ∀ ms, reifyMembers ctx members = .ok ms →
        Refusal.of? (merge ctx.library ms name span) =
          refusal? ctx ⟨.intersection members, span⟩ := by
      intro ms hms
      simp only [of?_merge, types_eq_nil_iff hms, refusal?, problem?]
      split_ifs <;> rfl
    rw [reify, Refusal.of?_bind hmerge, reifyMembers_eq_mapM, Refusal.of?_mapM]
    simp only [of?_reifyMember]
    rfl
  | object type =>
    rw [reify, of?_reifyObject]
    exact Option.or_none.symm
  | generic g =>
    rw [reify, reifyGeneric_eq_referent]
    unfold components refusal? problem?
    dsimp only
    cases ctx.referent g with
    | list element =>
      rw [Refusal.of?_map]
      exact (Option.or_none.trans List.findSome?_singleton).symm
    | strict properties =>
      rw [Refusal.of?_map, of?_reifyProperties]
      exact Option.or_none.symm
    | _ => rfl
  | _ => rfl

/-! ### The whole type -/

/-- The first type expression that is met in a form that is refused decides. -/
theorem of?_reify_eq_findSome? (ctx : TypeContext) (t : TypeExpr) (name : Option String) :
    Refusal.of? (reify ctx t name) = (t.visited ctx).findSome? (refusal? ctx) := by
  induction t using components_induction ctx generalizing name with
  | h t ih =>
    rw [of?_reify, visited_eq, List.findSome?_append, List.findSome?_singleton,
      findSome?_eq_flatMap fun u hu => ih u hu none]

private theorem refusal?_eq_none_iff :
    t.refusal? ctx = none ↔ ¬ ∃ problem, Offends ctx t problem := by
  rw [refusal?, Option.map_eq_none_iff, Option.eq_none_iff_forall_ne_some, not_exists]
  exact forall_congr' fun problem => not_congr problem?_eq_some_iff

private theorem refusal?_eq_some_iff {refusal : Refusal} :
    t.refusal? ctx = some refusal ↔
      ∃ problem, Offends ctx t problem ∧ refusal = .shape problem t.span := by
  rw [refusal?, Option.map_eq_some_iff]
  exact exists_congr fun problem => and_congr problem?_eq_some_iff eq_comm

/-- **Refused types.** A type is refused exactly if a type expression in one of the forms that are
refused is met from it, whatever its display name is; the refusal then says what is wrong with the
first one of these, and where it stands. -/
theorem reify_error_iff_offends (ctx : TypeContext) (t : TypeExpr) (name : Option String) :
    ((∃ refusal, reify ctx t name = .error refusal) ↔
      ∃ u, Reached ctx t u ∧ ∃ problem, Offends ctx u problem) ∧
    ∀ refusal, reify ctx t name = .error refusal ↔
      ∃ before u after problem, t.visited ctx = before ++ u :: after ∧
        (∀ v ∈ before, ¬ ∃ other, Offends ctx v other) ∧ Offends ctx u problem ∧
        refusal = .shape problem u.span := by
  have hfirst : ∀ refusal, reify ctx t name = .error refusal ↔
      (t.visited ctx).findSome? (refusal? ctx) = some refusal := fun refusal => by
    rw [← of?_reify_eq_findSome? ctx t name, Refusal.of?_eq_some]
  constructor
  · simp only [hfirst, ← Option.isSome_iff_exists, List.isSome_findSome?, List.any_eq_true,
      Option.isSome_iff_ne_none, ne_eq, refusal?_eq_none_iff, not_not, mem_visited]
  · intro refusal
    rw [hfirst, List.findSome?_eq_some_iff]
    constructor
    · rintro ⟨before, u, after, hvisited, hu, hbefore⟩
      obtain ⟨problem, hproblem, rfl⟩ := refusal?_eq_some_iff.mp hu
      exact ⟨before, u, after, problem, hvisited,
        fun v hv => refusal?_eq_none_iff.mp (hbefore v hv), hproblem, rfl⟩
    · rintro ⟨before, u, after, problem, hvisited, hbefore, hproblem, rfl⟩
      exact ⟨before, u, after, hvisited, refusal?_eq_some_iff.mpr ⟨problem, hproblem, rfl⟩,
        fun v hv => refusal?_eq_none_iff.mpr (hbefore v hv)⟩

end TypeExpr

end Reifier
