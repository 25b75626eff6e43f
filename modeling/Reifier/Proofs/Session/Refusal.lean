import Reifier.Proofs.Program.Declarations
import Reifier.Proofs.Session.Settled
import Reifier.Proofs.TypeExpr.Refusal

/-!
# What a session refuses

A declaration is refused for its name, if that is reserved, and otherwise if its type has no
counterpart. This depends on the declaration and the settings alone (`Declaration.refusal?`), not on
the names of the unit, which are what the steps of a session change. So a session refuses a program
if it refuses one of its declarations, and the first of these decides, whatever stands between them
(`run_eq_error_iff`).
-/

namespace Reifier

/-! ### Refused declarations -/

namespace Declaration

/-- The counterpart of the type that is declared, under the parameters of the declaration; the value
itself if none is. -/
def reify (globals : NameSet) (lib : Library) : Declaration → Except Refusal Expr
  | typeAlias decl =>
    decl.right.reify ⟨lib, TypeParam.names decl.params, globals⟩ (some decl.id.name)
  | interface decl => decl.reify ⟨lib, TypeParam.names decl.params, globals⟩
  | const decl => .ok decl.init

/-- Why a declaration is refused, if it is: it declares a type under a reserved name, or else the
type has no counterpart. -/
def refusal? (globals : NameSet) (lib : Library) (decl : Declaration) : Option Refusal :=
  if decl.isType && isReservedName decl.id.name then some (.reservedName decl.id.name decl.id.span)
  else Refusal.of? (decl.reify globals lib)

/-- Whether and why a declaration is refused does not depend on the library. -/
private theorem refusal?_eq (globals : NameSet) (lib lib' : Library) (decl : Declaration) :
    decl.refusal? globals lib = decl.refusal? globals lib' := by
  have halike : Alike TypeExpr.Any (decl.reify globals lib) (decl.reify globals lib') := by
    cases decl with
    | typeAlias decl => exact TypeExpr.alike_reify lib lib' _ globals decl.right _
    | interface decl => exact Interface.alike_reify lib lib' _ globals decl
    | const decl => exact .ok trivial
  rw [refusal?, refusal?, halike.of?_eq]

/-- A type is refused for its name, or else for what has no counterpart in it. -/
private theorem refusal?_of_isType {decl : Declaration} (h : decl.isType = true) (globals : NameSet)
    (lib : Library) :
    decl.refusal? globals lib =
      (Refusal.of? (Session.checkReserved decl.id)).or (Refusal.of? (decl.reify globals lib)) := by
  unfold refusal? Session.checkReserved
  rw [h, Bool.true_and]
  split_ifs <;> rfl

/-- A declaration is refused exactly if it declares a type under a reserved name, or one without a
counterpart. -/
theorem refusal?_ne_none_iff {globals : NameSet} {lib : Library} {decl : Declaration} :
    decl.refusal? globals lib ≠ none ↔
      decl.isType = true ∧ (isReservedName decl.id.name = true ∨
        ∃ refusal, decl.reify globals lib = .error refusal) := by
  have hreify : Refusal.of? (decl.reify globals lib) ≠ none ↔
      ∃ refusal, decl.reify globals lib = .error refusal := by
    rw [Option.ne_none_iff_exists']
    simp only [Refusal.of?_eq_some]
  unfold refusal?
  cases htype : decl.isType with
  | true =>
    by_cases hreserved : isReservedName decl.id.name = true
    · simp [hreserved]
    · simp [hreserved, hreify]
  | false =>
    cases decl with
    | const decl => simp [reify, Refusal.of?]
    | typeAlias decl => cases htype
    | interface decl => cases htype

end Declaration

namespace Session

variable {settings : Settings} {program : Program} {lib : Library}

/-! ### Steps -/

/-- From a scope with the library `lib` the step comes to a refusal exactly if `refusal?` is one,
and then to this one; the library stays. -/
def Step.Refuses {α : Type} (lib : Library) (refusal? : Option Refusal) (step : Step α) : Prop :=
  ∀ scope : Scope, scope.library = lib.binding →
    Refusal.of? (step.run scope).1 = refusal? ∧ (step.run scope).2.library = lib.binding

namespace Step.Refuses

variable {α β : Type} {step : Step α} {first next : Option Refusal}

protected theorem pure (a : α) : Refuses lib none (pure a : Step α) :=
  fun _ hscope => ⟨rfl, hscope⟩

protected theorem ofExcept (x : Except Refusal α) :
    Refuses lib (Refusal.of? x) (Step.ofExcept x) :=
  fun _ hscope => ⟨rfl, hscope⟩

/-- The first refusal decides. -/
protected theorem bind {f : α → Step β} (hstep : Refuses lib first step)
    (hf : ∀ a, Refuses lib next (f a)) : Refuses lib (first.or next) (step >>= f) := by
  intro scope hscope
  obtain ⟨hfirst, hlibrary⟩ := hstep scope hscope
  have hbind : (step >>= f).run scope =
      ExceptT.bindCont f (step.run scope).1 (step.run scope).2 := rfl
  rw [hbind]
  cases hrun : (step.run scope).1 with
  | ok a =>
    rw [hrun] at hfirst
    subst hfirst
    exact hf a _ hlibrary
  | error refusal =>
    rw [hrun] at hfirst
    subst hfirst
    exact ⟨rfl, hlibrary⟩

/-- What only changes other names refuses nothing. -/
protected theorem modify_bind {change : Scope → Scope} {f : PUnit → Step β}
    (hchange : ∀ scope, (change scope).library = scope.library)
    (hf : Refuses lib next (f ⟨⟩)) : Refuses lib next (modify change >>= f) :=
  fun scope hscope => hf (change scope) ((hchange scope).trans hscope)

/-- A step that looks at the scope first is refused as it is in each scope with the library. -/
protected theorem get_bind {f : Scope → Step β}
    (hf : ∀ scope, scope.library = lib.binding → Refuses lib next (f scope)) :
    Refuses lib next (get >>= f) :=
  fun scope hscope => hf scope hscope scope hscope

/-- What follows may refuse nothing. -/
private theorem bind_none {f : α → Step β} (hstep : Refuses lib first step)
    (hf : ∀ a, Refuses lib none (f a)) : Refuses lib first (step >>= f) := by
  have hbind : Refuses lib (first.or none) (step >>= f) := .bind hstep hf
  rwa [Option.or_none] at hbind

theorem bind_pure {f : α → β} (hstep : Refuses lib first step) :
    Refuses lib first (step >>= fun a => pure (f a)) :=
  bind_none hstep fun a => .pure (f a)

protected theorem map {f : α → β} (hstep : Refuses lib first step) :
    Refuses lib first (f <$> step) := by
  rw [map_eq_pure_bind]
  exact bind_pure hstep

end Step.Refuses

/-! ### Declarations -/

/-- A constant is refused for its name before what it stands for is looked at. -/
private theorem refuses_constant {id : Identifier} {reify : Scope → Except Refusal Expr}
    {refusal? : Option Refusal}
    (h : ∀ scope, scope.library = lib.binding → Refusal.of? (reify scope) = refusal?)
    (span : Span) (recursive : Bool) :
    Step.Refuses lib ((Refusal.of? (checkReserved id)).or refusal?)
      (constant id span recursive reify) := by
  refine .bind (.ofExcept _) fun _ => ?_
  have hrest : Step.Refuses lib refusal? (noted id span reify) := by
    refine .get_bind fun scope hscope => ?_
    rw [← h scope hscope]
    exact .bind_none (.ofExcept _) fun init => .modify_bind (fun _ => rfl) (.pure _)
  cases recursive with
  | true => exact .modify_bind (fun _ => rfl) hrest
  | false => exact hrest

private theorem context_of_library {scope : Scope} (h : scope.library = lib.binding)
    (params : Option (List TypeParam)) :
    context settings scope params = ⟨lib, TypeParam.names params, settings.globals⟩ := by
  rw [context, h]

/-- The step for a declaration is refused as the declaration is. The cases are the kinds of
declarations. -/
private theorem refuses_declaration (recursive : Bool) (decl : Declaration) :
    Step.Refuses lib (decl.refusal? settings.globals lib)
      (declaration settings recursive decl) := by
  cases decl with
  | typeAlias decl =>
    rw [Declaration.refusal?_of_isType rfl]
    refine .map (refuses_constant (fun scope hscope => ?_) decl.span recursive)
    rw [context_of_library hscope]
    rfl
  | interface decl =>
    rw [Declaration.refusal?_of_isType rfl]
    refine .map (refuses_constant (fun scope hscope => ?_) decl.span recursive)
    rw [context_of_library hscope]
    rfl
  | const decl => exact .pure _

/-- The refusal of the first of some declarations that is refused. -/
def firstRefusal? (globals : NameSet) (lib : Library) (decls : List Declaration) : Option Refusal :=
  decls.findSome? (·.refusal? globals lib)

/-- The first refusal among declarations one behind the other. -/
private theorem firstRefusal?_append (globals : NameSet) (decls more : List Declaration) :
    firstRefusal? globals lib (decls ++ more) =
      (firstRefusal? globals lib decls).or (firstRefusal? globals lib more) :=
  List.findSome?_append

private theorem firstRefusal?_singleton (globals : NameSet) (decl : Declaration) :
    firstRefusal? globals lib [decl] = decl.refusal? globals lib := by
  rw [firstRefusal?, List.findSome?_cons]
  cases decl.refusal? globals lib <;> rfl

/-- Nested declarations are refused as the first of them that is. -/
private theorem refuses_nested (items : List (Item Declaration)) :
    Step.Refuses lib (firstRefusal? settings.globals lib (items.map Item.node))
      (nested settings program items) := by
  induction items with
  | nil => exact .pure _
  | cons item items ih =>
    rw [List.map_cons, ← List.singleton_append, firstRefusal?_append, firstRefusal?_singleton]
    exact .bind (refuses_declaration _ _) fun node => .bind_pure ih

/-! ### Statements -/

/-- What is inside a statement is treated before the statement itself; only one of the two has
declarations. -/
private theorem refuses_statement (recursive : Bool) {s : Statement} (h : s.ExportsType) :
    Step.Refuses lib (firstRefusal? settings.globals lib s.declarations)
      (inside settings program s >>= statement settings recursive) := by
  cases s with
  | declaration decl =>
    rw [inside_bind (.declaration decl) rfl, statement, Statement.declarations,
      firstRefusal?_singleton]
    exact .bind_pure (refuses_declaration recursive decl)
  | imports decl =>
    rw [inside_bind (.imports decl) rfl]
    exact fun scope hscope => ⟨rfl, (imports_library decl scope).trans hscope⟩
  | exports decl =>
    rw [inside_bind (.exports decl) rfl, Statement.declarations, firstRefusal?_singleton]
    rcases statement_exports_cases settings recursive decl with ⟨-, -, hstatement⟩ |
      ⟨hleft, hstatement⟩
    · rw [hstatement]
      exact .bind_pure (refuses_declaration recursive decl.declaration)
    · have hkind : decl.kind = .type := h
      have htype : decl.declaration.isType = false :=
        hleft.resolve_left (hkind ▸ ExportKind.noConfusion)
      -- What is left alone is exported as a type, and so is no type and not refused.
      have hnone : decl.declaration.refusal? settings.globals lib = none := by
        by_contra hrefused
        have hyes := (Declaration.refusal?_ne_none_iff.mp hrefused).1
        exact Bool.false_ne_true (htype.symm.trans hyes)
      rw [hstatement, hnone]
      exact .pure _
  | verbatim text =>
    rw [inside, bind_assoc]
    exact .bind_pure (refuses_nested text.nested)

/-- **A body is refused as the first of its declarations that is,** if nothing but types is exported
as a type. The declarations inside a statement come before it. -/
private theorem refuses_body {items : List (Item Statement)}
    (h : ∀ item ∈ items, item.node.ExportsType) :
    Step.Refuses lib (firstRefusal? settings.globals lib (Item.declarations items))
      (body settings program items) := by
  induction items with
  | nil => exact .pure _
  | cons item items ih =>
    obtain ⟨hitem, hitems⟩ := List.forall_mem_cons.mp h
    rw [Item.declarations_cons, firstRefusal?_append, body, ← bind_assoc]
    exact .bind (refuses_statement _ hitem) fun replacements => .bind_pure (ih hitems)

/-! ### Sessions -/

/-- **The first refused declaration decides.** An active session refuses a program exactly if it
refuses one of its declarations, and then for the reason for which it refuses the first of these.
The program exports types as types. -/
theorem run_eq_error_iff (h : Directive.scan settings.directive program.comments ≠ [])
    (hexports : ∀ item ∈ program.body, item.node.ExportsType) (lib : Library) (refusal : Refusal) :
    run settings program = .error refusal ↔
      firstRefusal? settings.globals lib program.declarations = some refusal := by
  -- The library that the session generates is as good as any other one.
  let generated : Library := ⟨(Scope.ofNames program.names).library⟩
  have hlibrary : firstRefusal? settings.globals lib program.declarations =
      firstRefusal? settings.globals generated program.declarations := by
    unfold firstRefusal?
    congr 1
    funext decl
    exact decl.refusal?_eq settings.globals lib _
  have hbody : Step.Refuses generated
      (firstRefusal? settings.globals generated (Item.declarations program.body))
      (body settings (strip settings program) program.body) := refuses_body hexports
  rw [hlibrary, run_of_active h, Program.declarations,
    ← (hbody (Scope.ofNames program.names) rfl).1]
  obtain ⟨result, scope, hrun⟩ : ∃ result scope,
      (body settings (strip settings program) program.body).run (Scope.ofNames program.names) =
        (result, scope) := ⟨_, _, rfl⟩
  rw [hrun]
  cases result with
  | ok items => simp [Refusal.of?]
  | error other => simp [Refusal.of?]

end Session

end Reifier
