import Mathlib.Tactic
import Reifier.Session

/-!
# What a session leaves alone

A statement is inert when it declares no type, brings in no types, and does not export a type as
one. A session makes nothing but inert statements (`yields_body`), and it leaves such statements as
they are (`body_of_inert`). So a program that has been through a session comes out of another one
with the same statements; only comments that still hold the directive change once more
(`run_of_run`).

What is exported as a value is not looked into, so an inert statement may export a type as a value.
A settled one exports no type at all.
-/

namespace Reifier

/-! ### Settled statements -/

/-- A declaration of a value. -/
def Declaration.Settled : Declaration → Prop
  | .const _ => True
  | _ => False

private theorem Declaration.Settled.isType_eq_false {decl : Declaration} (h : decl.Settled) :
    decl.isType = false := by
  cases decl with
  | const decl => rfl
  | _ => exact h.elim

/-- Only types are not settled. -/
private theorem Declaration.settled_of_isType_eq_false {decl : Declaration}
    (h : decl.isType = false) : decl.Settled := by
  cases decl with
  | const decl => trivial
  | _ => cases h

/-- A statement that declares no type, brings in no types and exports nothing but values. -/
def Statement.Settled : Statement → Prop
  | .declaration decl => decl.Settled
  | .imports decl => decl.kind ≠ .type
  | .exports decl => decl.kind = .value ∧ decl.declaration.Settled
  | .verbatim text => ∀ item ∈ text.nested, item.node.Settled

/-- A program of settled statements. -/
def Program.Settled (program : Program) : Prop := ∀ item ∈ program.body, item.node.Settled

/-- A statement that a session leaves alone: what it exports may be a type if it is exported as a
value, and otherwise the statement is settled. -/
def Statement.Inert : Statement → Prop
  | .exports decl => decl.kind = .type → decl.declaration.Settled
  | .declaration decl => decl.Settled
  | .imports decl => decl.kind ≠ .type
  | .verbatim text => ∀ item ∈ text.nested, item.node.Settled

/-- A program of inert statements. -/
def Program.Inert (program : Program) : Prop := ∀ item ∈ program.body, item.node.Inert

/-- The declarations inside the brackets of a statement. -/
def Statement.nested : Statement → List (Item Declaration)
  | verbatim text => text.nested
  | _ => []

namespace Session

variable {settings : Settings} {program : Program}

/-! ### Exports -/

/-- A type is exported as what its declaration is replaced by. -/
private theorem exported_of_isType {decl : Export} (h : decl.declaration.isType = true)
    (recursive : Bool) : exported settings recursive decl = (do
      let inner ← declaration settings recursive decl.declaration
      return ⟨.value, inner, decl.span⟩) := by
  obtain ⟨kind, inner, span⟩ := decl
  cases inner with
  | typeAlias inner => simp only [exported, declaration, bind_map_left]
  | interface inner => simp only [exported, declaration, bind_map_left]
  | const inner => cases h

/-- A value is exported as it is, whatever the kind of the export. -/
private theorem exported_of_not_isType {decl : Export} (h : decl.declaration.isType = false)
    (recursive : Bool) : exported settings recursive decl = pure decl := by
  obtain ⟨kind, inner, span⟩ := decl
  cases inner with
  | const inner => rfl
  | _ => cases h

/-- Either a type is exported as one, and then as the value that it becomes, or nothing happens. -/
theorem statement_exports_cases (settings : Settings) (recursive : Bool) (decl : Export) :
    (decl.kind = .type ∧ decl.declaration.isType = true ∧
      statement settings recursive (.exports decl) = (do
        let inner ← declaration settings recursive decl.declaration
        return [.exports ⟨.value, inner, decl.span⟩])) ∨
    ((decl.kind = .value ∨ decl.declaration.isType = false) ∧
      statement settings recursive (.exports decl) = pure [.exports decl]) := by
  by_cases hkind : decl.kind = .type
  · rw [statement, if_pos hkind]
    cases htype : decl.declaration.isType with
    | true =>
      refine .inl ⟨hkind, rfl, ?_⟩
      rw [exported_of_isType htype, bind_assoc]
      simp only [pure_bind]
    | false => exact .inr ⟨.inr rfl, by rw [exported_of_not_isType htype, pure_bind]⟩
  · have hvalue : decl.kind = .value := by
      cases hcase : decl.kind with
      | value => rfl
      | type => exact absurd hcase hkind
    exact .inr ⟨.inl hvalue, by rw [statement, if_neg hkind]⟩

/-! ### Statements with nothing inside -/

/-- Nothing is done inside a statement without nested declarations. -/
theorem inside_bind {α : Type} {f : Statement → Step α} (s : Statement) (h : s.nested = []) :
    inside settings program s >>= f = f s := by
  cases s with
  | verbatim text =>
    obtain ⟨text, span, nested⟩ := text
    cases h
    exact pure_bind _ f
  | _ => exact pure_bind _ f

/-- Imports leave the binding of the library as it is. -/
theorem imports_library (decl : Import) (scope : Scope) :
    (imports decl scope).2.library = scope.library := by
  have hnotes : ∀ (consts : List Const) (scope : Scope),
      (consts.foldl (fun scope c => scope.note c.init) scope).library = scope.library := by
    intro consts
    induction consts with
    | nil => exact fun _ => rfl
    | cons c consts ih => exact fun scope => ih (scope.note c.init)
  unfold imports
  split_ifs
  · rfl
  · rfl
  · exact hnotes _ _

/-! ### Constants -/

/-- The rest of the step for a constant, once its name has been looked at: what it stands for is
reified and noted. -/
def noted (id : Identifier) (span : Span) (reify : Scope → Except Refusal Expr) : Step Const := do
  let init ← Step.ofExcept (reify (← get))
  modify (·.note init)
  return ⟨id, init, span⟩

/-! ### Inert statements are left alone -/

/-- A settled declaration stays as it is. -/
private theorem declaration_of_settled {decl : Declaration} (h : decl.Settled) (recursive : Bool) :
    declaration settings recursive decl = pure decl := by
  cases decl with
  | const decl => rfl
  | typeAlias decl => exact h.elim
  | interface decl => exact h.elim

/-- Settled declarations inside a statement stay as they are. -/
private theorem nested_of_settled {items : List (Item Declaration)}
    (h : ∀ item ∈ items, item.node.Settled) :
    nested settings program items = pure items := by
  induction items with
  | nil => rfl
  | cons item items ih =>
    rw [nested, declaration_of_settled (h item List.mem_cons_self),
      ih fun other hother => h other (List.mem_cons_of_mem item hother)]
    simp only [pure_bind]

/-- Nothing is done inside an inert statement. -/
private theorem inside_of_inert {s : Statement} (h : s.Inert) :
    inside settings program s = pure s := by
  cases s with
  | verbatim text => rw [inside, nested_of_settled h, pure_bind]
  | _ => rfl

/-- **An inert statement stays as it is.** For an export of the kind that is replaced, what it
exports is settled, and for one of the other kind the step does nothing. -/
private theorem statement_of_inert {s : Statement} (h : s.Inert) (recursive : Bool) :
    statement settings recursive s = pure [s] := by
  cases s with
  | declaration decl => rw [statement, declaration_of_settled h, pure_bind]
  | exports decl =>
    rcases statement_exports_cases settings recursive decl with ⟨hkind, htype, -⟩ | ⟨-, hstatement⟩
    · exact absurd htype (Bool.eq_false_iff.mp (h hkind).isType_eq_false)
    · exact hstatement
  | imports decl =>
    have hkind : decl.kind ≠ .type := h
    have himports : imports decl = fun scope => ([.imports decl], scope) := by
      funext scope
      rw [imports, if_pos hkind]
    rw [statement, himports]
    rfl
  | verbatim text => rfl

/-- A body of inert statements stays as it is. -/
theorem body_of_inert {items : List (Item Statement)} (h : ∀ item ∈ items, item.node.Inert) :
    body settings program items = pure items := by
  induction items with
  | nil => rfl
  | cons item items ih =>
    have hitem := h item List.mem_cons_self
    rw [body, inside_of_inert hitem, pure_bind, statement_of_inert hitem, pure_bind,
      ih fun other hother => h other (List.mem_cons_of_mem item hother), pure_bind]
    rfl

/-! ### Sessions make inert statements -/

/-- A run of two steps that does not refuse is a run of each of them. -/
theorem Step.exists_of_run_bind {α β : Type} {step : Step α} {f : α → Step β} {b : β}
    {scope scope' : Scope} (h : (step >>= f).run scope = (.ok b, scope')) :
    ∃ a mid, step.run scope = (.ok a, mid) ∧ (f a).run mid = (.ok b, scope') := by
  obtain ⟨result, mid, hfirst⟩ : ∃ result mid, step.run scope = (result, mid) := ⟨_, _, rfl⟩
  have hbind : (step >>= f).run scope = ExceptT.bindCont f result mid := by
    change ExceptT.bindCont f (step.run scope).1 (step.run scope).2 = _
    rw [hfirst]
  rw [hbind] at h
  cases result with
  | ok a => exact ⟨a, mid, hfirst, h⟩
  | error e => cases h

/-- Whatever a step comes to, unless it refuses, satisfies `post`. -/
def Step.Yields {α : Type} (post : α → Prop) (step : Step α) : Prop :=
  ∀ scope a scope', step.run scope = (.ok a, scope') → post a

namespace Step.Yields

variable {α β : Type} {post : α → Prop} {step : Step α}

protected theorem pure {a : α} (h : post a) : Yields post (pure a) := by
  intro scope b scope' hrun
  cases hrun
  exact h

/-- What one step after another comes to satisfies what the second makes of the first. -/
protected theorem bind {post' : β → Prop} {f : α → Step β} (hstep : Yields post step)
    (hf : ∀ a, post a → Yields post' (f a)) : Yields post' (step >>= f) := by
  intro scope b scope' hrun
  obtain ⟨a, mid, hfirst, hrest⟩ := Step.exists_of_run_bind hrun
  exact hf a (hstep scope a mid hfirst) mid b scope' hrest

/-- Nothing is known of what a step comes to. -/
theorem any (step : Step α) : Yields (fun _ => True) step := fun _ _ _ _ => trivial

protected theorem map {post' : β → Prop} {f : α → β} (hstep : Yields post step)
    (hf : ∀ a, post a → post' (f a)) : Yields post' (f <$> step) := by
  rw [map_eq_pure_bind]
  exact .bind hstep fun a ha => .pure (hf a ha)

end Step.Yields

/-- A declaration becomes a constant. -/
private theorem yields_declaration (recursive : Bool) (decl : Declaration) :
    Step.Yields Declaration.Settled (declaration settings recursive decl) := by
  cases decl with
  | typeAlias decl => exact .map (.any _) fun _ _ => trivial
  | interface decl => exact .map (.any _) fun _ _ => trivial
  | const decl => exact .pure trivial

/-- Nested declarations become constants. -/
theorem yields_nested (items : List (Item Declaration)) :
    Step.Yields (fun items => ∀ item ∈ items, item.node.Settled)
      (nested settings program items) := by
  induction items with
  | nil => exact .pure (List.forall_mem_nil _)
  | cons item items ih =>
    refine .bind (yields_declaration _ _) fun node hnode => .bind ih fun more hmore => .pure ?_
    exact List.forall_mem_cons.mpr ⟨hnode, hmore⟩

/-- Inside a statement without a structure everything becomes settled; other statements have nothing
inside. -/
private theorem yields_inside (s : Statement) :
    Step.Yields (fun t => match t with
      | .verbatim text => ∀ item ∈ text.nested, item.node.Settled
      | _ => True) (inside settings program s) := by
  cases s with
  | verbatim text => exact .bind (yields_nested _) fun items hitems => .pure hitems
  | _ => exact .pure trivial

/-- An import of types becomes imports of values and constants. -/
private theorem inert_imports (decl : Import) (scope : Scope) :
    ∀ s ∈ (imports decl scope).1, s.Inert := by
  intro s hs
  unfold imports at hs
  split_ifs at hs with hkind hrelative
  · obtain rfl := List.mem_singleton.mp hs
    exact hkind
  · obtain rfl := List.mem_singleton.mp hs
    exact ImportKind.noConfusion
  · rcases List.mem_cons.mp hs with rfl | hs
    · exact ImportKind.noConfusion
    · obtain ⟨c, -, rfl⟩ := List.mem_map.mp hs
      trivial

/-- **What a statement is replaced by is inert.** An export of a type as a value is inert as it
stands and is not replaced. -/
private theorem yields_statement (recursive : Bool) (s : Statement)
    (hs : match s with
      | .verbatim text => ∀ item ∈ text.nested, item.node.Settled
      | _ => True) :
    Step.Yields (fun ss => ∀ t ∈ ss, t.Inert) (statement settings recursive s) := by
  cases s with
  | declaration decl =>
    refine .bind (yields_declaration _ _) fun decl hdecl => .pure ?_
    exact List.forall_mem_singleton.mpr hdecl
  | exports decl =>
    rcases statement_exports_cases settings recursive decl with ⟨-, -, hstatement⟩ |
      ⟨hleft, hstatement⟩
    · rw [hstatement]
      refine .bind (yields_declaration _ _) fun inner hinner => .pure ?_
      exact List.forall_mem_singleton.mpr fun _ => hinner
    · rw [hstatement]
      refine .pure (List.forall_mem_singleton.mpr fun hkind => ?_)
      -- The step does nothing for an export of the other kind, and for one of a value.
      rcases hleft with hvalue | htype
      · cases hvalue.symm.trans hkind
      · exact Declaration.settled_of_isType_eq_false htype
  | imports decl =>
    intro scope ss scope' hrun
    cases hrun
    exact inert_imports decl scope
  | verbatim text => exact .pure (List.forall_mem_singleton.mpr hs)

private theorem inert_withComments {ss : List Statement} (h : ∀ s ∈ ss, s.Inert)
    (comments : List CommentId) : ∀ item ∈ withComments comments ss, item.node.Inert := by
  cases ss with
  | nil => exact List.forall_mem_nil _
  | cons s ss =>
    obtain ⟨hs, hss⟩ := List.forall_mem_cons.mp h
    refine List.forall_mem_cons.mpr ⟨hs, fun item hitem => ?_⟩
    obtain ⟨t, ht, rfl⟩ := List.mem_map.mp hitem
    exact hss t ht

/-- What a body becomes is inert. -/
theorem yields_body (items : List (Item Statement)) :
    Step.Yields (fun items => ∀ item ∈ items, item.node.Inert) (body settings program items) := by
  induction items with
  | nil => exact .pure (List.forall_mem_nil _)
  | cons item items ih =>
    refine .bind (yields_inside _) fun node hnode => ?_
    refine .bind (yields_statement _ node hnode) fun replacements hreplacements => ?_
    refine .bind ih fun more hmore => .pure fun other hother => ?_
    rcases List.mem_append.mp hother with hother | hother
    · exact inert_withComments hreplacements _ other hother
    · exact hmore other hother

/-! ### Sessions on programs that have been through one -/

/-- The program with the directive taken once out of every comment that holds it. -/
def strip (settings : Settings) (program : Program) : Program :=
  { program with
    comments := Directive.applyAll (Directive.scan settings.directive program.comments)
      program.comments }

/-- Without the directive in a comment there is nothing to take out. -/
theorem strip_of_scan_nil (h : Directive.scan settings.directive program.comments = []) :
    strip settings program = program := by
  rw [strip, h]
  rfl

/-- The library import that is put first is inert. -/
private theorem inert_exit {session : Session} (h : program.Inert) :
    (session.exit program).Inert := by
  unfold exit
  split
  · exact List.forall_mem_cons.mpr ⟨ImportKind.noConfusion, h⟩
  · exact h

/-- Without the directive a session changes nothing. -/
private theorem run_of_inactive (h : Directive.scan settings.directive program.comments = []) :
    run settings program = .ok program := by
  unfold run enter
  simp only [ofSettings, h]
  rfl

/-- With the directive in a comment a session goes through the body, in a scope of the names of the
program. -/
theorem run_of_active (h : Directive.scan settings.directive program.comments ≠ []) :
    run settings program =
      match (body settings (strip settings program) program.body).run
        (Scope.ofNames program.names) with
      | (.ok items, scope) =>
        .ok (exit ⟨settings, scope, true⟩ { strip settings program with body := items })
      | (.error refusal, _) => .error refusal := by
  have hactive : (!(Directive.scan settings.directive program.comments).isEmpty) = true := by
    simpa using h
  unfold run enter
  simp only [ofSettings, hactive]
  rfl

/-- An active session that has refused nothing ends with the replacements of its statements. -/
theorem exists_of_run {done : Program} (h : run settings program = .ok done)
    (hactive : Directive.scan settings.directive program.comments ≠ []) :
    ∃ items scope,
      (body settings (strip settings program) program.body).run (Scope.ofNames program.names) =
        (.ok items, scope) ∧
      done = exit ⟨settings, scope, true⟩ { strip settings program with body := items } := by
  rw [run_of_active hactive] at h
  obtain ⟨result, scope, hbody⟩ : ∃ result scope,
      (body settings (strip settings program) program.body).run (Scope.ofNames program.names) =
        (result, scope) := ⟨_, _, rfl⟩
  rw [hbody] at h
  cases result with
  | ok items =>
    cases h
    exact ⟨items, scope, hbody, rfl⟩
  | error refusal => cases h

/-- A session on inert statements only takes the directive out of the comments. -/
private theorem run_of_inert (h : program.Inert) :
    run settings program = .ok (strip settings program) := by
  by_cases hscan : Directive.scan settings.directive program.comments = []
  · rw [run_of_inactive hscan, strip_of_scan_nil hscan]
  · rw [run_of_active hscan, body_of_inert h]
    rfl

/-- A session that has refused nothing leaves inert statements, if it was active. -/
private theorem inert_of_run {done : Program} (h : run settings program = .ok done)
    (hactive : Directive.scan settings.directive program.comments ≠ []) : done.Inert := by
  obtain ⟨items, scope, hbody, rfl⟩ := exists_of_run h hactive
  exact inert_exit (yields_body program.body _ items scope hbody)

/-- **A second session changes no statement.** All it does is to take the directive once more out of
the comments that still hold it. -/
theorem run_of_run {done : Program} (h : run settings program = .ok done) :
    run settings done = .ok (strip settings done) := by
  -- Only an active session replaces statements; one that is not active changes nothing at all.
  by_cases hscan : Directive.scan settings.directive program.comments = []
  · rw [run_of_inactive hscan] at h
    cases h
    rw [run_of_inactive hscan, strip_of_scan_nil hscan]
  · exact run_of_inert (inert_of_run h hscan)

end Session

end Reifier
