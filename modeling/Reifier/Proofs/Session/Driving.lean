import Reifier.Proofs.Program.Names
import Reifier.Proofs.Session.Refusal
import Reifier.Proofs.Session.Replacement

/-!
# Sessions that a host drives

A declaration that is recursive takes its name before its type is looked at. In a program that has
been read all names it declares are taken already, since it spells them: whether a declaration is
recursive changes nothing (`Step.Agrees`, `run_unflagged`).

So a host that opens a session, has each statement replaced by the step for its kind, says of each
declaration as it likes whether it is recursive, and closes the session comes to what a run of the
session does (`drive_eq_run`), as long as no declarations stand inside other statements: for those
there is no step of their own.
-/

namespace Reifier

/-! ### Programs without flags -/

/-- The statement, none of whose declarations is flagged as recursive. -/
def Statement.unflagged : Statement → Statement
  | declaration decl => declaration (decl.setRecursive false)
  | imports decl => imports decl
  | exports decl => exports { decl with declaration := decl.declaration.setRecursive false }
  | verbatim text => verbatim { text with
      nested := text.nested.map fun item => ⟨item.comments, item.node.setRecursive false⟩ }

/-- The program, none of whose declarations is flagged as recursive. -/
def Program.unflagged (program : Program) : Program :=
  { program with body := program.body.map fun item => ⟨item.comments, item.node.unflagged⟩ }

namespace Statement

/-- The flags make no difference to what a statement binds. -/
private theorem bound_unflagged (s : Statement) : s.unflagged.bound = s.bound := by
  have hid : ∀ decl : Declaration, (decl.setRecursive false).id = decl.id := fun decl => by
    cases decl <;> rfl
  cases s with
  | declaration decl => exact congrArg (fun id : Identifier => [id.name]) (hid decl)
  | imports decl => rfl
  | exports decl => exact congrArg (fun id : Identifier => [id.name]) (hid decl.declaration)
  | verbatim text => simp [unflagged, bound, hid]

/-- The declarations without flags are those of the statement without flags. -/
private theorem declarations_unflagged (s : Statement) :
    s.unflagged.declarations = s.declarations.map (·.setRecursive false) := by
  cases s with
  | verbatim text => simp [unflagged, declarations]
  | _ => rfl

/-- The flags make no difference to the names that a statement spells. -/
private theorem spelledIn_unflagged {names : List String} {s : Statement} :
    s.unflagged.SpelledIn names ↔ s.SpelledIn names := by
  have htype : ∀ decl : Declaration, (decl.setRecursive false).isType = decl.isType :=
    fun decl => by cases decl <;> rfl
  have hall : (∀ decl ∈ s.unflagged.declarations, decl.isType = true) ↔
      ∀ decl ∈ s.declarations, decl.isType = true := by
    rw [declarations_unflagged, List.forall_mem_map]
    simp only [htype]
  have hexports : s.unflagged.ExportsType ↔ s.ExportsType := by cases s <;> rfl
  constructor
  · exact fun h => ⟨hall.mp h.isType, hexports.mp h.exportsType, s.bound_unflagged ▸ h.mem⟩
  · exact fun h => ⟨hall.mpr h.isType, hexports.mpr h.exportsType,
      s.bound_unflagged.symm ▸ h.mem⟩

end Statement

/-- Flagging a statement and taking the flags away is taking them away. -/
private theorem Statement.unflagged_setRecursive (value : Bool) (s : Statement) :
    (s.setRecursive value).unflagged = s.unflagged := by
  have hdecl : ∀ decl : Declaration,
      (decl.setRecursive value).setRecursive false = decl.setRecursive false := fun decl => by
    cases decl <;> rfl
  cases s with
  | declaration decl => exact congrArg Statement.declaration (hdecl decl)
  | exports decl =>
    exact congrArg (fun inner => Statement.exports ⟨decl.kind, inner, decl.span⟩)
      (hdecl decl.declaration)
  | _ => rfl

/-- Setting the flags of the statements of a program changes nothing but flags. -/
private theorem Program.unflagged_setRecursive (value : Bool) (program : Program) :
    unflagged { program with
      body := program.body.map fun item => ⟨item.comments, item.node.setRecursive value⟩ } =
      program.unflagged := by
  simp only [unflagged, List.map_map, Function.comp_def, Statement.unflagged_setRecursive]

/-- All names of a set are taken in a scope. -/
def Scope.Knows (names : List String) (scope : Scope) : Prop := ∀ name ∈ names, name ∈ scope.taken

namespace Scope

variable {names : List String} {scope : Scope}

/-- Names that are taken stay so when others are gained. -/
private theorem Knows.of_gains (h : scope.Knows names) {more : List String} {next : Scope}
    (hgains : scope.Gains more next) : next.Knows names :=
  fun name hname => hgains.keeps name (h name hname)

/-- Taking a name that is taken changes nothing. -/
private theorem declare_of_mem {name : String} (h : name ∈ scope.taken) :
    (scope.declare name).2 = scope := by
  have hadd : scope.taken.add name = (false, scope.taken) := dif_pos h
  rw [declare, hadd]

end Scope

namespace Session

open Scope (Knows)

/-- Wherever some names are taken, two steps come to the same, and the names stay taken. -/
def Step.Agrees {α : Type} (names : List String) (step step' : Step α) : Prop :=
  ∀ scope : Scope, scope.Knows names →
    step.run scope = step'.run scope ∧ (step.run scope).2.Knows names

namespace Step.Agrees

variable {α β : Type} {names : List String} {step step' : Step α}

protected theorem pure (a : α) : Agrees names (pure a) (pure a) := fun _ h => ⟨rfl, h⟩

/-- Two steps and what follows on each agree if the names stay taken after the first. -/
protected theorem bind {f f' : α → Step β} (h : Agrees names step step')
    (hf : ∀ a, Agrees names (f a) (f' a)) : Agrees names (step >>= f) (step' >>= f') := by
  intro scope hscope
  obtain ⟨heq, hknows⟩ := h scope hscope
  obtain ⟨result, mid, hrun⟩ : ∃ result mid, step.run scope = (result, mid) := ⟨_, _, rfl⟩
  have hbind : (step >>= f).run scope = ExceptT.bindCont f result mid := by
    change ExceptT.bindCont f (step.run scope).1 (step.run scope).2 = _
    rw [hrun]
  have hbind' : (step' >>= f').run scope = ExceptT.bindCont f' result mid := by
    change ExceptT.bindCont f' (step'.run scope).1 (step'.run scope).2 = _
    rw [← heq, hrun]
  rw [hrun] at hknows
  rw [hbind, hbind']
  cases result with
  | ok a => exact hf a mid hknows
  | error refusal => exact ⟨rfl, hknows⟩

protected theorem map (f : α → β) (h : Agrees names step step') :
    Agrees names (f <$> step) (f <$> step') := by
  rw [map_eq_pure_bind, map_eq_pure_bind]
  exact h.bind fun a => .pure (f a)

/-- Agreement is symmetric: as the steps come to the same, the names stay taken after either. -/
theorem symm (h : Agrees names step step') : Agrees names step' step := by
  intro scope hscope
  obtain ⟨heq, hknows⟩ := h scope hscope
  exact ⟨heq.symm, heq ▸ hknows⟩

protected theorem trans {step'' : Step α} (h : Agrees names step step')
    (h' : Agrees names step' step'') : Agrees names step step'' := fun scope hscope =>
  ⟨(h scope hscope).1.trans (h' scope hscope).1, (h scope hscope).2⟩

theorem ofExcept (x : Except Refusal α) : Agrees names (Step.ofExcept x) (Step.ofExcept x) :=
  fun _ h => ⟨rfl, h⟩

theorem get : Agrees names (get : Step Scope) get := fun _ h => ⟨rfl, h⟩

/-- A step that comes to something and generates names keeps those that are taken. -/
private theorem of_generates {post : α → List String → Prop} (h : Step.Generates post step)
    (hok : ∀ scope, ∃ a next, step.run scope = (.ok a, next)) : Agrees names step step := by
  intro scope hscope
  obtain ⟨a, next, hrun⟩ := hok scope
  obtain ⟨_, -, hgains⟩ := h scope a next hrun
  rw [hrun]
  exact ⟨rfl, hscope.of_gains hgains⟩

end Step.Agrees

variable {settings : Settings} {names : List String} {decl : Declaration} {s : Statement}

/-! ### Flags do not matter -/

/-- A recursive constant whose name is taken is made as any other one. -/
private theorem run_constant_of_mem {id : Identifier} {scope : Scope} (h : id.name ∈ scope.taken)
    (span : Span) (reify : Scope → Except Refusal Expr) :
    (constant id span true reify).run scope = (constant id span false reify).run scope := by
  cases hreserved : checkReserved id with
  | error refusal =>
    rw [constant, constant, hreserved]
    rfl
  | ok _ =>
    rw [constant, constant, hreserved]
    change (noted id span reify).run (scope.declare id.name).2 = (noted id span reify).run scope
    rw [Scope.declare_of_mem h]

/-- Once its name is taken, a constant does not depend on whether it is recursive. -/
private theorem agrees_constant {id : Identifier} (h : id.name ∈ names) (span : Span)
    (recursive recursive' : Bool) (reify : Scope → Except Refusal Expr) :
    Step.Agrees names (constant id span recursive reify) (constant id span recursive' reify) := by
  have hrest : Step.Agrees names (constant id span false reify) (constant id span false reify) := by
    refine .bind (.ofExcept _) fun _ => .bind .get fun scope => .bind (.ofExcept _) fun init => ?_
    refine .bind (fun scope hscope => ?_) fun _ => .pure _
    exact ⟨rfl, hscope.of_gains (scope.gains_note init)⟩
  have hfalse : ∀ flag, Step.Agrees names (constant id span flag reify)
      (constant id span false reify) := by
    intro flag scope hscope
    have hrun : (constant id span flag reify).run scope =
        (constant id span false reify).run scope := by
      cases flag with
      | true => exact run_constant_of_mem (hscope _ h) span reify
      | false => rfl
    rw [hrun]
    exact hrest scope hscope
  exact (hfalse recursive).trans (hfalse recursive').symm

/-- A declaration whose name is taken already becomes the same whether or not it is flagged as
recursive. -/
private theorem agrees_declaration (h : decl.id.name ∈ names) (recursive recursive' : Bool) :
    Step.Agrees names (declaration settings recursive decl)
      (declaration settings recursive' decl) := by
  cases decl with
  | typeAlias decl => exact .map _ (agrees_constant h decl.span recursive recursive' _)
  | interface decl => exact .map _ (agrees_constant h decl.span recursive recursive' _)
  | const decl => exact .pure _

/-- The step for a declaration is told whether it is recursive; its flag is not looked at. -/
private theorem declaration_setRecursive (recursive value : Bool) (decl : Declaration) :
    declaration settings recursive (decl.setRecursive value) =
      declaration settings recursive decl := by
  cases decl <;> rfl

/-- Nested declarations become the same under any flags. -/
theorem agrees_nested (program program' : Program) {items : List (Item Declaration)}
    (h : ∀ item ∈ items, item.node.id.name ∈ names) :
    Step.Agrees names (nested settings program items) (nested settings program'
      (items.map fun item => ⟨item.comments, item.node.setRecursive false⟩)) := by
  induction items with
  | nil => exact .pure []
  | cons item items ih =>
    obtain ⟨hitem, hitems⟩ := List.forall_mem_cons.mp h
    rw [List.map_cons, nested, nested, declaration_setRecursive]
    refine .bind (agrees_declaration hitem _ _) fun node => ?_
    exact .bind (ih hitems) fun more => .pure _

private theorem agrees_imports (decl : Import) (recursive : Bool) :
    Step.Agrees names (statement settings recursive (.imports decl))
      (statement settings recursive (.imports decl)) :=
  .of_generates (generates_imports decl) fun _ => ⟨_, _, rfl⟩

/-- An export becomes the same under any flags, whatever its kind. -/
private theorem agrees_exported {decl : Export} (h : decl.declaration.id.name ∈ names)
    (recursive recursive' : Bool) :
    Step.Agrees names (exported settings recursive decl) (exported settings recursive' decl) := by
  obtain ⟨kind, inner, span⟩ := decl
  cases inner with
  | typeAlias inner =>
    exact .bind (agrees_constant h inner.span recursive recursive' _) fun _ => .pure _
  | interface inner =>
    exact .bind (agrees_constant h inner.span recursive recursive' _) fun _ => .pure _
  | const inner => exact .pure _

/-- A statement becomes the same under any flags. Only declarations have one. -/
private theorem agrees_statement (h : s.SpelledIn names) (recursive recursive' : Bool) :
    Step.Agrees names (statement settings recursive s) (statement settings recursive' s) := by
  cases s with
  | declaration decl =>
    have hname := h.mem _ (List.mem_singleton_self decl.id.name)
    exact .bind (agrees_declaration hname _ _) fun other => .pure _
  | imports decl => exact agrees_imports decl recursive
  | exports decl =>
    have hname := h.mem _ (List.mem_singleton_self decl.declaration.id.name)
    have hkind : decl.kind = .type := h.exportsType
    rw [statement, statement, if_pos hkind, if_pos hkind]
    exact .bind (agrees_exported hname _ _) fun other => .pure _
  | verbatim text => exact .pure _

/-- The step for a type that is exported is told whether it is recursive, too. -/
private theorem statement_unflagged (h : s.nested = []) (hexports : s.ExportsType)
    (recursive : Bool) :
    statement settings recursive s.unflagged = statement settings recursive s := by
  cases s with
  | declaration decl => rw [Statement.unflagged, statement, statement, declaration_setRecursive]
  | imports decl => rfl
  | exports decl =>
    obtain ⟨kind, inner, span⟩ := decl
    obtain rfl : kind = .type := hexports
    cases inner <;> rfl
  | verbatim text =>
    obtain ⟨text, span, nested⟩ := text
    cases h
    rfl

/-- The replacements of a statement do not depend on flags. -/
private theorem agrees_unflagged (program program' : Program) (h : s.SpelledIn names)
    (recursive recursive' : Bool) :
    Step.Agrees names (inside settings program s >>= statement settings recursive)
      (inside settings program' s.unflagged >>= statement settings recursive') := by
  have hflat : s.nested = [] → s.unflagged.nested = [] → Step.Agrees names
      (inside settings program s >>= statement settings recursive)
      (inside settings program' s.unflagged >>= statement settings recursive') := by
    intro hs hs'
    rw [inside_bind s hs, inside_bind s.unflagged hs', statement_unflagged hs h.exportsType]
    exact agrees_statement h _ _
  cases s with
  | verbatim text =>
    have hnames : ∀ item ∈ text.nested, item.node.id.name ∈ names := fun item hitem =>
      h.mem _ (List.mem_map_of_mem hitem)
    rw [Statement.unflagged, inside, inside, bind_assoc, bind_assoc]
    exact .bind (agrees_nested program program' hnames) fun items => .pure _
  | _ => exact hflat rfl rfl

/-- **A body becomes the same under any flags,** if the names that it spells are taken. -/
private theorem agrees_body (program program' : Program) {items : List (Item Statement)}
    (h : ∀ item ∈ items, item.node.SpelledIn names) :
    Step.Agrees names (body settings program items) (body settings program'
      (items.map fun item => ⟨item.comments, item.node.unflagged⟩)) := by
  induction items with
  | nil => exact .pure []
  | cons item items ih =>
    obtain ⟨hitem, hitems⟩ := List.forall_mem_cons.mp h
    rw [List.map_cons, body, body, ← bind_assoc, ← bind_assoc]
    refine .bind (agrees_unflagged program program' hitem _ _) fun ss => ?_
    exact .bind (ih hitems) fun more => .pure _

/-! ### Hosts -/

/-- The step for an import. -/
def imported (decl : Import) : Step (List Statement) := do
  let (replacements, scope) := imports decl (← get)
  set scope
  return replacements

/-- What a host has in place of a statement: the result of the step for its kind, which it tells
whether the declaration is recursive, or else the statement itself. -/
def replaced (settings : Settings) (recursive : Bool) : Statement → Step (List Statement)
  | .declaration (.typeAlias decl) => do
    return [.declaration (.const (← typeAlias settings decl recursive))]
  | .declaration (.interface decl) => do
    return [.declaration (.const (← interface settings decl recursive))]
  | .exports decl => do return [.exports (← exported settings recursive decl)]
  | .imports decl => imported decl
  | other => return [other]

/-- What a host has in place of items, one after another; `flags` says for each place in the body
whether the declaration there is recursive. The comments of an item go to its first replacement. -/
def replacedAll (settings : Settings) (flags : ℕ → Bool) :
    ℕ → List (Item Statement) → Step (List (Item Statement))
  | _, [] => return []
  | place, item :: items => do
    let replacements ← replaced settings (flags place) item.node
    let more ← replacedAll settings flags (place + 1) items
    return withComments item.comments replacements ++ more

/-- A session that a host drives: it is opened on a program, the items are replaced in order up to
the first that is refused, and it is closed. -/
def drive (session : Session) (flags : ℕ → Bool) (program : Program) : Except Refusal Program :=
  let (session, program) := session.enter program
  match (replacedAll session.settings flags 0 program.body).run session.scope with
  | (.ok items, scope) => .ok ({ session with scope }.exit { program with body := items })
  | (.error refusal, _) => .error refusal

/-- The steps for the kinds of statements are those that a run of a session takes. A run would not
look into an export of a value. -/
private theorem replaced_eq_statement (recursive : Bool) (hexports : s.ExportsType) :
    replaced settings recursive s = statement settings recursive s := by
  cases s with
  | declaration decl =>
    cases decl with
    | typeAlias decl => rw [replaced, statement, declaration, bind_map_left]
    | interface decl => rw [replaced, statement, declaration, bind_map_left]
    | const decl => rfl
  | imports decl => rfl
  | exports decl =>
    have hkind : decl.kind = .type := hexports
    rw [replaced, statement, if_pos hkind]
  | verbatim text => rfl

/-- A host that goes through the items of a flat body one by one does what the body does. -/
private theorem agrees_replacedAll (program : Program) (flags : ℕ → Bool) (place : ℕ)
    {items : List (Item Statement)} (h : ∀ item ∈ items, item.node.SpelledIn names)
    (hflat : ∀ item ∈ items, item.node.nested = []) :
    Step.Agrees names (replacedAll settings flags place items) (body settings program items) := by
  induction items generalizing place with
  | nil => exact .pure []
  | cons item items ih =>
    obtain ⟨hitem, hitems⟩ := List.forall_mem_cons.mp h
    obtain ⟨hinside, hflat⟩ := List.forall_mem_cons.mp hflat
    rw [replacedAll, body, inside_bind item.node hinside,
      replaced_eq_statement _ hitem.exportsType]
    refine .bind (agrees_statement hitem _ _) fun ss => ?_
    exact .bind (ih (place + 1) hitems hflat) fun more => .pure _

/-! ### Runs -/

private theorem knows_ofNames (names : NameSet) : (Scope.ofNames names).Knows names.toList :=
  fun _ hname => Scope.mem_ofNames_taken.mpr (.inl hname)

section Runs

variable {program : Program} (settings : Settings)
  (h : ∀ item ∈ program.body, item.node.SpelledIn program.names.toList)
  (hactive : Directive.scan settings.directive program.comments ≠ [])

include h hactive

/-- A run of a session on a program that spells the names it declares does not look at flags. -/
theorem run_unflagged : run settings program.unflagged = run settings program := by
  have hbody : (body settings (strip settings program) program.body).run
      (Scope.ofNames program.names) =
      (body settings (strip settings program.unflagged) program.unflagged.body).run
        (Scope.ofNames program.names) :=
    (agrees_body _ _ h _ (knows_ofNames program.names)).1
  have hactive' : Directive.scan settings.directive program.unflagged.comments ≠ [] := hactive
  rw [run_of_active hactive, run_of_active hactive', hbody]
  rfl

/-- A host that drives a session comes to what a run of the session does. -/
theorem drive_eq_run (hflat : ∀ item ∈ program.body, item.node.nested = []) {session : Session}
    (hsettings : session.settings = settings) (flags : ℕ → Bool) :
    session.drive flags program = run settings program := by
  obtain ⟨settings', scope, active⟩ := session
  obtain rfl : settings' = settings := hsettings
  have hagrees : Step.Agrees program.names.toList (replacedAll settings' flags 0 program.body)
      (body settings' (strip settings' program) program.body) :=
    agrees_replacedAll _ flags 0 h hflat
  have hbody := (hagrees _ (knows_ofNames program.names)).1
  have hyes : (!(Directive.scan settings'.directive program.comments).isEmpty) = true := by
    simpa using hactive
  rw [run_of_active hactive, ← hbody]
  unfold drive enter
  simp only [hyes]
  rfl

/-- Programs that differ in flags at most have the same run. -/
private theorem run_eq_of_unflagged_eq {other : Program}
    (hother : other.unflagged = program.unflagged) : run settings other = run settings program := by
  have hnames : other.names = program.names := (congrArg Program.names hother :)
  have hcomments : other.comments = program.comments := (congrArg Program.comments hother :)
  have hspelled : ∀ item ∈ other.body, item.node.SpelledIn other.names.toList := by
    intro item hitem
    have hmem : ⟨item.comments, item.node.unflagged⟩ ∈ program.unflagged.body :=
      congrArg Program.body hother ▸ List.mem_map_of_mem hitem
    obtain ⟨item', hitem', heq⟩ := List.mem_map.mp hmem
    have hnode : item'.node.unflagged = item.node.unflagged := congrArg Item.node heq
    rw [hnames, ← Statement.spelledIn_unflagged, ← hnode, Statement.spelledIn_unflagged]
    exact h item' hitem'
  rw [← run_unflagged settings h hactive, ← hother]
  exact (run_unflagged settings hspelled (hcomments ▸ hactive)).symm

end Runs

/-- **A session can be driven by hand, and recursion flags do not matter.** For a program that has
been read and takes part, a host that opens a session, has each item replaced by the step for its
kind, says of each declaration as it likes whether it is recursive, and closes the session, comes to
the program that a run of the session gives, or to the same refusal, if no declarations stand inside
statements. And wherever declarations stand, flags may be set or cleared without effect on a run. -/
theorem run_of_parse_flags {limit : Option ℕ} {source : String} {reading : Program.Reading}
    (settings : Settings) (hparse : Program.parse limit source = .ok reading)
    (hactive : Directive.scan settings.directive reading.program.comments ≠ []) :
    ((∀ item ∈ reading.program.body, item.node.nested = []) →
      ∀ (session : Session) (flags : ℕ → Bool), session.settings = settings →
        session.drive flags reading.program = run settings reading.program) ∧
    ∀ program : Program, program.unflagged = reading.program.unflagged →
      run settings program = run settings reading.program := by
  have hspelled := Program.spelledIn_of_parse hparse
  refine ⟨fun hflat session flags hsettings =>
    drive_eq_run settings hspelled hactive hflat hsettings flags, fun program hprogram => ?_⟩
  exact run_eq_of_unflagged_eq settings hspelled hactive hprogram

/-- A type that refers to itself, an exported one, and an import of types. -/
def drivenSource : String :=
  "// @tcomb\ntype A = { next: ?A }\nexport interface B { a: A }\nimport type { C } from 'm'"

/-- Whatever flags a host gives to the declarations, it comes to the program that a run gives; and
all flags may be set before the run. -/
theorem run_of_parse_flags_mixed :
    ∃ reading done, Program.parse none drivenSource = .ok reading ∧
      Directive.scan Settings.default.directive reading.program.comments ≠ [] ∧
      (∀ item ∈ reading.program.body, item.node.nested = []) ∧
      run .default reading.program = .ok done ∧ done.body.length = 5 ∧
      (∀ flags, (ofSettings .default).drive flags reading.program = .ok done) ∧
      run .default { reading.program with
        body := reading.program.body.map fun item =>
          ⟨item.comments, item.node.setRecursive true⟩ } = .ok done := by
  have houtcome : (outcomeOf .default drivenSource).map
      (fun outcome => (outcome.1, outcome.2.body.length)) = some (true, 5) := by
    decide +kernel
  have hnested : ((Program.parse none drivenSource).toOption.map fun reading =>
      reading.program.body.all fun item => item.node.nested.isEmpty) = some true := by
    decide +kernel
  obtain ⟨reading, done, hparse, hrun, hactive, hlength⟩ := exists_of_outcomeOf houtcome
  rw [hparse] at hnested
  have hflat : ∀ item ∈ reading.program.body, item.node.nested = [] := by
    simpa [Except.toOption] using hnested
  obtain ⟨hdrive, hflags⟩ := run_of_parse_flags .default hparse hactive
  refine ⟨reading, done, hparse, hactive, hflat, hrun, hlength, fun flags => ?_, ?_⟩
  · rw [hdrive hflat (ofSettings .default) flags rfl, hrun]
  · rw [hflags _ (Program.unflagged_setRecursive true reading.program), hrun]

end Session

end Reifier
