import Reifier.Proofs.Program.Names
import Reifier.Proofs.Scope
import Reifier.Proofs.Session.Traces

/-!
# What a session puts in place of statements

A session replaces each item of a program by some items, and the new program is these replacements
one after another, possibly behind an import of the library (`replaced_of_run`). A declaration of a
type is replaced by one constant, also when it is exported or inside another statement; what was
exported as a type is then exported as a value. An import of
types from the same project becomes one of values; an import of types from elsewhere becomes one of
the whole module, under a name that nothing else has, and a constant for each name that it brought
in. Everything else stays as it is. The comments above an item go to the first of its replacements.
-/

namespace Reifier

/-! ### Replacements -/

/-- What a declaration is replaced by: a constant of the same name at the same place, if it declares
a type. -/
inductive Declaration.ReplacedBy : Declaration → Declaration → Prop
  | typeAlias (decl : TypeAlias) (init : Expr) :
      ReplacedBy (.typeAlias decl) (.const ⟨decl.id, init, decl.span⟩)
  | interface (decl : Interface) (init : Expr) :
      ReplacedBy (.interface decl) (.const ⟨decl.id, init, decl.span⟩)
  | const (decl : Const) : ReplacedBy (.const decl) (.const decl)

/-- What a declaration inside a statement is replaced by; it keeps its comments. -/
def Item.DeclarationReplacedBy (item other : Item Declaration) : Prop :=
  other.comments = item.comments ∧ item.node.ReplacedBy other.node

/-- What a statement is replaced by. The names are those of the modules that are imported whole. -/
inductive Statement.ReplacedBy : Statement → List String → List Statement → Prop
  | declaration {decl other : Declaration} (h : decl.ReplacedBy other) :
      ReplacedBy (.declaration decl) [] [.declaration other]
  | exports {decl other : Declaration} {span : Span} (htype : decl.isType = true)
      (h : decl.ReplacedBy other) :
      ReplacedBy (.exports ⟨.type, decl, span⟩) [] [.exports ⟨.value, other, span⟩]
  | exported {decl : Export} (h : decl.kind = .value ∨ decl.declaration.isType = false) :
      ReplacedBy (.exports decl) [] [.exports decl]
  | verbatim {text : String} {span : Span} {nested others : List (Item Declaration)}
      (h : List.Forall₂ Item.DeclarationReplacedBy nested others) :
      ReplacedBy (.verbatim ⟨text, span, nested⟩) [] [.verbatim ⟨text, span, others⟩]
  | imports {decl : Import} (h : decl.kind ≠ .type) :
      ReplacedBy (.imports decl) [] [.imports decl]
  | relativeTypes {decl : Import} (h : decl.kind = .type)
      (hrelative : Session.isRelative decl.source.value = true) :
      ReplacedBy (.imports decl) [] [.imports { decl with kind := .value }]
  | externalTypes {decl : Import} (h : decl.kind = .type)
      (hexternal : ¬ Session.isRelative decl.source.value = true) (module : Identifier)
      {consts : List Const} (hids : consts.map Const.id = decl.specifiers.map ImportSpecifier.id)
      (hvalues : ∀ c ∈ consts, c.init.mentions module.name = true ∧ c.span = decl.span) :
      ReplacedBy (.imports decl) [module.name]
        (.imports ⟨.value, [.star module], decl.source, decl.span⟩ ::
          consts.map fun c => .declaration (.const c))

private theorem Statement.ReplacedBy.exists_cons {s : Statement} {modules : List String}
    {ss : List Statement} (h : s.ReplacedBy modules ss) : ∃ first more, ss = first :: more := by
  cases h <;> exact ⟨_, _, rfl⟩

/-- In two lists that are related place by place, each element of the second has its partner in the
first. -/
theorem exists_of_forall₂_of_mem {α β : Type} {R : α → β → Prop} {xs : List α} {ys : List β}
    (h : List.Forall₂ R xs ys) {y : β} (hy : y ∈ ys) : ∃ x ∈ xs, R x y := by
  induction h with
  | nil => cases hy
  | @cons x z xs ys hxz _ ih =>
    rcases List.mem_cons.mp hy with rfl | hy
    · exact ⟨x, List.mem_cons_self, hxz⟩
    · obtain ⟨w, hw, hwy⟩ := ih hy
      exact ⟨w, List.mem_cons_of_mem x hw, hwy⟩

/-- What replaces a declaration declares a value. -/
private theorem Declaration.ReplacedBy.settled {decl other : Declaration}
    (h : decl.ReplacedBy other) : other.Settled := by
  cases h <;> trivial

/-- If a statement exports nothing but types as types, no type is left in what it is replaced by. -/
private theorem Statement.ReplacedBy.settled {s : Statement} {modules : List String}
    {ss : List Statement} (h : s.ReplacedBy modules ss)
    (htypes : ∀ decl ∈ s.declarations, decl.isType = true) (hexports : s.ExportsType) :
    ∀ t ∈ ss, t.Settled := by
  cases h with
  | declaration h => exact List.forall_mem_singleton.mpr h.settled
  | exports _ h => exact List.forall_mem_singleton.mpr ⟨rfl, h.settled⟩
  | @exported decl h =>
    -- Neither an exported value nor a type that is exported as a value.
    have hkind : decl.kind = .type := hexports
    rcases h with hvalue | hnot
    · cases hvalue.symm.trans hkind
    · exact absurd (htypes _ List.mem_cons_self) (Bool.eq_false_iff.mp hnot)
  | verbatim h =>
    refine List.forall_mem_singleton.mpr fun item hitem => ?_
    obtain ⟨_, -, -, hreplaced⟩ := exists_of_forall₂_of_mem h hitem
    exact hreplaced.settled
  | imports h => exact List.forall_mem_singleton.mpr h
  | relativeTypes _ _ => exact List.forall_mem_singleton.mpr ImportKind.noConfusion
  | externalTypes _ _ _ _ _ =>
    refine List.forall_mem_cons.mpr ⟨ImportKind.noConfusion, fun t ht => ?_⟩
    obtain ⟨c, -, rfl⟩ := List.mem_map.mp ht
    trivial

/-- What an item is replaced by. The first replacement has its comments. -/
def Item.ReplacedBy (item : Item Statement) (modules : List String)
    (items : List (Item Statement)) : Prop :=
  ∃ first more, item.node.ReplacedBy modules (first :: more) ∧
    items = ⟨item.comments, first⟩ :: more.map (⟨[], ·⟩)

/-- Replacing an item loses no comment, and repeats none. -/
private theorem Item.ReplacedBy.comments_eq {item : Item Statement} {modules : List String}
    {items : List (Item Statement)} (h : item.ReplacedBy modules items) :
    items.flatMap Item.comments = item.comments := by
  obtain ⟨first, more, -, rfl⟩ := h
  have hmore : (more.map fun s => (⟨[], s⟩ : Item Statement)).flatMap Item.comments = [] :=
    List.flatMap_eq_nil_iff.mpr fun other hother => by
      obtain ⟨s, -, rfl⟩ := List.mem_map.mp hother
      rfl
  rw [List.flatMap_cons, hmore, List.append_nil]

/-- What items are replaced by, one group for each of them, with the names of the modules that are
imported whole for it. -/
def Item.AllReplacedBy (items : List (Item Statement))
    (groups : List (List String × List (Item Statement))) : Prop :=
  List.Forall₂ (fun item group => item.ReplacedBy group.1 group.2) items groups

/-- Whatever stands in a group is among the replacements of a single item. -/
theorem Item.AllReplacedBy.exists_of_mem {items : List (Item Statement)}
    {groups : List (List String × List (Item Statement))} (h : Item.AllReplacedBy items groups)
    {other : Item Statement} (hother : other ∈ groups.flatMap Prod.snd) :
    ∃ item ∈ items, ∃ modules ss, item.node.ReplacedBy modules ss ∧
      modules ⊆ groups.flatMap Prod.fst ∧ other.node ∈ ss := by
  obtain ⟨group, hgroup, hmem⟩ := List.mem_flatMap.mp hother
  obtain ⟨item, hitem, first, more, hreplaced, hitems⟩ := exists_of_forall₂_of_mem h hgroup
  refine ⟨item, hitem, _, _, hreplaced,
    fun name hname => List.mem_flatMap.mpr ⟨group, hgroup, hname⟩, ?_⟩
  rw [hitems] at hmem
  rcases List.mem_cons.mp hmem with rfl | hmem
  · exact List.mem_cons_self
  · obtain ⟨s, hs, rfl⟩ := List.mem_map.mp hmem
    exact List.mem_cons_of_mem first hs

namespace Session

variable {settings : Settings} {program : Program}

/-! ### Steps -/

instance composable_gains : Scope.Composable Scope.Gains where
  refl := .refl
  trans := .trans

/-- A step that does not refuse comes to something that satisfies `post` with the names that are
generated on the way. -/
def Step.Generates {α : Type} (post : α → List String → Prop) (step : Step α) : Prop :=
  step.Traces Scope.Gains post

/-! ### Declarations -/

/-- A constant has the name and the place that it is made for. -/
private theorem generates_constant (id : Identifier) (span : Span) (recursive : Bool)
    (reify : Scope → Except Refusal Expr) :
    Step.Generates (fun c names => names = [] ∧ ∃ init, c = ⟨id, init, span⟩)
      (constant id span recursive reify) := by
  have hrest : Step.Generates (fun c names => names = [] ∧ ∃ init, c = ⟨id, init, span⟩)
      (noted id span reify) := by
    refine .quiet_bind .get fun scope _ => .quiet_bind (.ofExcept _) fun init _ => ?_
    exact .modify_bind (fun scope => scope.gains_note init) (.pure ⟨rfl, init, rfl⟩)
  refine .quiet_bind (.ofExcept _) fun _ _ => ?_
  cases recursive with
  | true => exact .modify_bind (fun scope => scope.gains_declare id.name) hrest
  | false => exact hrest

/-- A declaration generates no names and is replaced by a constant of its name. -/
private theorem generates_declaration (recursive : Bool) (decl : Declaration) :
    Step.Generates (fun other names => names = [] ∧ decl.ReplacedBy other)
      (declaration settings recursive decl) := by
  cases decl with
  | typeAlias decl =>
    refine .map (generates_constant decl.id decl.span recursive _) ?_
    rintro c names ⟨rfl, init, rfl⟩
    exact ⟨rfl, .typeAlias decl init⟩
  | interface decl =>
    refine .map (generates_constant decl.id decl.span recursive _) ?_
    rintro c names ⟨rfl, init, rfl⟩
    exact ⟨rfl, .interface decl init⟩
  | const decl => exact .pure ⟨rfl, .const decl⟩

/-- Nested declarations generate no names and are replaced one by one. -/
private theorem generates_nested (items : List (Item Declaration)) :
    Step.Generates
      (fun others names => names = [] ∧ List.Forall₂ Item.DeclarationReplacedBy items others)
      (nested settings program items) := by
  induction items with
  | nil => exact .pure ⟨rfl, .nil⟩
  | cons item items ih =>
    refine .quiet_bind (generates_declaration _ _) fun node hnode => ?_
    exact .quiet_bind ih fun more hmore => .pure ⟨rfl, .cons ⟨rfl, hnode⟩ hmore⟩

/-! ### Statements -/

/-- Noting constants gains no names. -/
private theorem gains_notes (consts : List Const) (scope : Scope) :
    scope.Gains [] (consts.foldl (fun scope c => scope.note c.init) scope) := by
  induction consts generalizing scope with
  | nil => exact .refl scope
  | cons c consts ih => exact (scope.gains_note c.init).trans (ih (scope.note c.init))

/-- What stands for an imported type mentions the module that it is taken from. -/
private theorem specifierValue_mentions (lib : Library) (module : String)
    (specifier : ImportSpecifier) :
    (specifierValue lib module specifier).mentions module = true := by
  cases specifier <;> simp [specifierValue, orAny, Expr.mentions]

/-- An import generates a name only if it takes types from a module that is not relative: the name
that the whole module is imported under. -/
theorem generates_imports (decl : Import) :
    Step.Generates (fun ss names => (Statement.imports decl).ReplacedBy names ss)
      (ExceptT.mk (modifyGet fun scope => (imports decl scope).map .ok id)) := by
  intro scope ss scope' hrun
  cases hrun
  change ∃ names, (Statement.imports decl).ReplacedBy names (imports decl scope).1 ∧
    scope.Gains names (imports decl scope).2
  unfold imports
  split_ifs with hkind hrelative
  · exact ⟨[], .imports hkind, .refl scope⟩
  · exact ⟨[], .relativeTypes (not_not.mp hkind) hrelative, .refl scope⟩
  · obtain ⟨module, next, hfresh⟩ : ∃ module next, scope.fresh decl.source.value = (module, next) :=
      ⟨_, _, rfl⟩
    have hgains := scope.gains_fresh decl.source.value
    rw [hfresh] at hgains
    simp only [hfresh]
    refine ⟨[module], .externalTypes (not_not.mp hkind) hrelative
      ⟨module, Span.point decl.span.start⟩ ?_ ?_, hgains.trans (gains_notes _ next)⟩
    · rw [List.map_map]
      rfl
    · intro c hc
      obtain ⟨specifier, -, rfl⟩ := List.mem_map.mp hc
      exact ⟨specifierValue_mentions _ module specifier, rfl⟩

/-- A statement is replaced after what is inside it. -/
private theorem generates_statement (recursive : Bool) (s : Statement) :
    Step.Generates (fun ss names => s.ReplacedBy names ss)
      (inside settings program s >>= statement settings recursive) := by
  cases s with
  | declaration decl =>
    rw [inside_bind (.declaration decl) rfl]
    exact .quiet_bind (generates_declaration recursive decl) fun other hother =>
      .pure (.declaration hother)
  | imports decl =>
    rw [inside_bind (.imports decl) rfl]
    exact generates_imports decl
  | exports decl =>
    rw [inside_bind (.exports decl) rfl]
    rcases statement_exports_cases settings recursive decl with ⟨hkind, htype, hstatement⟩ |
      ⟨hleft, hstatement⟩
    · obtain ⟨kind, inner, span⟩ := decl
      obtain rfl : kind = .type := hkind
      rw [hstatement]
      exact .quiet_bind (generates_declaration recursive inner) fun other hother =>
        .pure (.exports htype hother)
    · rw [hstatement]
      exact .pure (.exported hleft)
  | verbatim text =>
    rw [inside, bind_assoc]
    exact .quiet_bind (generates_nested text.nested) fun others hothers =>
      .pure (.verbatim hothers)

/-- The items of a body are replaced group by group, and the names generated are those of the
groups. -/
theorem generates_body (items : List (Item Statement)) :
    Step.Generates (fun others names => ∃ groups, Item.AllReplacedBy items groups ∧
      others = groups.flatMap Prod.snd ∧ names = groups.flatMap Prod.fst)
      (body settings program items) := by
  induction items with
  | nil => exact .pure ⟨[], .nil, rfl, rfl⟩
  | cons item items ih =>
    rw [body, ← bind_assoc]
    refine .bind (generates_statement _ item.node) fun ss names hss => .bind ih ?_
    rintro more later ⟨groups, hgroups, rfl, rfl⟩
    obtain ⟨first, rest, rfl⟩ := hss.exists_cons
    refine .pure ⟨(names, withComments item.comments (first :: rest)) :: groups, ?_, rfl, ?_⟩
    · exact .cons ⟨first, rest, hss, rfl⟩ hgroups
    · rw [List.append_nil, List.flatMap_cons]

/-! ### Sessions -/

/-- Replacing items loses no comment, and repeats none. -/
private theorem comments_eq_of_allReplacedBy {items : List (Item Statement)}
    {groups : List (List String × List (Item Statement))} (h : Item.AllReplacedBy items groups) :
    (groups.flatMap Prod.snd).flatMap Item.comments = items.flatMap Item.comments := by
  induction h with
  | nil => rfl
  | cons hitem _ ih =>
    rw [List.flatMap_cons, List.flatMap_append, ih, hitem.comments_eq, List.flatMap_cons]

/-- Closing a session puts the import of the library in front, or nothing. -/
theorem exit_body_cases (session : Session) (program : Program) :
    (session.exit program).body = program.body ∨
      (session.exit program).body =
        ⟨[], .imports (libraryImport session.settings session.scope)⟩ :: program.body := by
  unfold exit
  split_ifs
  · exact .inr rfl
  · exact .inl rfl

/-- The library import that is put first is settled. -/
private theorem settled_exit {session : Session} {program : Program} (h : program.Settled) :
    (session.exit program).Settled := by
  rcases exit_body_cases session program with hexit | hexit
  · rw [Program.Settled, hexit]
    exact h
  · rw [Program.Settled, hexit]
    exact List.forall_mem_cons.mpr ⟨ImportKind.noConfusion, h⟩

private theorem exit_trailing (session : Session) (program : Program) :
    (session.exit program).trailing = program.trailing := by
  unfold exit
  split_ifs <;> rfl

/-- **A session replaces every item by its own replacement, and does nothing else.** The new program
is the replacements of the items one after another, with an import of the library in front if it is
needed. The modules that are imported whole have names that stand nowhere in the unit, are not among
its other generated names, and differ. No type is left, neither declared nor brought in nor
exported, and the comments above the items and behind them stay, in order. -/
theorem replaced_of_run {limit : Option ℕ} {source : String} {reading : Program.Reading}
    {done : Program} (hparse : Program.parse limit source = .ok reading)
    (h : run settings reading.program = .ok done)
    (hactive : Directive.scan settings.directive reading.program.comments ≠ []) :
    ∃ groups, Item.AllReplacedBy reading.program.body groups ∧
      (done.body = groups.flatMap Prod.snd ∨
        done.body =
          ⟨[], .imports (libraryImport settings (Scope.ofNames reading.program.names))⟩ ::
            groups.flatMap Prod.snd) ∧
      (groups.flatMap Prod.fst).Nodup ∧
      (∀ module ∈ groups.flatMap Prod.fst, module ∉ reading.program.names ∧
        module ≠ (Scope.ofNames reading.program.names).library ∧
        module ≠ (Scope.ofNames reading.program.names).assert ∧
        module ≠ (Scope.ofNames reading.program.names).extend) ∧
      done.Settled ∧
      done.body.flatMap Item.comments = reading.program.body.flatMap Item.comments ∧
      done.trailing = reading.program.trailing := by
  obtain ⟨items, scope, hbody, rfl⟩ := exists_of_run h hactive
  obtain ⟨names, ⟨groups, hgroups, rfl, rfl⟩, hgains⟩ :=
    generates_body reading.program.body _ _ _ hbody
  have hlibrary : libraryImport settings scope =
      libraryImport settings (Scope.ofNames reading.program.names) := by
    rw [libraryImport, hgains.library, libraryImport]
  have hsettled : ∀ item ∈ groups.flatMap Prod.snd, item.node.Settled := by
    intro item hitem
    obtain ⟨before, hbefore, _, ss, hreplaced, -, hmem⟩ := hgroups.exists_of_mem hitem
    have hspelled := Program.spelledIn_of_parse hparse before hbefore
    exact hreplaced.settled hspelled.isType hspelled.exportsType item.node hmem
  have hexit := exit_body_cases ⟨settings, scope, true⟩
    { strip settings reading.program with body := groups.flatMap Prod.snd }
  rw [hlibrary] at hexit
  refine ⟨groups, hgroups, hexit, hgains.nodup, fun module hmodule => ?_, settled_exit hsettled, ?_,
    exit_trailing _ _⟩
  · have hfree := hgains.free module hmodule
    rwa [Scope.mem_ofNames_taken, not_or, not_or, not_or] at hfree
  -- The import of the library has no comments.
  · have hcomments := comments_eq_of_allReplacedBy hgroups
    rcases hexit with hexit | hexit
    · rw [hexit, hcomments]
    · rw [hexit, List.flatMap_cons, hcomments, List.nil_append]

/-- Whether a source takes part, and what its program becomes in a session. -/
def outcomeOf (settings : Settings) (source : String) : Option (Bool × Program) :=
  (Program.parse none source).toOption.bind fun reading =>
    (run settings reading.program).toOption.map fun done =>
      (!(Directive.scan settings.directive reading.program.comments).isEmpty, done)

/-- An outcome of a source comes from a run of a session on what is read of it. -/
theorem exists_of_outcomeOf {source : String} {count : ℕ}
    (h : (outcomeOf settings source).map (fun (yes, done) => (yes, done.body.length)) =
      some (true, count)) :
    ∃ reading done, Program.parse none source = .ok reading ∧
      run settings reading.program = .ok done ∧
      Directive.scan settings.directive reading.program.comments ≠ [] ∧
      done.body.length = count := by
  unfold outcomeOf at h
  cases hparse : Program.parse none source with
  | error cause =>
    rw [hparse] at h
    cases h
  | ok reading =>
    rw [hparse] at h
    cases hrun : run settings reading.program with
    | error refusal => simp [hrun, Except.toOption] at h
    | ok done =>
      simp only [hrun, Except.toOption, Option.bind_some, Option.map_some, Option.some.injEq,
        Prod.mk.injEq, Bool.not_eq_true', List.isEmpty_eq_false_iff] at h
      exact ⟨reading, done, rfl, hrun, h.1, h.2⟩

/-- Two statements become five here: the import of the library, that of the whole module, a constant
for each of the two names that it brought in, and the exported one. -/
theorem replaced_of_run_imported :
    ∃ reading done groups,
      Program.parse none "// @tcomb\nimport type { A, B } from 'm'\nexport type C = A" =
        .ok reading ∧
      run .default reading.program = .ok done ∧
      Directive.scan Settings.default.directive reading.program.comments ≠ [] ∧
      done.body.length = 5 ∧ Item.AllReplacedBy reading.program.body groups ∧ done.Settled := by
  have houtcome : (outcomeOf .default
      "// @tcomb\nimport type { A, B } from 'm'\nexport type C = A").map
        (fun (yes, done) => (yes, done.body.length)) = some (true, 5) := by
    decide +kernel
  obtain ⟨reading, done, hparse, hrun, hactive, hlength⟩ := exists_of_outcomeOf houtcome
  obtain ⟨groups, hgroups, -, -, -, hsettled, -⟩ := replaced_of_run hparse hrun hactive
  exact ⟨reading, done, groups, hparse, hrun, hactive, hlength, hgroups, hsettled⟩

end Session

end Reifier
