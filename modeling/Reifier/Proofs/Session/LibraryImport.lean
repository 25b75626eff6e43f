import Reifier.Proofs.Expr.Occurrence
import Reifier.Proofs.Program.Names
import Reifier.Proofs.Session.Replacement

/-!
# When the library is imported

A session notes every value that it makes, on whatever way it makes it (`notes_body`), and the name
of the library is bound by nothing else, since the source does not spell it. So the import of the
library is put in front of the statements exactly if one of their constants refers to the library
(`library_imported_iff`).
-/

namespace Reifier

/-! ### What is noted -/

/-- What a scope becomes when values are noted in it. -/
structure Scope.Notes (scope : Scope) (values : List Expr) (next : Scope) : Prop where
  library : next.library = scope.library
  emitted : next.emitted = true ↔ scope.emitted = true ∨ ∃ e ∈ values, e.Free scope.library

instance composable_notes : Scope.Composable Scope.Notes where
  refl scope := ⟨rfl, by simp⟩
  trans {scope mid next values more} h h' := by
    refine ⟨h'.library.trans h.library, ?_⟩
    rw [h'.emitted, h.emitted, h.library]
    simp only [List.mem_append, or_and_right, exists_or, or_assoc]

private theorem Scope.notes_note (scope : Scope) (value : Expr) :
    scope.Notes [value] (scope.note value) := by
  refine ⟨rfl, ?_⟩
  simp [note, Expr.mentions_iff_free]

private theorem Scope.notes_notes (consts : List Const) (scope : Scope) :
    scope.Notes (consts.map Const.init)
      (consts.foldl (fun scope c => scope.note c.init) scope) := by
  induction consts generalizing scope with
  | nil => exact composable_notes.refl scope
  | cons c consts ih => exact composable_notes.trans (scope.notes_note c.init) (ih _)

/-- The value that a declaration gives a name. -/
def Declaration.value? : Declaration → Option Expr
  | const decl => some decl.init
  | _ => none

/-- The values that statements give names. -/
def Statement.values (ss : List Statement) : List Expr :=
  (ss.flatMap Statement.declarations).filterMap Declaration.value?

/-- The values in the statements of a body are those of its constants, whether declared, exported or
nested. -/
private theorem Statement.exists_mem_values_iff {items : List (Item Statement)} {p : Expr → Prop} :
    (∃ e ∈ values (items.map Item.node), p e) ↔
      ∃ c, .const c ∈ Item.declarations items ∧ p c.init := by
  have hall : (items.map Item.node).flatMap declarations = Item.declarations items :=
    List.flatMap_map _ _ items
  rw [values, hall]
  constructor
  · rintro ⟨e, he, hp⟩
    obtain ⟨decl, hdecl, hvalue⟩ := List.mem_filterMap.mp he
    cases decl with
    | const c =>
      cases hvalue
      exact ⟨c, hdecl, hp⟩
    | _ => cases hvalue
  · rintro ⟨c, hc, hp⟩
    exact ⟨c.init, List.mem_filterMap.mpr ⟨.const c, hc, rfl⟩, hp⟩

private theorem Statement.values_append (ss ts : List Statement) :
    values (ss ++ ts) = values ss ++ values ts := by
  rw [values, List.flatMap_append, List.filterMap_append, values, values]

private theorem Statement.values_consts (consts : List Const) :
    values (consts.map fun c => .declaration (.const c)) = consts.map Const.init := by
  induction consts with
  | nil => rfl
  | cons c consts ih =>
    rw [List.map_cons, List.map_cons, ← ih]
    rfl

/-- An exported type gives no name to a value. -/
private theorem Statement.values_exports_of_isType {decl : Export}
    (h : decl.declaration.isType = true) : values [.exports decl] = [] := by
  obtain ⟨kind, inner, span⟩ := decl
  cases inner with
  | const inner => cases h
  | _ => rfl

namespace Session

variable {settings : Settings} {program : Program}

/-- A constant is noted with its value. What is reified may depend on the scope. -/
private theorem notes_constant (id : Identifier) (span : Span) (recursive : Bool)
    (reify : Scope → Except Refusal Expr) :
    Step.Traces Scope.Notes (fun c values => values = [c.init])
      (constant id span recursive reify) := by
  have hrest : Step.Traces Scope.Notes (fun c values => values = [c.init])
      (noted id span reify) := by
    refine .quiet_bind .get fun scope _ => .quiet_bind (.ofExcept _) fun init _ => ?_
    exact .modify_bind (fun scope => scope.notes_note init) (.pure rfl)
  have hdeclare : ∀ scope : Scope, scope.Notes [] (scope.declare id.name).2 := fun scope =>
    ⟨rfl, (composable_notes.refl scope).emitted⟩
  refine .quiet_bind (.ofExcept _) fun _ _ => ?_
  cases recursive with
  | true => exact .modify_bind hdeclare hrest
  | false => exact hrest

/-- A type becomes a constant, whose value is noted. -/
private theorem notes_declaration (recursive : Bool) {decl : Declaration} (h : decl.isType = true) :
    Step.Traces Scope.Notes (fun other values => values = [other].filterMap Declaration.value?)
      (declaration settings recursive decl) := by
  cases decl with
  | typeAlias decl =>
    exact .map (notes_constant decl.id decl.span recursive _) fun c values hvalues => hvalues
  | interface decl =>
    exact .map (notes_constant decl.id decl.span recursive _) fun c values hvalues => hvalues
  | const decl => cases h

/-- The nested constants are noted one by one. -/
private theorem notes_nested {items : List (Item Declaration)}
    (h : ∀ item ∈ items, item.node.isType = true) :
    Step.Traces Scope.Notes
      (fun others values => values = (others.map Item.node).filterMap Declaration.value?)
      (nested settings program items) := by
  induction items with
  | nil => exact .pure rfl
  | cons item items ih =>
    obtain ⟨hitem, hitems⟩ := List.forall_mem_cons.mp h
    refine .bind (notes_declaration _ hitem) ?_
    rintro node _ rfl
    refine .bind (ih hitems) ?_
    rintro more _ rfl
    refine .pure ?_
    rw [List.append_nil, ← List.filterMap_append]
    rfl

/-- What an import is replaced by is noted: the constants that stand for imported types. -/
private theorem notes_imports (decl : Import) :
    Step.Traces Scope.Notes (fun ss values => values = Statement.values ss)
      (ExceptT.mk (modifyGet fun scope => (imports decl scope).map .ok id)) := by
  intro scope ss scope' hrun
  cases hrun
  refine ⟨_, rfl, ?_⟩
  change scope.Notes (Statement.values (imports decl scope).1) (imports decl scope).2
  unfold imports
  split_ifs with hkind hrelative
  · exact composable_notes.refl scope
  · exact composable_notes.refl scope
  · let consts := decl.specifiers.map (specifierConst ⟨scope.library⟩
      (scope.fresh decl.source.value).1 decl.span)
    have hfresh : scope.Notes [] (scope.fresh decl.source.value).2 :=
      ⟨rfl, (composable_notes.refl scope).emitted⟩
    have hvalues := Statement.values_consts consts
    have hnotes := composable_notes.trans hfresh (Scope.notes_notes consts _)
    rw [List.nil_append, ← hvalues] at hnotes
    exact hnotes

/-- A session notes what the statements it makes give names to. -/
private theorem notes_statement (recursive : Bool) {s : Statement}
    (h : ∀ decl ∈ s.declarations, decl.isType = true) :
    Step.Traces Scope.Notes (fun ss values => values = Statement.values ss)
      (inside settings program s >>= statement settings recursive) := by
  cases s with
  | declaration decl =>
    rw [inside_bind (.declaration decl) rfl]
    refine .bind (notes_declaration recursive (h decl List.mem_cons_self)) ?_
    rintro other _ rfl
    exact .pure (List.append_nil _)
  | imports decl =>
    rw [inside_bind (.imports decl) rfl]
    exact notes_imports decl
  | exports decl =>
    have htype := h decl.declaration List.mem_cons_self
    rw [inside_bind (.exports decl) rfl]
    -- An export is replaced as its declaration is, or left alone; then its kind says that it is one
    -- of a value.
    rcases statement_exports_cases settings recursive decl with ⟨-, -, hstatement⟩ |
      ⟨-, hstatement⟩
    · rw [hstatement]
      refine .bind (notes_declaration recursive htype) ?_
      rintro other _ rfl
      exact .pure (List.append_nil _)
    · rw [hstatement]
      exact .pure (Statement.values_exports_of_isType htype).symm
  | verbatim text =>
    rw [inside, bind_assoc]
    refine .bind (notes_nested (List.forall_mem_map.mp h)) ?_
    rintro others _ rfl
    refine .pure ?_
    rw [List.append_nil, Statement.values, List.flatMap_singleton]
    rfl

/-- **A body of types notes the values that it becomes, and no others.** The induction is on the
items: what is inside of a statement is noted before the statement. -/
theorem notes_body {items : List (Item Statement)}
    (h : ∀ item ∈ items, ∀ decl ∈ item.node.declarations, decl.isType = true) :
    Step.Traces Scope.Notes (fun others values => values = Statement.values (others.map Item.node))
      (body settings program items) := by
  induction items with
  | nil => exact .pure rfl
  | cons item items ih =>
    obtain ⟨hitem, hitems⟩ := List.forall_mem_cons.mp h
    rw [body, ← bind_assoc]
    refine .bind (notes_statement _ hitem) ?_
    rintro ss _ rfl
    refine .bind (ih hitems) ?_
    rintro more _ rfl
    refine .pure ?_
    have hnodes : (withComments item.comments ss).map Item.node = ss := by
      cases ss with
      | nil => rfl
      | cons s ss =>
        rw [withComments, List.map_cons, List.map_map]
        exact congrArg (s :: ·) (List.map_id ss)
    rw [List.append_nil, List.map_append, hnodes, Statement.values_append]

end Session

/-! ### What is bound -/

private theorem Declaration.ReplacedBy.id_eq {decl other : Declaration}
    (h : decl.ReplacedBy other) : other.id = decl.id := by
  cases h <;> rfl

/-- The replacements of a statement bind what it binds, and the names of modules that are imported
whole. -/
private theorem Statement.ReplacedBy.bound_subset {s : Statement} {modules : List String}
    {ss : List Statement} (h : s.ReplacedBy modules ss) :
    ∀ t ∈ ss, ∀ name ∈ t.bound, name ∈ s.bound ∨ name ∈ modules := by
  cases h with
  | declaration h =>
    refine List.forall_mem_singleton.mpr fun name hname => .inl ?_
    rwa [bound, h.id_eq] at hname
  | exports _ h =>
    refine List.forall_mem_singleton.mpr fun name hname => .inl ?_
    rwa [bound, h.id_eq] at hname
  | exported _ => exact List.forall_mem_singleton.mpr fun name hname => .inl hname
  | verbatim h =>
    refine List.forall_mem_singleton.mpr fun name hname => .inl ?_
    -- Declarations keep their names when they are replaced.
    have hsame : ∀ {nested others : List (Item Declaration)},
        List.Forall₂ Item.DeclarationReplacedBy nested others →
        others.map (fun item => item.node.id.name) = nested.map fun item => item.node.id.name := by
      intro nested others hall
      induction hall with
      | nil => rfl
      | cons hitem _ ih => rw [List.map_cons, List.map_cons, ih, hitem.2.id_eq]
    rwa [bound, hsame h] at hname
  | imports h => exact List.forall_mem_singleton.mpr fun name hname => .inl hname
  | relativeTypes h hrelative =>
    exact List.forall_mem_singleton.mpr fun name hname => .inl hname
  | externalTypes h hexternal module hids hvalues =>
    rename_i decl consts
    refine List.forall_mem_cons.mpr ⟨fun name hname => .inr hname, fun t ht name hname => .inl ?_⟩
    obtain ⟨c, hc, rfl⟩ := List.mem_map.mp ht
    obtain rfl := List.mem_singleton.mp hname
    have hid : c.id ∈ decl.specifiers.map ImportSpecifier.id := hids ▸ List.mem_map_of_mem hc
    obtain ⟨specifier, hspecifier, hid⟩ := List.mem_map.mp hid
    exact List.mem_map.mpr ⟨specifier, hspecifier, congrArg Identifier.name hid⟩

/-- What the replacements bind is bound by the items that they replace, or is a module generated for
one. -/
private theorem Item.AllReplacedBy.bound_subset {items : List (Item Statement)}
    {groups : List (List String × List (Item Statement))} (h : Item.AllReplacedBy items groups) :
    ∀ t ∈ groups.flatMap Prod.snd, ∀ name ∈ t.node.bound,
      (∃ item ∈ items, name ∈ item.node.bound) ∨ name ∈ groups.flatMap Prod.fst := by
  intro t ht name hname
  obtain ⟨item, hitem, modules, ss, hreplaced, hmodules, hnode⟩ := h.exists_of_mem ht
  rcases hreplaced.bound_subset t.node hnode name hname with hbound | hmodule
  · exact .inl ⟨item, hitem, hbound⟩
  · exact .inr (hmodules hmodule)

/-! ### Sessions -/

namespace Session

variable {settings : Settings} {source : String} {limit : Option ℕ} {reading : Program.Reading}

/-- **The library is imported exactly if a constant refers to it.** Then its import is the first
statement, and no other one binds the name of the library; otherwise none does. -/
theorem library_imported_iff {done : Program} (hparse : Program.parse limit source = .ok reading)
    (hactive : Directive.scan settings.directive reading.program.comments ≠ [])
    (hrun : run settings reading.program = .ok done) :
    let library := (Scope.ofNames reading.program.names).library
    let first : Item Statement := ⟨[], .imports ⟨.value, [.default ⟨library, Span.point 0⟩],
      ⟨settings.library, Span.point 0⟩, Span.point 0⟩⟩
    ((∃ items, done.body = first :: items ∧ ∀ item ∈ items, library ∉ item.node.bound) ↔
      ∃ c, .const c ∈ done.declarations ∧ c.init.Free library) ∧
    ((¬ ∃ c, .const c ∈ done.declarations ∧ c.init.Free library) →
      ∀ item ∈ done.body, library ∉ item.node.bound) := by
  intro library first
  have hspelled := Program.spelledIn_of_parse hparse
  obtain ⟨items, scope, hbody, rfl⟩ := exists_of_run hrun hactive
  -- The library has a generated name: no statement spells it, and no module is given it.
  have hunbound : ∀ item ∈ items, library ∉ item.node.bound := by
    obtain ⟨names, ⟨groups, hgroups, rfl, rfl⟩, hgains⟩ :=
      generates_body reading.program.body _ _ _ hbody
    intro item hitem hmem
    rcases hgroups.bound_subset item hitem library hmem with ⟨other, hother, hbound⟩ | hmodule
    · exact Scope.generated_not_mem _ "t" ((hspelled other hother).mem library hbound)
    · exact hgains.free library hmodule (Scope.mem_ofNames_taken.mpr (.inr (.inl rfl)))
  obtain ⟨values, rfl, hnotes⟩ :=
    notes_body (fun item hitem => (hspelled item hitem).isType) _ _ _ hbody
  -- The scope records whether the library occurs in a value that has been noted.
  have hemitted : scope.emitted = true ↔
      ∃ c, .const c ∈ Item.declarations items ∧ c.init.Free library := by
    have hfalse : ¬ (Scope.ofNames reading.program.names).emitted = true := Bool.false_ne_true
    rw [hnotes.emitted, or_iff_right hfalse]
    exact Statement.exists_mem_values_iff
  have hfirst : library ∈ first.node.bound := List.mem_cons_self
  have himport : (⟨[], .imports (libraryImport settings scope)⟩ : Item Statement) = first := by
    rw [libraryImport, hnotes.library]
  have hdeclarations : Item.declarations (first :: items) = Item.declarations items := rfl
  unfold exit
  split_ifs with hscope
  · have hneeded := hemitted.mp hscope
    simp only [Program.declarations, himport, hdeclarations]
    exact ⟨iff_of_true ⟨items, rfl, hunbound⟩ hneeded, fun hnot => absurd hneeded hnot⟩
  · have hnot := mt hemitted.mpr hscope
    refine ⟨iff_of_false ?_ hnot, fun _ => hunbound⟩
    rintro ⟨others, hothers, -⟩
    have hitems : items = first :: others := hothers
    exact hunbound first (hitems ▸ List.mem_cons_self) hfirst

/-- The type of strings is a member of the library here, so the alias brings the import in. -/
theorem library_imported_iff_alias :
    ∃ reading done, Program.parse none "// @tcomb\ntype A = string" = .ok reading ∧
      Directive.scan Settings.default.directive reading.program.comments ≠ [] ∧
      run .default reading.program = .ok done ∧ done.body.length = 2 ∧
      ((∃ items, done.body = ⟨[], .imports (libraryImport .default
          (Scope.ofNames reading.program.names))⟩ :: items ∧
            ∀ item ∈ items, (Scope.ofNames reading.program.names).library ∉ item.node.bound) ↔
        ∃ c, .const c ∈ done.declarations ∧
          c.init.Free (Scope.ofNames reading.program.names).library) := by
  obtain ⟨reading, done, hparse, hrun, hactive, hlength⟩ :=
    @exists_of_outcomeOf .default "// @tcomb\ntype A = string" 2 (by decide +kernel)
  exact ⟨reading, done, hparse, hactive, hrun, hlength,
    (library_imported_iff hparse hactive hrun).1⟩

end Session

end Reifier
