import Reifier.Proofs.Import.Reading
import Reifier.Proofs.Import.Taking
import Reifier.Proofs.Scope.Calls
import Reifier.Session

/-!
# Printed imports are read back

The imports of a program are those of its source, what a session puts in their places, and the one
of the library. All of them are spelled with identifiers (`Import.Arises.exists_spelling`), so what
is printed for them is read as the same import, whatever names they bind. An import of types without
specifiers is the exception: empty braces are not printed, and without them no statement is read.
-/

namespace Reifier

/-! ### Imports that are printed -/

/-- Imports that a program may hold: those read from a source, what a session replaces them by, and
the import of the library. -/
inductive Import.Arises : Import → Prop
  | read {limit : Option ℕ} {source : String} {reading : Program.Reading} {item : Item Statement}
      {decl : Import} (h : Program.parse limit source = .ok reading)
      (hitem : item ∈ reading.program.body) (hnode : item.node = .imports decl) : Arises decl
  | replaced {decl new : Import} (scope : Scope) (h : Arises decl)
      (hnew : .imports new ∈ (Session.imports decl scope).1) : Arises new
  | library (settings : Settings) (names : NameSet) :
      Arises (Session.libraryImport settings (Scope.ofNames names))

namespace Import

variable {decl : Import}

/-- An import becomes itself, one of values, or one of the whole module. -/
private theorem mem_imports {new : Import} {scope : Scope}
    (h : .imports new ∈ (Session.imports decl scope).1) :
    new = decl ∨ new = { decl with kind := .value } ∨
      new = Session.wholeImport decl (scope.fresh decl.source.value).1 := by
  unfold Session.imports at h
  split_ifs at h
  · cases List.mem_singleton.mp h
    exact .inl rfl
  · cases List.mem_singleton.mp h
    exact .inr (.inl rfl)
  · rcases List.mem_cons.mp h with hfirst | hconst
    · cases hfirst
      exact .inr (.inr rfl)
    · obtain ⟨c, -, hc⟩ := List.mem_map.mp hconst
      cases hc

private theorem isIdentifier_generated (taken : NameSet) (hint : String) :
    Name.isIdentifier (Scope.generated taken hint) = true :=
  (Scope.isFirstFree_generated (fun _ => NameSet.mem_def) hint).isIdentifier

/-- An import that is held by a program is spelled with identifiers. -/
theorem Arises.exists_spelling (h : decl.Arises) :
    ∃ sp, decl.SpelledBy sp ∧ ∀ n ∈ sp.names, Name.isIdentifier n = true := by
  induction h with
  | read h hitem hnode =>
    obtain ⟨sp, hstands⟩ := Program.exists_standsAs h hitem hnode
    exact ⟨sp, hstands.spelledBy, hstands.isIdentifier⟩
  | @replaced decl new scope _ hnew ih =>
    obtain ⟨sp, hspelled, hnames⟩ := ih
    rcases mem_imports hnew with rfl | rfl | rfl
    · exact ⟨sp, hspelled, hnames⟩
    · refine ⟨{ sp with kind := .value }, ?_, hnames⟩
      exact congrArg (fun decl : Import => { decl with kind := .value }) hspelled
    · -- A module that is imported whole has a generated name, which is an identifier.
      let name := (scope.fresh decl.source.value).1
      refine ⟨⟨.value, some (.further (.star name)), Text.quote decl.source.value, true⟩, ?_, ?_⟩
      · rw [SpelledBy, ImportSpelling.meaning, Text.unquote_quote]
        rfl
      · exact List.forall_mem_singleton.mpr (isIdentifier_generated _ _)
  | library settings names =>
    let name := (Scope.ofNames names).library
    refine ⟨⟨.value, some (.default name), Text.quote settings.library, true⟩, ?_, ?_⟩
    · rw [SpelledBy, ImportSpelling.meaning, Text.unquote_quote]
      rfl
    · exact List.forall_mem_singleton.mpr (isIdentifier_generated _ _)

/-- A source is read as one import with the same kind, the same specifiers in the same order and the
same path, and nothing is wrong with it. -/
def ReadsBack (decl : Import) (reading : Program.Reading) : Prop :=
  reading.diagnostics = [] ∧
    ∃ read, reading.program.body = [⟨[], .imports read⟩] ∧ read.unplaced = decl.unplaced

/-- **Printed imports are read back.** Whatever names an import binds, its printed form is read as
this import and nothing else, unless it is an import of types without specifiers. Of such an import
the printed form holds no statement, and a `from` is missing in it. -/
theorem parse_render_of_arises (h : decl.Arises) (limit : Option ℕ) :
    ∃ reading, Program.parse limit decl.render = .ok reading ∧
      (decl.kind = .value ∨ decl.specifiers ≠ [] → decl.ReadsBack reading) ∧
      (decl.kind ≠ .value → decl.specifiers = [] → reading.program.body = [] ∧
        ∃ place, reading.diagnostics = [⟨.expectedToken, place, some "from"⟩]) := by
  obtain ⟨sp, hspelled, hnames⟩ := h.exists_spelling
  by_cases hkind : decl.kind = .value ∨ decl.specifiers ≠ []
  · obtain ⟨reading, read, hparse, hbody, hread, hdiagnostics⟩ :=
      Program.parse_of_spelledBy limit hspelled hnames hkind
    refine ⟨reading, hparse, fun _ => ⟨hdiagnostics, read, hbody, hread⟩, fun hne hnil => ?_⟩
    exact absurd hkind (not_or.mpr ⟨hne, not_not.mpr hnil⟩)
  · obtain ⟨hne, hnil⟩ := not_or.mp hkind
    obtain ⟨reading, place, hparse, hbody, hdiagnostics⟩ :=
      Program.parse_of_spelledBy_nil limit hspelled hnames hne (not_not.mp hnil)
    exact ⟨reading, hparse, fun hread => absurd hread hkind,
      fun _ _ => ⟨hbody, place, hdiagnostics⟩⟩

/-- The import that a source holds, if it holds nothing else and nothing is wrong with it. -/
def soleOf (source : String) : Option Import :=
  match Program.parse none source with
  | .ok ⟨⟨_, [⟨_, .imports decl⟩], _, _⟩, []⟩ => some decl
  | _ => none

/-- The only import of a source arises, and the source is read without reports. -/
private theorem arises_of_soleOf {source : String} (h : soleOf source = some decl) :
    decl.Arises ∧ ∃ reading, Program.parse none source = .ok reading ∧
      reading.diagnostics = [] := by
  unfold soleOf at h
  split at h
  · rename_i comments ids decl' trailing names hparse
    obtain rfl := Option.some.inj h
    exact ⟨.read hparse (List.mem_singleton_self _) rfl, _, hparse, rfl⟩
  · cases h

/-- The words of the grammar are names here, in all the places where they might be taken for what
they mean elsewhere. -/
theorem parse_render_of_arises_contextual :
    ∃ decl : Import, decl.Arises ∧ decl.kind = .typeOf ∧ decl.render =
        "import typeof type, \x7b typeof as as, from, as as type \x7d from 'it\\'s';" ∧
      ∃ reading, Program.parse none decl.render = .ok reading ∧ decl.ReadsBack reading := by
  have hsole : (soleOf
      "import typeof type, \x7b typeof as as, type from, as as type, \x7d from \"it's\"").map
      (fun decl => (decl.kind, decl.specifiers.length, decl.render)) = some (.typeOf, 4,
        "import typeof type, \x7b typeof as as, from, as as type \x7d from 'it\\'s';") := by
    decide +kernel
  obtain ⟨decl, hdecl, heq⟩ := Option.map_eq_some_iff.mp hsole
  simp only [Prod.mk.injEq] at heq
  obtain ⟨hkind, hlength, hrender⟩ := heq
  have hsome : decl.specifiers ≠ [] := fun hnil => absurd hlength (by rw [hnil]; decide)
  have harises := (arises_of_soleOf hdecl).1
  obtain ⟨reading, hparse, hread, -⟩ := parse_render_of_arises harises none
  exact ⟨decl, harises, hkind, hrender, reading, hparse, hread (.inr hsome)⟩

/-- Empty braces are not printed, and the word in front of them is then taken for a name. -/
theorem exists_not_readsBack :
    ∃ decl : Import, decl.Arises ∧
      (∃ reading, Program.parse none "import typeof \x7b\x7d from 'x'" = .ok reading ∧
        reading.diagnostics = []) ∧
      decl.render = "import typeof 'x';" ∧
      ∃ reading, Program.parse none decl.render = .ok reading ∧ ¬ decl.ReadsBack reading := by
  have hsole : soleOf "import typeof \x7b\x7d from 'x'" =
      some ⟨.typeOf, [], ⟨"x", ⟨22, 25⟩⟩, ⟨0, 25⟩⟩ := by
    decide +kernel
  obtain ⟨harises, hparse⟩ := arises_of_soleOf hsole
  obtain ⟨sp, hspelled, hnames⟩ := harises.exists_spelling
  obtain ⟨reading, place, hread, -, hdiagnostics⟩ :=
    Program.parse_of_spelledBy_nil none hspelled hnames nofun rfl
  refine ⟨_, harises, hparse, rfl, reading, hread, fun hback => ?_⟩
  rw [hback.1] at hdiagnostics
  cases hdiagnostics

end Import

end Reifier
