import Reifier.Proofs.Program.Limit
import Reifier.Proofs.Scope.Calls
import Reifier.Proofs.Session.Replacement
import Reifier.Proofs.Token.Runs

/-!
# Generated names and the identifiers of a source

A session generates names for the library, for its two helpers and for each module that it imports
whole. All of them begin with an underscore and differ from the identifiers among the tokens of the
source. So none of them is a run of what is left when the tokens that may hold any text are blanked
out: comments, strings, templates, and what is no token (`generated_not_maximalIn`).

What a template or an unexpected run spells is not collected. A template that refers to a name which
looks like a generated one may thus refer to the import of the library afterwards
(`generated_maximalIn_template`).
-/

namespace Reifier

/-- The names of a program that has been read are the identifiers among the tokens. -/
private theorem Program.names_of_parse {limit : Option ℕ} {source : String} {reading : Reading}
    (h : parse limit source = .ok reading) :
    reading.program.names = NameSet.ofList (Token.names (Token.scan source)) := by
  obtain ⟨lexemes, after, body, next, -, -, hprogram⟩ := exists_program_of_parse h
  rw [hprogram]
  rfl

namespace Session

variable {settings : Settings} {limit : Option ℕ} {source : String} {reading : Program.Reading}
  {hidden : Token.Kind → Bool}

/-- The names generated at the start of a unit begin with an underscore and are not among its own
names. -/
private theorem generated_at_start (names : List String) :
    let start := Scope.ofNames (.ofList names)
    ∀ name ∈ [start.library, start.assert, start.extend],
      name.toList.head? = some '_' ∧ name ∉ names := by
  intro start
  obtain ⟨hlibrary, hassert, hextend⟩ := Scope.isFirstFree_ofNames names
  have hapart : ∀ {name : String} {more : List String}, name ∉ names ++ more → name ∉ names :=
    fun h hmem => h (List.mem_append_left _ hmem)
  refine List.forall_mem_cons.mpr ⟨⟨hlibrary.underscore, hlibrary.not_mem⟩, ?_⟩
  refine List.forall_mem_cons.mpr ⟨⟨hassert.underscore, hapart hassert.not_mem⟩, ?_⟩
  exact List.forall_mem_singleton.mpr ⟨hextend.underscore, hapart hextend.not_mem⟩

/-- **No generated name is an identifier that the source spells where it is split into tokens.** The
generated names are those of the library, of its helpers and of the modules that are imported whole.
What is hidden are at least the tokens that may hold any text. -/
theorem generated_not_maximalIn {done : Program} (hparse : Program.parse limit source = .ok reading)
    (hactive : Directive.scan settings.directive reading.program.comments ≠ [])
    (hrun : run settings reading.program = .ok done)
    (hhidden : ∀ t ∈ Token.scan source, t.kind.isText = true → hidden t.kind = true) :
    let start := Scope.ofNames reading.program.names
    ∃ groups, Item.AllReplacedBy reading.program.body groups ∧
      (done.body = groups.flatMap Prod.snd ∨
        done.body = ⟨[], .imports (libraryImport settings start)⟩ :: groups.flatMap Prod.snd) ∧
      ∀ name ∈ [start.library, start.assert, start.extend] ++ groups.flatMap Prod.fst,
        ¬ Name.MaximalIn name.toList (Token.visible hidden (Token.scan source)) := by
  intro start
  have hnames := Program.names_of_parse hparse
  obtain ⟨items, scope, hbody, rfl⟩ := exists_of_run hrun hactive
  obtain ⟨names, ⟨groups, hgroups, rfl, rfl⟩, hgains⟩ :=
    generates_body reading.program.body _ _ _ hbody
  have hlibrary : libraryImport settings scope = libraryImport settings start := by
    rw [libraryImport, hgains.library, libraryImport]
  have hexit := exit_body_cases ⟨settings, scope, true⟩
    { strip settings reading.program with body := groups.flatMap Prod.snd }
  rw [hlibrary] at hexit
  refine ⟨groups, hgroups, hexit, fun name hname hmaximal => ?_⟩
  -- A generated name begins with an underscore, and is none that a token spells.
  have hfresh : name.toList.head? = some '_' ∧ name ∉ Token.names (Token.scan source) := by
    rcases List.mem_append.mp hname with hname | hname
    · have hstart := generated_at_start (Token.names (Token.scan source))
      rw [← hnames] at hstart
      exact hstart name hname
    · refine ⟨hgains.underscore name hname, fun hmem => hgains.free name hname ?_⟩
      refine Scope.mem_ofNames_taken.mpr (.inl ?_)
      rw [hnames]
      exact NameSet.mem_ofList.mpr hmem
  exact hfresh.2 (Token.mem_names_of_maximalIn hhidden hfresh.1 hmaximal)

/-- The library and the module are imported here, under names that differ from `_t` and `_m`, which
the source spells. -/
theorem generated_not_maximalIn_imported :
    ∃ reading done groups,
      Program.parse none "// @tcomb\nimport type { A } from 'm'\n_t(_m, A)" = .ok reading ∧
      Directive.scan Settings.default.directive reading.program.comments ≠ [] ∧
      run .default reading.program = .ok done ∧ done.body.length = 4 ∧
      Item.AllReplacedBy reading.program.body groups ∧
      ∀ name ∈ groups.flatMap Prod.fst, ¬ Name.MaximalIn name.toList
        (Token.visible Token.Kind.isText
          (Token.scan "// @tcomb\nimport type { A } from 'm'\n_t(_m, A)")) := by
  obtain ⟨reading, done, hparse, hrun, hactive, hlength⟩ :=
    @exists_of_outcomeOf .default "// @tcomb\nimport type { A } from 'm'\n_t(_m, A)" 4
      (by decide +kernel)
  obtain ⟨groups, hgroups, -, hnames⟩ :=
    @generated_not_maximalIn _ _ _ _ Token.Kind.isText _ hparse hactive hrun fun _ _ h => h
  exact ⟨reading, done, groups, hparse, hactive, hrun, hlength, hgroups,
    fun name hname => hnames name (List.mem_append_right _ hname)⟩

/-- The template refers to a global `_t`, and to the library once it has been imported. -/
theorem generated_maximalIn_template :
    ∃ reading done,
      Program.parse none "// @tcomb\ntype A = string\nconst x = `$\x7b_t\x7d`" = .ok reading ∧
      Directive.scan Settings.default.directive reading.program.comments ≠ [] ∧
      run .default reading.program = .ok done ∧ done.body.length = 3 ∧
      (Scope.ofNames reading.program.names).library = "_t" ∧
      Name.MaximalIn "_t".toList (Token.visible (· ∈ [.lineComment, .blockComment, .string])
        (Token.scan "// @tcomb\ntype A = string\nconst x = `$\x7b_t\x7d`")) := by
  obtain ⟨reading, done, hparse, hrun, hactive, hlength⟩ :=
    @exists_of_outcomeOf .default "// @tcomb\ntype A = string\nconst x = `$\x7b_t\x7d`" 3
      (by decide +kernel)
  refine ⟨reading, done, hparse, hactive, hrun, hlength, ?_, ?_⟩
  · rw [Program.names_of_parse hparse]
    decide +kernel
  · have htext : Token.visible (· ∈ [.lineComment, .blockComment, .string])
        (Token.scan "// @tcomb\ntype A = string\nconst x = `$\x7b_t\x7d`") =
        (" \ntype A = string\nconst x = `$".toList ++ ['\x7b']) ++ "_t".toList ++
          ['\x7d', '\x60'] := by
      decide +kernel
    rw [htext]
    refine Name.maximalIn_of_stops (by decide) (fun c hc => ?_) fun c hc => ?_
    · rw [List.getLast?_concat, Option.mem_some_iff] at hc
      rw [← hc]
      decide
    · rw [List.head?_cons, Option.mem_some_iff] at hc
      rw [← hc]
      decide

end Session

end Reifier
