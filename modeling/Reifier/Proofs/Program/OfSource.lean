import Reifier.Proofs.Program.Agreement
import Reifier.Proofs.TypeExpr.OfSource

/-!
# What declarations and imports take from a source

A declaration or an import that has been read takes its names from tokens of the source, and its
span goes from the first token that was taken for it to the last one (`Cursor.Reads`). One that
cannot be read is reported; the tokens taken for it are followed by the tokens that are skipped.
-/

namespace Reifier

/-! ### Declarations and imports of a source -/

section Forms

variable (source : String)

/-- All that a type alias holds is taken from a source. -/
structure TypeAlias.OfSource (decl : TypeAlias) : Prop where
  id : decl.id.OfSource source
  params : ∀ p ∈ decl.params.getD [], TypeParam.OfSource source p
  right : decl.right.OfSource source
  span : decl.span.Lies source.toList

/-- All that an interface holds is taken from a source. -/
structure Interface.OfSource (decl : Interface) : Prop where
  id : decl.id.OfSource source
  params : ∀ p ∈ decl.params.getD [], TypeParam.OfSource source p
  bases : ∀ g ∈ decl.bases, Generic.OfSource source g
  body : TypeExpr.MembersOfSource source decl.body
  bodySpan : decl.bodySpan.Lies source.toList
  span : decl.span.Lies source.toList

/-- All that a declaration of a type holds is taken from a source; a constant is never read. -/
def Declaration.OfSource : Declaration → Prop
  | typeAlias decl => decl.OfSource source
  | interface decl => decl.OfSource source
  | const _ => False

/-- The identifiers of a specifier. -/
def ImportSpecifier.identifiers : ImportSpecifier → List Identifier
  | default id => [id]
  | star id => [id]
  | named imported id => [imported, id]

/-- The identifiers of a specifier are those of a source. -/
def ImportSpecifier.OfSource (s : ImportSpecifier) : Prop :=
  ∀ id ∈ s.identifiers, id.OfSource source

/-- All that an import holds is taken from a source. -/
structure Import.OfSource (decl : Import) : Prop where
  specifiers : ∀ s ∈ decl.specifiers, s.OfSource source
  path : decl.source.span.Lies source.toList
  span : decl.span.Lies source.toList

end Forms

/-- A run of lexemes has been taken, and `span` is where it stands. -/
def Cursor.Reads (span : Span) (c d : Cursor) : Prop :=
  ∃ l run, c.Over (l :: run) d ∧ span = Lexeme.spanOf (l :: run)

namespace Program

open Reifier.TypeExpr
open Reifier.Parser (Forward Triple)
open Cursor (Sourced Goes GoesFrom)

variable {α β : Type} {source : String} {type : Parser TypeExpr} {post : α → Prop}
  {post' : β → Prop} {span : α → Span} {first : Token}

/-! ### From the first token to the last -/

/-- A parser that has taken the token `first` before, and is done with something that satisfies
`post` and whose span begins at this token. -/
def ReadsFrom (source : String) (first : Token) (post : α → Prop) (span : α → Span)
    (p : Parser α) : Prop :=
  ∀ c₀ : Cursor, Triple (fun c => Sourced source c ∧ c₀.GoesFrom first c) p
    (fun a c => (post a ∧ span a = c.spanFrom first.span.start) ∧ Sourced source c ∧
      c₀.GoesFrom first c)
    fun c => (Sourced source c ∧ c₀.GoesFrom first c) ∧ c.lastReport ≠ none

namespace ReadsFrom

protected theorem bind {p : Parser β} {f : β → Parser α} (hp : Forward (Sourced source) post' p)
    (hf : ∀ b, post' b → ReadsFrom source first post span (f b)) :
    ReadsFrom source first post span (p >>= f) := fun c₀ =>
  hp.bind_triple (fun _ _ h h' => h.trans h') (fun _ => id) fun b hb => hf b hb c₀

private theorem spanFrom_bind {make : Span → α}
    (hstart : Text.IsBoundary source.toList first.span.start)
    (h : ∀ s, s.Lies source.toList → post (make s) ∧ span (make s) = s) :
    ReadsFrom source first post span
      (Parser.spanFrom first.span.start >>= fun s => pure (make s)) := by
  refine fun c₀ => .look_bind fun s => .pure ?_
  rintro c ⟨hc, rfl⟩
  exact ⟨h _ (hc.1.spanFrom hstart), hc⟩

theorem test {view : Cursor → Bool} {a b : Parser α} (ha : ReadsFrom source first post span a)
    (hb : ReadsFrom source first post span b) :
    ReadsFrom source first post span
      (Parser.look view >>= fun yes => if yes = true then a else b) := fun c₀ =>
  .test (fun c hc => ha c₀ c hc.1) (hb c₀)

protected theorem reject (kind : Diagnostic.Kind) (detail : Option String) :
    ReadsFrom source first post span (Parser.reject kind detail) := by
  have hreject : Forward (Sourced source) (fun _ : α => False) (Parser.reject kind detail) :=
    .reject kind detail
  intro c₀
  exact (hreject.triple fun _ _ h h' => h.trans h').mono (fun _ => id)
    (fun _ _ hc => hc.1.elim) fun _ => id

end ReadsFrom

/-- A parser that is done with something that satisfies `post`, where its span is that of the run
of lexemes that have been taken for it. -/
def ReadsRun (source : String) (post : α → Prop) (span : α → Span) (p : Parser α) : Prop :=
  ∀ c : Cursor, c.Sourced source → (p c).Satisfies
    (fun a d => post a ∧ d.Sourced source ∧ c.Reads (span a) d)
    fun d => (d.Sourced source ∧ c.Goes d) ∧ d.lastReport ≠ none

/-- What is read from its first token on is read in a run. -/
private theorem ReadsRun.of_first {f : Token → Parser α}
    (hf : ∀ first ∈ Token.scan source, ReadsFrom source first post span (f first)) :
    ReadsRun source post span (Parser.advance >>= f) := by
  intro c hc
  cases hrest : c.rest with
  | nil =>
    have hhalt : Parser.advance c = .halted .overrun c := by rw [Parser.advance, hrest]
    rw [Parser.bind_of_halted hhalt]
    trivial
  | cons l ls =>
    rw [Parser.bind_of_done (Parser.advance_of_rest hrest)]
    have hfirst : c.GoesFrom l.token (c.took l ls) := ⟨l, [], rfl, .take hrest⟩
    refine (hf l.token (hc.mem_scan hrest) c _ ⟨hc.took hrest, hfirst⟩).mono ?_ ?_
    · rintro a d ⟨⟨ha, hspan⟩, hd, hgoes⟩
      obtain ⟨m, run, -, hrun, hspanOf⟩ := hgoes.exists_spanFrom
      exact ⟨ha, hd, m, run, hrun, hspan.trans hspanOf⟩
    · rintro d ⟨⟨hd, m, run, -, hrun⟩, hreport⟩
      exact ⟨⟨hd, m :: run, hrun⟩, hreport⟩

/-- What is read in a run is read from there on. -/
private theorem ReadsRun.forward {p : Parser α} (h : ReadsRun source post span p) :
    Forward (Sourced source) post p := by
  intro c₀ c hc
  refine (h c hc.1).mono ?_ ?_
  · rintro a d ⟨ha, hd, l, run, hrun, -⟩
    exact ⟨ha, hd, hc.2.trans ⟨l :: run, hrun⟩⟩
  · rintro d ⟨⟨hd, hgoes⟩, hreport⟩
    exact ⟨⟨hd, hc.2.trans hgoes⟩, hreport⟩

/-- What is made of something read in a run, with the same span, is read in it, too. -/
theorem ReadsRun.map {p : Parser α} {g : α → β} {span' : β → Span}
    (hp : ReadsRun source post span p)
    (hg : ∀ a, post a → post' (g a) ∧ span' (g a) = span a) :
    ReadsRun source post' span' (p >>= fun a => pure (g a)) := by
  intro c hc
  have hrun := hp c hc
  cases hpc : p c with
  | done a next =>
    rw [hpc] at hrun
    obtain ⟨ha, hnext, hreads⟩ := hrun
    rw [Parser.bind_of_done hpc]
    obtain ⟨hb, hspan⟩ := hg a ha
    refine ⟨hb, hnext, ?_⟩
    rwa [hspan]
  | failed next =>
    rw [hpc] at hrun
    rw [Parser.bind_of_failed hpc]
    exact hrun
  | halted cause next =>
    rw [Parser.bind_of_halted hpc]
    trivial

/-! ### Declarations -/

section Declarations

variable (h : Forward (Sourced source) (TypeExpr.OfSource source) type)

include h

theorem forward_declarationParams :
    Forward (Sourced source) (fun params => ∀ p ∈ params.getD [], TypeParam.OfSource source p)
      (declarationParams type) :=
  .test (.bind (forward_typeParams h) fun _ hparams => .pure hparams)
    (.pure (List.forall_mem_nil _))

private theorem readsRun_typeAlias :
    ReadsRun source (TypeAlias.OfSource source) TypeAlias.span (typeAlias type) := by
  refine .of_first fun first hfirst => .bind forward_identifier fun id hid => ?_
  refine .bind (forward_declarationParams h) fun params hparams => .bind (.expect _ _) fun _ _ => ?_
  refine .bind h fun right hright => .bind (.eat _) fun _ _ => ?_
  exact .spanFrom_bind (Token.lies_of_mem_scan hfirst).start fun s hs =>
    ⟨⟨hid, hparams, hright, hs⟩, rfl⟩

theorem forward_interfaceBases :
    Forward (Sourced source) (fun bases => ∀ g ∈ bases, Generic.OfSource source g)
      (interfaceBases type) :=
  .eatWord_bind (.commaSeparated (forward_generic h)) (.pure (List.forall_mem_nil _))

/-- An interface is read in a run of lexemes, from its word on. -/
private theorem readsRun_interface :
    ReadsRun source (Interface.OfSource source) Interface.span (interface type) := by
  refine .of_first fun first hfirst => .bind forward_identifier fun id hid => ?_
  refine .bind (forward_declarationParams h) fun params hparams => ?_
  refine .bind (forward_interfaceBases h) fun bases hbases => .test ?_ (.reject _ _)
  refine .bind (forward_objectType h) fun body hbody => .bind (.eat _) fun _ _ => ?_
  exact .spanFrom_bind (Token.lies_of_mem_scan hfirst).start fun s hs =>
    ⟨⟨hid, hparams, hbases, hbody.1, hbody.2, hs⟩, rfl⟩

/-- A declaration is read in a run of lexemes. The cases are its two kinds. -/
theorem readsRun_declaration :
    ReadsRun source (Declaration.OfSource source) Declaration.span (declaration type) := by
  intro c hc
  have halias : ReadsRun source (Declaration.OfSource source) Declaration.span
      (do return .typeAlias (← typeAlias type)) :=
    (readsRun_typeAlias h).map fun decl hdecl => ⟨hdecl, rfl⟩
  have hinterface : ReadsRun source (Declaration.OfSource source) Declaration.span
      (do return .interface (← interface type)) :=
    (readsRun_interface h).map fun decl hdecl => ⟨hdecl, rfl⟩
  by_cases hword : c.isWord 0 "type" = true
  · rw [declaration, Parser.nextIsWord, Parser.test_of_true hword]
    exact halias c hc
  · rw [declaration, Parser.nextIsWord, Parser.test_of_not hword]
    exact hinterface c hc

end Declarations

/-! ### Imports -/

theorem forward_importKind : Forward (Sourced source) (fun _ => True) importKind :=
  .test (.any_advance_bind fun _ => .pure trivial)
    (.test (.any_advance_bind fun _ => .pure trivial) (.pure trivial))

/-- The names of a specifier are identifiers of the source. -/
private theorem forward_namedSpecifier :
    Forward (Sourced source) (ImportSpecifier.OfSource source) namedSpecifier := by
  have hname : Forward (Sourced source) (ImportSpecifier.OfSource source) (do
      let imported ← identifier
      if ← Parser.eatWord "as" then return .named imported (← identifier)
      else return .named imported imported) := by
    refine .bind forward_identifier fun imported himported => .eatWord_bind ?_ (.pure ?_)
    · exact .bind forward_identifier fun id hid => .pure
        (List.forall_mem_cons.mpr ⟨himported, List.forall_mem_singleton.mpr hid⟩)
    · exact List.forall_mem_cons.mpr ⟨himported, List.forall_mem_singleton.mpr himported⟩
  exact .test (.reject _ _) (.test (.any_advance_bind fun _ => hname) hname)

private theorem forward_furtherSpecifiers :
    Forward (Sourced source) (fun all => ∀ s ∈ all, ImportSpecifier.OfSource source s)
      furtherSpecifiers := by
  refine .eat_bind (.expectWord_bind fun _ => .bind forward_identifier fun id hid => .pure ?_) ?_
  · exact List.forall_mem_singleton.mpr (List.forall_mem_singleton.mpr hid)
  · refine .eat_bind (.bind (.items forward_namedSpecifier) fun all hall => ?_) (.reject _ _)
    exact .expect_bind fun _ => .pure hall

/-- The specifiers of an import are of the source. -/
private theorem forward_importSpecifiers :
    Forward (Sourced source) (fun all => ∀ s ∈ all, ImportSpecifier.OfSource source s)
      importSpecifiers := by
  refine .test (.bind forward_identifier fun id hid => ?_) forward_furtherSpecifiers
  have hfirst : (ImportSpecifier.default id).OfSource source :=
    List.forall_mem_singleton.mpr hid
  refine .eat_bind (.bind forward_furtherSpecifiers fun more hmore => .pure ?_) (.pure ?_)
  · exact List.forall_mem_cons.mpr ⟨hfirst, hmore⟩
  · exact List.forall_mem_singleton.mpr hfirst

theorem forward_importClause :
    Forward (Sourced source) (fun all => ∀ s ∈ all, ImportSpecifier.OfSource source s)
      importClause :=
  .test (.pure (List.forall_mem_nil _)) (.bind forward_importSpecifiers fun _ hall =>
    .expectWord_bind fun _ => .pure hall)

theorem forward_moduleSource :
    Forward (Sourced source) (fun m => m.span.Lies source.toList) moduleSource :=
  .test (forward_advance_bind fun _ ht => .pure (Token.lies_of_mem_scan ht)) (.reject _ _)

/-- An import is read in a run of lexemes, from its word on. -/
theorem readsRun_importDeclaration :
    ReadsRun source (Import.OfSource source) Import.span importDeclaration := by
  refine .of_first fun first hfirst => .bind forward_importKind fun kind _ => ?_
  refine .bind forward_importClause fun specifiers hspecifiers => ?_
  refine .bind forward_moduleSource fun module hmodule => .bind (.eat _) fun _ _ => ?_
  exact .spanFrom_bind (Token.lies_of_mem_scan hfirst).start fun s hs =>
    ⟨⟨hspecifiers, hmodule, hs⟩, rfl⟩

/-- Exporting a declaration begins the run with one token more. -/
theorem readsRun_export (h : Forward (Sourced source) (TypeExpr.OfSource source) type) :
    ReadsRun source (fun e : Export => e.declaration.OfSource source) Export.span (do
      let first ← Parser.advance
      let decl ← declaration type
      return ⟨.type, decl, ← Parser.spanFrom first.span.start⟩) := by
  refine .of_first fun first hfirst => .bind (readsRun_declaration h).forward fun decl hdecl => ?_
  exact .spanFrom_bind (Token.lies_of_mem_scan hfirst).start fun s hs => ⟨hdecl, rfl⟩

/-! ### Skipping -/

theorem forward_skipLoop (rounds depth : ℕ) :
    Forward (Sourced source) (fun _ => True) (skipLoop rounds depth) := by
  induction rounds generalizing depth with
  | zero => exact .halt _
  | succ rounds ih =>
    exact .test (.pure trivial) (.any_advance_bind fun _ => .test (.pure trivial) (ih _))

theorem forward_skipStatement : Forward (Sourced source) (fun _ => True) skipStatement :=
  .rounds fun rounds => forward_skipLoop rounds 0

end Program

end Reifier
