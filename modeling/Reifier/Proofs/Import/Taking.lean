import Reifier.Proofs.Import.Spelling
import Reifier.Proofs.Parser.Taking
import Reifier.Proofs.Program.Endings
import Reifier.Proofs.Token.Rereading

/-!
# What imports are read from

An import that has been read does not say all that stood in its place: marks on single specifiers,
a name that is bound to itself, and braces with nothing in them are not kept. But each production
takes the words of a spelling that means what it is done with (`takes_importDeclaration`).
-/

namespace Reifier.Program

open Token (Word)
open Reifier.Parser (Takes Triple)
open Reifier.TypeExpr (identifier)

variable {α : Type} {type : Parser TypeExpr}

private theorem takes_identifier : Takes identifier fun ws id => ws = [.name id.name] := by
  refine .nextIs_advance (fun t ht => .pure ?_) (.reject _ _)
  rw [Token.word, ht]
  rfl

private theorem takes_identifier_bind {f : Identifier → Parser α} {post : List Word → α → Prop}
    (hf : ∀ id, Takes (f id) fun vs => post (.name id.name :: vs)) :
    Takes (identifier >>= f) post := by
  refine .bind takes_identifier ?_
  rintro _ id rfl
  exact hf id

/-! ### Specifiers -/

/-- A name with a second one behind `as`, or without. -/
private theorem takes_named :
    Takes (do
        let imported ← identifier
        if ← Parser.eatWord "as" then return ImportSpecifier.named imported (← identifier)
        else return .named imported imported)
      fun ws a => ∃ imported bound, ws = NamedSpelling.words ⟨.value, imported, bound⟩ ∧
        a.unplaced = NamedSpelling.specifier ⟨.value, imported, bound⟩ :=
  takes_identifier_bind fun imported => .eatWord_bind
    (takes_identifier_bind fun id => .pure ⟨imported.name, some id.name, rfl, rfl⟩)
    (.pure ⟨imported.name, none, rfl, rfl⟩)

/-- The words of a spelling, and what it means. -/
def NamedSpelt (ws : List Word) (a : ImportSpecifier) : Prop :=
  ∃ s : NamedSpelling, ws = s.words ∧ a.unplaced = s.specifier

/-- A specifier is taken as one of its spellings. The cases are those of the mark and of the second
name. -/
private theorem takes_namedSpecifier : Takes namedSpecifier NamedSpelt := by
  -- What is looked for is a word that marks a specifier.
  have hmark : ∀ (c : Cursor) l ls, c.SignsAhead → specifierMarkAhead c = true →
      c.rest = l :: ls → ∃ mark : ImportKind, mark.words = [l.token.word] := by
    intro c l ls _ hyes hrest
    rw [specifierMarkAhead, Bool.and_eq_true_iff, Bool.and_eq_true_iff, Bool.or_eq_true_iff] at hyes
    rcases hyes.1.1 with hword | hword
    · exact ⟨.type, by rw [Cursor.word_of_isWord hword hrest]; rfl⟩
    · exact ⟨.typeOf, by rw [Cursor.word_of_isWord hword hrest]; rfl⟩
  refine .test (.reject _ _) (.test_advance (fun w => ∃ mark : ImportKind, mark.words = [w]) hmark
    (fun t ht => takes_named.mono ?_) (takes_named.mono ?_))
  · rintro _ a ⟨imported, bound, rfl, ha⟩
    obtain ⟨mark, hmark⟩ := ht
    refine ⟨⟨mark, imported, bound⟩, ?_, ha⟩
    rw [NamedSpelling.words, NamedSpelling.words, hmark]
    rfl
  · rintro _ a ⟨imported, bound, rfl, ha⟩
    exact ⟨_, rfl, ha⟩

/-- A list of specifiers is spelled by its items, with a comma behind the last one or without it. -/
private theorem exists_named_of_isItems {ws : List Word} {all : List ImportSpecifier}
    (h : Takes.IsItems NamedSpelt ws all) : ∃ (named : List NamedSpelling) (comma : Bool),
      ws ++ [.sign .braceClose] = (FurtherSpelling.braces named comma).words.tail ∧
        all.map ImportSpecifier.unplaced = named.map NamedSpelling.specifier := by
  obtain ⟨parts, comma, hparts, -, rfl⟩ := h
  have hnamed : ∃ named : List NamedSpelling, parts = named.map NamedSpelling.words ∧
      all.map ImportSpecifier.unplaced = named.map NamedSpelling.specifier := by
    induction hparts with
    | nil => exact ⟨[], rfl, rfl⟩
    | cons hpart _ ih =>
      obtain ⟨s, rfl, hs⟩ := hpart
      obtain ⟨named, rfl, hnamed⟩ := ih
      exact ⟨s :: named, rfl, by rw [List.map_cons, List.map_cons, hs, hnamed]⟩
  obtain ⟨named, rfl, hnamed⟩ := hnamed
  exact ⟨named, comma, List.append_assoc _ _ _, hnamed⟩

/-- Further specifiers are taken as one of their spellings: a star with a name, or braces. -/
private theorem takes_furtherSpecifiers :
    Takes furtherSpecifiers fun ws all => ∃ more : FurtherSpelling, ws = more.words ∧
      all.map ImportSpecifier.unplaced = more.specifiers := by
  refine .eat_bind (by decide) ?_ (.eat_bind (by decide) ?_ (.reject _ _))
  · exact .expectWord_bind fun _ => takes_identifier_bind fun id =>
      .pure ⟨.star id.name, rfl, rfl⟩
  · refine .bind (.items takes_namedSpecifier) fun ws all hall =>
      .expect_bind (by decide) fun _ => .pure ?_
    obtain ⟨named, comma, hws, hnamed⟩ := exists_named_of_isItems hall
    exact ⟨.braces named comma, congrArg (.sign .braceOpen :: ·) hws, hnamed⟩

/-- Specifiers are taken as a clause. The cases are those of the default import and of what follows
it. -/
private theorem takes_importSpecifiers :
    Takes importSpecifiers fun ws all => ∃ clause : ClauseSpelling, ws = clause.words ∧
      all.map ImportSpecifier.unplaced = clause.specifiers := by
  refine .test (takes_identifier_bind fun id => .eat_bind (by decide) ?_ (.pure ?_))
    (takes_furtherSpecifiers.mono ?_)
  · refine .bind takes_furtherSpecifiers ?_
    rintro _ all ⟨more, rfl, hall⟩
    refine .pure ⟨.both id.name more, by rw [List.append_nil]; rfl, ?_⟩
    rw [List.map_cons, hall]
    rfl
  · exact ⟨.default id.name, rfl, rfl⟩
  · rintro _ all ⟨more, rfl, hall⟩
    exact ⟨.further more, rfl, hall⟩

/-! ### Imports -/

private theorem takes_importClause :
    Takes importClause fun ws all => ∃ clause : Option ClauseSpelling,
      (∀ kind source semicolon,
        ws = ImportSpelling.clauseWords ⟨kind, clause, source, semicolon⟩) ∧
      all.map ImportSpecifier.unplaced = (clause.map ClauseSpelling.specifiers).getD [] := by
  refine .test (.pure ⟨none, fun _ _ _ => rfl, rfl⟩) (.bind takes_importSpecifiers ?_)
  rintro _ all ⟨clause, rfl, hall⟩
  exact .expectWord_bind fun _ => .pure ⟨some clause, fun _ _ _ => rfl, hall⟩

/-- The kind of an import is taken as its word, or as none. -/
private theorem takes_importKind : Takes importKind fun ws kind => ws = kind.words := by
  have hkind : ∀ (word : String) (c : Cursor) l ls, c.SignsAhead → importKindAhead word c = true →
      c.rest = l :: ls → l.token.word = .name word := fun word c l ls _ hyes hrest =>
    Cursor.word_of_isWord (Bool.and_eq_true_iff.mp hyes).1 hrest
  refine .test_advance (· = .name "type") (hkind "type") (fun t ht => .pure ?_)
    (.test_advance (· = .name "typeof") (hkind "typeof") (fun t ht => .pure ?_) (.pure rfl))
  · rw [ht]
    rfl
  · rw [ht]
    rfl

private theorem takes_moduleSource :
    Takes moduleSource fun ws source => ∃ text, ws = [⟨.string, text⟩] ∧
      source.unplaced = ⟨Text.unquote text, .point 0⟩ := by
  refine .nextIs_advance (fun t ht => .pure ⟨t.text, ?_, rfl⟩) (.reject _ _)
  rw [Token.word, ht]

/-- **An import is read from the words of a spelling of it**; the first of them is known where it is
begun. -/
theorem takes_importDeclaration :
    Takes importDeclaration fun ws decl =>
      ∃ w vs, ws = w :: vs ∧ ∃ sp : ImportSpelling, .name "import" :: vs = sp.words ∧
        decl.SpelledBy sp := by
  refine .advance_bind fun first => .bind takes_importKind ?_
  rintro _ kind rfl
  refine .bind takes_importClause ?_
  rintro _ specifiers ⟨clause, hclause, hspecifiers⟩
  refine .bind takes_moduleSource ?_
  rintro _ source ⟨text, rfl, hsource⟩
  have hmeaning : ∀ (semicolon : Bool) (span : Span),
      (⟨kind, specifiers, source, span⟩ : Import).SpelledBy ⟨kind, clause, text, semicolon⟩ := by
    intro semicolon span
    rw [Import.SpelledBy, Import.unplaced, hspecifiers, hsource]
    rfl
  refine .eat_bind (by decide) (.look_bind fun span => .pure ?_) (.look_bind fun span => .pure ?_)
  · exact ⟨_, _, rfl, ⟨kind, clause, text, true⟩, by rw [hclause kind text true]; rfl,
      hmeaning true span⟩
  · exact ⟨_, _, rfl, ⟨kind, clause, text, false⟩, by rw [hclause kind text false]; rfl,
      hmeaning false span⟩

/-! ### Statements -/

/-- Only what begins with `import` is read as an import. -/
private theorem importDeclaration_of_statement {c d : Cursor} {decl : Import}
    (h : statement type c = .done (.imports decl) d) :
    c.isWord 0 "import" = true ∧ importDeclaration c = .done decl d := by
  -- The other kinds of statements are no imports.
  have hother : ∀ {α : Type} {pre : Cursor → Prop} (p : Parser α) {f : α → Statement},
      (∀ a decl, f a ≠ .imports decl) → Triple pre (p >>= fun a => pure (f a))
        (fun stmt d => ∀ decl, stmt = .imports decl →
          c.isWord 0 "import" = true ∧ importDeclaration c = .done decl d) fun _ => True :=
    fun p f hf => .bind ((Triple.any p).anti fun _ _ => trivial) fun a =>
      .pure fun _ _ decl heq => absurd heq (hf a decl)
  have hstatement : Triple (· = c) (statement type) (fun stmt d => ∀ decl, stmt = .imports decl →
      c.isWord 0 "import" = true ∧ importDeclaration c = .done decl d) fun _ => True := by
    refine .test (hother _ nofun) (.test ?_ (.test ?_ (hother _ nofun)))
    · rintro e ⟨rfl, hahead⟩
      have hword : e.isWord 0 "import" = true := (Bool.and_eq_true_iff.mp hahead).1
      rw [Parser.bind_apply]
      cases hrun : importDeclaration e with
      | done a next =>
        rintro _ ⟨⟩
        exact ⟨hword, rfl⟩
      | failed next => trivial
      | halted cause next => trivial
    · refine .bind ((Triple.any _).anti fun _ _ => trivial) fun first =>
        .bind ((Triple.any _).anti fun _ _ => trivial) fun decl => .look_bind fun span => ?_
      exact .pure fun _ _ => nofun
  have hdone := hstatement c rfl
  rw [h] at hdone
  exact hdone decl rfl

/-! ### Sources -/

section Sources

variable {limit : Option ℕ} {source : String} {reading : Reading}

private theorem signsAhead_of_sourced {c : Cursor} (h : c.Sourced source) : c.SignsAhead :=
  fun l hl => Token.word_eq_sign_of_mem_scan (h.ahead l hl)

/-- An import stands in a source as it is spelled: the words in its place are those of the
spelling. -/
structure StandsAs (source : String) (decl : Import) (sp : ImportSpelling) : Prop where
  words : Token.wordsOf (sliceOf source.toList decl.span).toList = sp.words
  spelledBy : decl.SpelledBy sp

/-- **Each import of a program stands in its source as it is spelled.** -/
theorem exists_standsAs (h : parse limit source = .ok reading) {item : Item Statement}
    (hitem : item ∈ reading.program.body) {decl : Import} (hnode : item.node = .imports decl) :
    ∃ sp, StandsAs source decl sp := by
  obtain ⟨segs, after, hreads, -⟩ := exists_readsAs_of_parse h
  obtain ⟨before, behind, hbody⟩ := List.append_of_mem hitem
  obtain ⟨front, back, l, more, rfl, -, knots, b, next, last, hb, -, hfront, hover, hspan, hread,
    -⟩ := hreads.exists_read hbody
  rw [hnode] at hread hspan
  obtain ⟨hword, himport⟩ := importDeclaration_of_statement hread
  obtain ⟨run, hrun, w, vs, hwords, sp, hsp, hspelled⟩ :=
    takes_importDeclaration b.settled decl next (signsAhead_of_sourced hb.settled) himport
  -- The words that were taken are those of the run.
  obtain ⟨m, run, rfl⟩ : ∃ m more, run = m :: more := by
    cases run with
    | nil => cases hwords
    | cons m run => exact ⟨m, run, rfl⟩
  obtain ⟨rfl, hover'⟩ := hrun.of_settled hover.rest
  obtain ⟨-, rfl⟩ := List.cons.inj (hover.eq hover')
  have hfirst : l.token.word = .name "import" :=
    Cursor.word_of_isWord (l := { l with before := Trivia.none }) hword hrun.rest
  obtain ⟨-, rfl⟩ := List.cons.inj hwords
  -- The run is found again in the text that stands in its place.
  have hlexemes : (Lexeme.ofTokens (Token.scan source)).1 =
      Segment.lexemes front ++ (l :: more) ++ next.rest := (hfront.trans hover).rest
  have hall : Lexeme.ofTokens (Token.scan source) =
      (Segment.lexemes front ++ (l :: more) ++ next.rest,
        (Lexeme.ofTokens (Token.scan source)).2) :=
    Prod.ext hlexemes rfl
  have hdecl : decl.span = Lexeme.spanOf (l :: more) := hspan
  have hslice : sliceOf source.toList decl.span = Lexeme.textOf (l :: more) := by
    rw [sliceOf, hdecl, Lexeme.slice?_spanOf hall]
    exact String.ofList_toList
  refine ⟨sp, ?_, hspelled⟩
  rw [hslice, Lexeme.rereads_of_ofTokens hall _ (List.infix_append _ _ _), List.map_cons, hfirst,
    hsp]

private theorem isIdentifier_of_mem_words {w : Word} (h : w ∈ Token.words (Token.scan source))
    (hkind : w.kind = .identifier) : Name.isIdentifier w.text = true := by
  obtain ⟨t, ht, rfl⟩ := List.mem_map.mp h
  have hspells := Token.spells_of_mem_scan (List.mem_of_mem_filter ht)
  rwa [show t.kind = .identifier from hkind] at hspells

/-- The names of an import are identifiers. -/
theorem StandsAs.isIdentifier {decl : Import} {sp : ImportSpelling} (h : StandsAs source decl sp) :
    ∀ n ∈ sp.names, Name.isIdentifier n = true := by
  intro n hn
  have hmem := ImportSpelling.name_mem_words hn
  rw [← h.words] at hmem
  exact isIdentifier_of_mem_words hmem rfl

end Sources

end Reifier.Program
