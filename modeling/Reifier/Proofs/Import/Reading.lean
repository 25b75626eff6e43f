import Reifier.Proofs.Import.Spelling
import Reifier.Proofs.Program.Written
import Reifier.Proofs.TypeExpr.Forms

/-!
# Plain spellings read back

The words `type`, `typeof`, `from` and `as` are names like all others, and what one of them means
depends on the words behind it. In a plain spelling they are what they are meant for: the first word
behind `import` says the kind only if specifiers follow, and no specifier in braces begins with two
names in a row unless the second is `as`. So a plain spelling is read as the import that it spells
(`reads_importDeclaration`).

There is one exception. Without specifiers the word for a kind is itself taken for a name, and a
`from` is missed behind it (`rejects_importDeclaration`).
-/

namespace Reifier.Program

open Token (Word)
open Reifier.Parser (EndsItem Reads Rejects)
open Reifier.TypeExpr (identifier)

variable {rest : List Word}

private theorem reads_name (text : String) :
    Reads identifier [.name text] rest fun id => id.unplaced = ⟨text, .point 0⟩ :=
  @TypeExpr.reads_identifier rest ⟨text, .point 0⟩

private theorem reads_name_bind {α : Type} {text : String} {ws : List Word}
    {f : Identifier → Parser α} {post : α → Prop}
    (hf : ∀ id : Identifier, id.unplaced = ⟨text, .point 0⟩ → Reads (f id) ws rest post) :
    Reads (identifier >>= f) (.name text :: ws) rest post := (reads_name text).bind hf

/-! ### Specifiers -/

/-- A name with a second one behind `as`, or without. -/
private theorem reads_named {imported : String} {bound : Option String}
    (hrest : EndsItem .braceClose rest) :
    Reads (do
        let imported ← identifier
        if ← Parser.eatWord "as" then return ImportSpecifier.named imported (← identifier)
        else return .named imported imported)
      (NamedSpelling.words ⟨.value, imported, bound⟩) rest
      (·.unplaced = NamedSpelling.specifier ⟨.value, imported, bound⟩) := by
  cases bound with
  | none =>
    change Reads _ [.name imported] rest _
    refine reads_name_bind fun id hid => .eatWord_false ?_ (.pure ?_)
    · rintro w hw rfl
      rcases hrest _ hw with hkind | hkind <;> exact Token.Kind.noConfusion hkind
    · rw [ImportSpecifier.unplaced, hid]
      rfl
  | some text =>
    change Reads _ [.name imported, .name "as", .name text] rest _
    refine reads_name_bind fun id hid => .eatWord_true ?_
    refine (reads_name text).bind_pure fun id' hid' => ?_
    rw [ImportSpecifier.unplaced, hid, hid']
    rfl

/-- A plain specifier is read back. The cases are its spellings; in front of the end of an item a
word is no mark. -/
private theorem reads_namedSpecifier {s : NamedSpelling} (h : s.IsPlain)
    (hrest : EndsItem .braceClose rest) :
    Reads namedSpecifier s.words rest (·.unplaced = s.specifier) := by
  obtain ⟨mark, imported, bound⟩ := s
  obtain rfl : mark = .value := h.mark
  refine .test_false (fun c hc => hc.isEmpty_eq) (.test_false (fun c hc => ?_) (reads_named hrest))
  -- The next word is a name only if it is `as`.
  have hnext : c.hasKind 1 .identifier = false ∨ c.isWord 1 "as" = true := by
    rw [hc.hasKind_eq, hc.isWord_eq]
    cases bound with
    | none =>
      refine .inl ?_
      change rest[0]?.any _ = false
      cases rest with
      | nil => rfl
      | cons w rest =>
        rcases hrest w rfl with hkind | hkind <;> exact decide_eq_false (by rw [hkind]; decide)
    | some id => exact .inr rfl
  unfold specifierMarkAhead
  rcases hnext with hkind | has
  · rw [hkind, Bool.and_false, Bool.false_and]
  · rw [has, Bool.not_true, Bool.and_false]

private theorem forall₂_unplaced {named : List NamedSpelling} {all : List ImportSpecifier}
    (h : List.Forall₂ (fun s a => ImportSpecifier.unplaced a = s.specifier) named all) :
    all.map ImportSpecifier.unplaced = named.map NamedSpelling.specifier := by
  induction h with
  | nil => rfl
  | cons hs _ ih => rw [List.map_cons, List.map_cons, hs, ih]

/-- Plain further specifiers are read back, be it a star with a name or names in braces. -/
private theorem reads_furtherSpecifiers {more : FurtherSpelling} (h : more.IsPlain) :
    Reads furtherSpecifiers more.words rest
      (·.map ImportSpecifier.unplaced = more.specifiers) := by
  cases more with
  | star text =>
    refine .eat_true rfl (.expectWord_bind fun _ => (reads_name text).bind_pure fun id hid => ?_)
    rw [List.map_singleton, ImportSpecifier.unplaced, hid]
    rfl
  | braces named comma =>
    obtain ⟨-, rfl, hnamed⟩ := h
    have hitems : Reads (Parser.items .braceClose namedSpecifier)
        (Word.separated .comma (named.map NamedSpelling.words)) ([.sign .braceClose] ++ rest)
        fun all => List.Forall₂ (fun s a => ImportSpecifier.unplaced a = s.specifier) named all := by
      refine .items (by decide) ⟨_, _, rfl, rfl⟩ (fun s hs => ?_) fun s hs behind hbehind =>
        reads_namedSpecifier (hnamed s hs) hbehind
      obtain ⟨mark, imported, bound⟩ := s
      obtain rfl : mark = .value := (hnamed _ hs).mark
      exact ⟨_, _, rfl, Token.Kind.noConfusion⟩
    refine .eat_false ?_ (.eat_true rfl (.bind hitems fun all hall => .expect_bind rfl fun _ => ?_))
    · rintro w ⟨⟩
      exact Token.Kind.noConfusion
    · exact .pure (forall₂_unplaced hall)

/-- Behind a default specifier a comma stands only if there are more. -/
private theorem reads_importSpecifiers {clause : ClauseSpelling} (h : clause.IsPlain) :
    Reads importSpecifiers clause.words (.name "from" :: rest)
      (·.map ImportSpecifier.unplaced = clause.specifiers) := by
  cases clause with
  | default text =>
    refine .nextIs_true rfl (reads_name_bind fun id hid => .eat_false ?_ (.pure ?_))
    · rintro w ⟨⟩
      exact Token.Kind.noConfusion
    · rw [List.map_singleton, ImportSpecifier.unplaced, hid]
      rfl
  | further more =>
    -- A star and a brace are no names, and so there is no default import.
    refine .nextIs_false ?_ (reads_furtherSpecifiers h)
    cases more with
    | star id =>
      rintro w ⟨⟩
      exact Token.Kind.noConfusion
    | braces named comma =>
      rintro w ⟨⟩
      exact Token.Kind.noConfusion
  | both text more =>
    have hmore : more.IsPlain := h
    refine .nextIs_true rfl (reads_name_bind fun id hid => .eat_true rfl ?_)
    refine (reads_furtherSpecifiers hmore).bind_pure fun all hall => ?_
    rw [List.map_cons, hall, ImportSpecifier.unplaced, hid]
    rfl

/-! ### Kinds -/

/-- Whether the words behind the word for a kind are taken for specifiers. -/
def specifiersAhead (ws : List Word) : Bool :=
  let hasKind (k : ℕ) (kind : Token.Kind) : Bool := ws[k]?.any (·.kind = kind)
  let isFrom : Bool := ws[0]?.any fun w => w.kind = .identifier && w.text = "from"
  hasKind 0 .braceOpen || hasKind 0 .star ||
    (hasKind 0 .identifier && !(isFrom && hasKind 1 .string))

private theorem importKindAhead_eq {c : Cursor} {w : Word} {ws : List Word} (h : c.Ahead (w :: ws))
    (kind : String) : importKindAhead kind c = (c.isWord 0 kind && specifiersAhead ws) := by
  simp only [importKindAhead, specifiersAhead, h.hasKind_eq, h.isWord_eq, List.getElem?_cons_succ]

variable {sp : ImportSpelling} {ws : List Word}

/-- Specifiers are taken for specifiers. -/
private theorem specifiersAhead_clauseWords (h : sp.clause ≠ none) (ws : List Word) :
    specifiersAhead (sp.clauseWords ++ ws) = true := by
  obtain ⟨kind, clause, source, semicolon⟩ := sp
  cases clause with
  | none => exact absurd rfl h
  | some clause =>
    cases clause with
    | default id =>
      simp [ImportSpelling.clauseWords, specifiersAhead, ClauseSpelling.words, Word.name]
    | further more =>
      cases more <;> rfl
    | both id more =>
      simp [ImportSpelling.clauseWords, specifiersAhead, ClauseSpelling.words, Word.name, Word.sign]

/-- A specifier is not taken for the word for a kind. -/
private theorem not_importKindAhead {c : Cursor}
    (hc : c.Ahead (sp.clauseWords ++ ⟨.string, sp.source⟩ :: rest)) (kind : String) :
    importKindAhead kind c = false := by
  have hname : ∀ w ∈ (sp.clauseWords ++ ⟨.string, sp.source⟩ :: rest).head?,
      w.kind ≠ .identifier → importKindAhead kind c = false := fun w hw hkind => by
    have hword : c.isWord 0 kind = false := hc.isWord_zero_eq_false fun v hv heq => by
      obtain rfl := Option.some.inj (hw.symm.trans hv)
      exact hkind (congrArg Word.kind heq)
    rw [importKindAhead, hword, Bool.false_and]
  obtain ⟨k, clause, source, semicolon⟩ := sp
  cases clause with
  | none => exact hname _ rfl Token.Kind.noConfusion
  | some clause =>
    cases clause with
    | default id =>
      have hc : c.Ahead (.name id :: .name "from" :: ⟨.string, source⟩ :: rest) := hc
      rw [importKindAhead_eq hc]
      exact Bool.and_false _
    | further more => cases more <;> exact hname _ rfl Token.Kind.noConfusion
    | both id more =>
      have hc : c.Ahead (.name id :: .sign .comma :: (more.words ++ [.name "from"] ++
        ⟨.string, source⟩ :: rest)) := hc
      rw [importKindAhead_eq hc]
      exact Bool.and_false _

/-- The word for a kind is read if there are specifiers behind it. -/
private theorem reads_importKind (h : sp.kind = .value ∨ sp.clause ≠ none) :
    Reads importKind sp.kind.words (sp.clauseWords ++ ⟨.string, sp.source⟩ :: rest)
      (· = sp.kind) := by
  have hahead : ∀ word, sp.clause ≠ none → ∀ c : Cursor,
      c.Ahead (.name word :: (sp.clauseWords ++ ⟨.string, sp.source⟩ :: rest)) →
        importKindAhead word c = true := fun word hclause c hc => by
    rw [importKindAhead_eq hc, specifiersAhead_clauseWords hclause, hc.isWord_zero]
    rfl
  cases hkind : sp.kind with
  | value =>
    exact .test_false (fun c hc => not_importKindAhead hc _)
      (.test_false (fun c hc => not_importKindAhead hc _) (.pure rfl))
  | type =>
    have hclause := h.resolve_left (by rw [hkind]; decide)
    exact .test_true (hahead "type" hclause) (.advance_bind fun _ _ _ => .pure rfl)
  | typeOf =>
    have hclause := h.resolve_left (by rw [hkind]; decide)
    refine .test_false (fun c hc => ?_)
      (.test_true (hahead "typeof" hclause) (.advance_bind fun _ _ _ => .pure rfl))
    rw [importKindAhead_eq hc, hc.isWord_eq]
    rfl

/-! ### Imports -/

/-- A plain clause is read back with the word behind it, or nothing is if there is no clause. -/
private theorem reads_importClause (h : ∀ clause ∈ sp.clause, clause.IsPlain) :
    Reads importClause sp.clauseWords (⟨.string, sp.source⟩ :: rest)
      (·.map ImportSpecifier.unplaced = sp.specifiers) := by
  obtain ⟨kind, clause, source, semicolon⟩ := sp
  cases clause with
  | none => exact .test_true (fun c hc => (hc.hasKind_eq 0 .string).trans rfl) (.pure rfl)
  | some clause =>
    refine .nextIs_false ?_ (.bind (reads_importSpecifiers (h clause rfl)) fun all hall =>
      .expectWord_bind fun _ => .pure hall)
    cases clause with
    | default id =>
      rintro w ⟨⟩
      exact Token.Kind.noConfusion
    | further more =>
      cases more with
      | star id =>
        rintro w ⟨⟩
        exact Token.Kind.noConfusion
      | braces named comma =>
        rintro w ⟨⟩
        exact Token.Kind.noConfusion
    | both id more =>
      rintro w ⟨⟩
      exact Token.Kind.noConfusion

private theorem reads_moduleSource (source : String) :
    Reads moduleSource [⟨.string, source⟩] rest
      (·.unplaced = ⟨Text.unquote source, .point 0⟩) := by
  refine .nextIs_true rfl (.advance_bind fun token _ htext => .pure ?_)
  rw [ModuleSource.unplaced, htext]

/-- **A plain import is read back,** unless it has no clause and is of another kind than values. -/
theorem reads_importDeclaration (h : sp.IsPlain) (hkind : sp.kind = .value ∨ sp.clause ≠ none) :
    Reads importDeclaration sp.words rest (·.SpelledBy sp) := by
  have hsemicolon : (if sp.semicolon then [Word.sign .semicolon] else []) = [.sign .semicolon] :=
    if_pos h.semicolon
  have hread : Reads importKind sp.kind.words
      (sp.clauseWords ++ [⟨.string, sp.source⟩, .sign .semicolon] ++ rest) (· = sp.kind) := by
    rw [List.append_assoc]
    exact reads_importKind hkind
  rw [ImportSpelling.words, hsemicolon]
  refine .advance_bind fun first _ _ => hread.bind fun kind hk => ?_
  refine (reads_importClause h.clause).bind fun specifiers hspecifiers => ?_
  refine (reads_moduleSource sp.source).bind fun source hsource => .eat_true rfl ?_
  refine .look_bind fun span => .pure ?_
  rw [Import.SpelledBy, Import.unplaced, hk, hspecifiers, hsource]
  rfl

/-- Behind a name without specifiers stands no `from`. -/
theorem rejects_importDeclaration (name source : String) (rest : List Word) :
    Rejects importDeclaration [.name "import", .name name] (⟨.string, source⟩ :: rest)
      .expectedToken (some "from") := by
  have hkind : Reads importKind [] (.name name :: ⟨.string, source⟩ :: rest) (· = .value) := by
    have hahead : ∀ (kind : String) (c : Cursor),
        c.Ahead (.name name :: ⟨.string, source⟩ :: rest) → importKindAhead kind c = false := by
      intro kind c hc
      rw [importKindAhead_eq hc]
      exact Bool.and_false _
    exact .test_false (hahead "type") (.test_false (hahead "typeof") (.pure rfl))
  have hspecifiers : Reads importSpecifiers [.name name] (⟨.string, source⟩ :: rest)
      fun _ => True := by
    refine .nextIs_true rfl (reads_name_bind fun id _ => .eat_false ?_ (.pure trivial))
    rintro w ⟨⟩
    exact Token.Kind.noConfusion
  have hclause : Rejects importClause [.name name] (⟨.string, source⟩ :: rest) .expectedToken
      (some "from") := by
    refine .nextIs_false ?_ (.behind hspecifiers fun _ _ => .bind (.expectWord ?_) _)
    · rintro w ⟨⟩
      exact Token.Kind.noConfusion
    · rintro w ⟨⟩ hword
      exact Token.Kind.noConfusion (congrArg Word.kind hword)
  exact .advance_bind fun _ => .behind hkind fun _ _ => .bind hclause _

/-! ### Statements -/

/-- What begins with `import` and goes on with neither a parenthesis nor a point is an import. -/
private theorem ahead_import {c : Cursor} {w : Word} {ws : List Word}
    (hc : c.Ahead (.name "import" :: w :: ws)) (hw : w.kind ≠ .parenOpen ∧ w.kind ≠ .dot) :
    (aliasAhead c || interfaceAhead c) = false ∧ importAhead c = true := by
  have hword : c.isWord 0 "type" = false ∧ c.isWord 0 "interface" = false := by
    rw [hc.isWord_eq, hc.isWord_eq]
    exact ⟨rfl, rfl⟩
  have hkind : c.hasKind 1 .parenOpen = false ∧ c.hasKind 1 .dot = false := by
    rw [hc.hasKind_eq, hc.hasKind_eq]
    exact ⟨decide_eq_false hw.1, decide_eq_false hw.2⟩
  constructor
  · rw [aliasAhead, interfaceAhead, hword.1, hword.2]
    rfl
  · rw [importAhead, hc.isWord_zero, hkind.1, hkind.2]
    rfl

/-- Behind `import` stands a name, a star, a brace or a path. -/
private theorem exists_words (sp : ImportSpelling) : ∃ w ws, sp.words = .name "import" :: w :: ws ∧
    w.kind ≠ .parenOpen ∧ w.kind ≠ .dot := by
  obtain ⟨kind, clause, source, semicolon⟩ := sp
  have hname : Token.Kind.identifier ≠ .parenOpen ∧ Token.Kind.identifier ≠ .dot := by decide
  cases kind with
  | value =>
    cases clause with
    | none => exact ⟨_, _, rfl, Token.Kind.noConfusion, Token.Kind.noConfusion⟩
    | some clause =>
      cases clause with
      | default id => exact ⟨_, _, rfl, hname⟩
      | further more => cases more <;> exact ⟨_, _, rfl, by decide⟩
      | both id more => exact ⟨_, _, rfl, hname⟩
  | type => exact ⟨_, _, rfl, hname⟩
  | typeOf => exact ⟨_, _, rfl, hname⟩

/-- **A plain spelling is read as the import that it spells.** -/
theorem reads_statement_import (type : Parser TypeExpr) (h : sp.IsPlain)
    (hkind : sp.kind = .value ∨ sp.clause ≠ none) :
    Reads (statement type) sp.words rest fun stmt =>
      ∃ decl, stmt = .imports decl ∧ decl.SpelledBy sp := by
  obtain ⟨w, ws, hwords, hw⟩ := exists_words sp
  have hahead : ∀ c : Cursor, c.Ahead (sp.words ++ rest) →
      (aliasAhead c || interfaceAhead c) = false ∧ importAhead c = true := fun c hc => by
    rw [hwords] at hc
    exact ahead_import hc hw
  refine .test_false (fun c hc => (hahead c hc).1) (.test_true (fun c hc => (hahead c hc).2) ?_)
  exact (reads_importDeclaration h hkind).bind_pure fun decl hdecl => ⟨decl, rfl, hdecl⟩

/-- Without specifiers the word for a kind is rejected. -/
private theorem rejects_statement_import (type : Parser TypeExpr) (name source : String)
    (rest : List Word) :
    Rejects (statement type) [.name "import", .name name] (⟨.string, source⟩ :: rest)
      .expectedToken (some "from") := by
  have hahead : ∀ c : Cursor,
      c.Ahead (.name "import" :: .name name :: ⟨.string, source⟩ :: rest) →
        (aliasAhead c || interfaceAhead c) = false ∧ importAhead c = true := fun c hc =>
    ahead_import hc ⟨Token.Kind.noConfusion, Token.Kind.noConfusion⟩
  refine .test_false (fun c hc => (hahead c hc).1) (.test_true (fun c hc => (hahead c hc).2) ?_)
  exact .bind (rejects_importDeclaration name source rest) _

/-! ### Printed imports -/

section Printed

variable {decl : Import}

private theorem clause_plain_eq_none_iff (h : decl.SpelledBy sp) :
    sp.plain.clause = none ↔ decl.specifiers = [] := by
  have hspecifiers : decl.specifiers.map ImportSpecifier.unplaced = sp.specifiers :=
    congrArg Import.specifiers h
  rw [(ImportSpelling.isPlain_plain sp).clause_eq_none_iff, ImportSpelling.specifiers_plain,
    ← hspecifiers, List.map_eq_nil_iff]

/-- An import that is spelled with identifiers is read back from its printed form, if it has
specifiers or says no kind. -/
theorem parse_of_spelledBy (limit : Option ℕ) (h : decl.SpelledBy sp)
    (hnames : ∀ n ∈ sp.names, Name.isIdentifier n = true)
    (hkind : decl.kind = .value ∨ decl.specifiers ≠ []) :
    ∃ reading read, parse limit decl.render = .ok reading ∧
      reading.program.body = [⟨[], .imports read⟩] ∧ read.unplaced = decl.unplaced ∧
      reading.diagnostics = [] := by
  have hclause : sp.plain.kind = .value ∨ sp.plain.clause ≠ none :=
    hkind.imp (congrArg Import.kind h).symm.trans (mt (clause_plain_eq_none_iff h).mp)
  have hwords : sp.plain.words ≠ [] := List.cons_ne_nil _ _
  obtain ⟨reading, hparse, ⟨_, hbody, read, rfl, hread⟩, -, hdiagnostics⟩ :=
    exists_parse_of_reads limit (ImportSpelling.valid_plain hnames) hwords fun type =>
      reads_statement_import type (ImportSpelling.isPlain_plain sp) hclause
  rw [ImportSpelling.write_plain h] at hparse
  exact ⟨reading, read, hparse, hbody, (hread.trans sp.meaning_plain).trans h.symm, hdiagnostics⟩

/-- Without specifiers the word for a kind stands where a name would. -/
private theorem exists_words_of_clause_eq_none (hkind : sp.kind ≠ .value)
    (hclause : sp.clause = none) (hsemicolon : sp.semicolon = true) :
    ∃ name, sp.words = [.name "import", .name name] ++ ([⟨.string, sp.source⟩] ++
      [.sign .semicolon]) := by
  obtain ⟨kind, clause, source, semicolon⟩ := sp
  obtain rfl : clause = none := hclause
  obtain rfl : semicolon = true := hsemicolon
  cases kind with
  | value => exact absurd rfl hkind
  | type => exact ⟨"type", rfl⟩
  | typeOf => exact ⟨"typeof", rfl⟩

/-- Without specifiers an import that says a kind cannot be read back. -/
theorem parse_of_spelledBy_nil (limit : Option ℕ) (h : decl.SpelledBy sp)
    (hnames : ∀ n ∈ sp.names, Name.isIdentifier n = true) (hkind : decl.kind ≠ .value)
    (hspecifiers : decl.specifiers = []) :
    ∃ reading place, parse limit decl.render = .ok reading ∧ reading.program.body = [] ∧
      reading.diagnostics = [⟨.expectedToken, place, some "from"⟩] := by
  have hnone := (clause_plain_eq_none_iff h).mpr hspecifiers
  have hne : sp.plain.kind ≠ .value := fun heq => hkind ((congrArg Import.kind h).trans heq)
  obtain ⟨name, hwords⟩ := exists_words_of_clause_eq_none hne hnone rfl
  have hvalid := ImportSpelling.valid_plain hnames
  rw [hwords] at hvalid
  obtain ⟨reading, place, hparse, hread⟩ := exists_parse_of_rejects limit hvalid
    (List.forall_mem_singleton.mpr Token.Kind.noConfusion) fun type =>
      rejects_statement_import type name sp.plain.source [.sign .semicolon]
  refine ⟨reading, place, ?_, hread⟩
  rwa [← ImportSpelling.write_plain h, hwords]

end Printed

end Reifier.Program
