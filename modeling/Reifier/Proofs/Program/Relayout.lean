import Reifier.Proofs.Program.Layout
import Reifier.Proofs.Program.Limit
import Reifier.Proofs.Program.Order
import Reifier.Proofs.Program.Unplaced
import Reifier.Proofs.TypeExpr.Relayout

/-!
# Programs in two layouts

Reading asks nothing of trivia but whether it breaks the line. So two sources whose tokens are the
same apart from trivia, with line breaks before the same tokens, are read as the same program, with
the same reports, or both are nested too deeply (`parse_of_sameOutline`). What may differ is where
everything stands, which comments there are, and the trivia inside the text of statements.
-/

namespace Reifier

/-! ### What the productions look at -/

namespace Relayout.Sees

open Reifier.Program

variable {ρ : Relayout}

protected theorem importKindAhead (kind : String) : ρ.Sees (importKindAhead kind) :=
  .and (.isWord 0 kind) (.or (.or (.hasKind 1 .braceOpen) (.hasKind 1 .star))
    (.and (.hasKind 1 .identifier) (.not (.and (.isWord 1 "from") (.hasKind 2 .string)))))

protected theorem specifierMarkAhead : ρ.Sees specifierMarkAhead :=
  .and (.and (.or (.isWord 0 "type") (.isWord 0 "typeof")) (.hasKind 1 .identifier))
    (.not (.isWord 1 "as"))

protected theorem endsAfter (kind : Token.Kind) (depth : ℕ) : ρ.Sees (endsAfter kind depth) := by
  intro c d hcd
  have hwords : ∀ word, d.isWord 0 word = c.isWord 0 word := fun word => Sees.isWord 0 word c d hcd
  have hline : d.lineBreakAhead = c.lineBreakAhead := Sees.lineBreakAhead c d hcd
  unfold endsAfter
  simp only [hline, hwords]

protected theorem aliasAhead : ρ.Sees aliasAhead := .and (.isWord 0 "type") (.hasKind 1 .identifier)

protected theorem interfaceAhead : ρ.Sees interfaceAhead :=
  .and (.isWord 0 "interface") (.hasKind 1 .identifier)

/-- Whether a declaration may begin is seen alike in both layouts. It is a matter of kinds and
words. -/
protected theorem nestedAhead : ρ.Sees nestedAhead := by
  have halias : ρ.Sees fun c => c.hasKind 2 .equals || c.hasKind 2 .less :=
    .or (.hasKind 2 .equals) (.hasKind 2 .less)
  have hinterface : ρ.Sees fun c => interfaceAhead c &&
      (c.hasKind 2 .braceOpen || c.hasKind 2 .braceBarOpen || c.hasKind 2 .less ||
        c.isWord 2 "extends") :=
    .and Sees.interfaceAhead (.or (.or (.or (.hasKind 2 .braceOpen)
      (.hasKind 2 .braceBarOpen)) (.hasKind 2 .less)) (.isWord 2 "extends"))
  intro c d hcd
  have h₁ := Sees.aliasAhead c d hcd
  have h₂ := halias c d hcd
  have h₃ := hinterface c d hcd
  unfold nestedAhead
  dsimp only at h₂ h₃
  rw [h₁, h₂, h₃]

protected theorem importAhead : ρ.Sees importAhead :=
  .and (.isWord 0 "import") (.not (.or (.hasKind 1 .parenOpen) (.hasKind 1 .dot)))

protected theorem exportAhead : ρ.Sees exportAhead :=
  .and (.and (.isWord 0 "export") (.or (.isWord 1 "type") (.isWord 1 "interface")))
    (.hasKind 2 .identifier)

end Relayout.Sees

namespace Program

open Reifier.Parser (Mirrors)
open Reifier.Relayout (Sees)
open Reifier.TypeExpr

variable {ρ : Relayout} {type : Parser TypeExpr}

section

variable (h : Mirrors ρ (EqualUnder TypeExpr.unplaced) type type)
include h

/-! ### Declarations -/

private theorem mirrors_declarationParams :
    Mirrors ρ (EqualUnder (Option.map (List.map TypeParam.unplaced))) (declarationParams type)
      (declarationParams type) :=
  .test (.hasKind 0 .less) ((mirrors_typeParams h).bind fun hall => .done (congrArg some hall))
    (.done rfl)

/-- An alias is the same in both layouts. -/
private theorem mirrors_typeAlias :
    Mirrors ρ (EqualUnder TypeAlias.unplaced) (typeAlias type) (typeAlias type) := by
  refine .bind .advance fun _ => mirrors_identifier.bind fun hid => ?_
  refine (mirrors_declarationParams h).bind fun hparams => .bind (.expect _ _) fun _ => ?_
  refine h.bind fun hright => .bind (.eat _) fun _ => .spanFrom_bind fun _ _ => .done ?_
  simp only [EqualUnder, TypeAlias.unplaced, TypeAlias.mk.injEq] at hid hparams hright ⊢
  exact ⟨hid, hparams, hright, trivial, trivial⟩

private theorem mirrors_interfaceBases :
    Mirrors ρ (EqualUnder (List.map unplacedGeneric)) (interfaceBases type)
      (interfaceBases type) :=
  .eatWord_bind (mirrors_generic h).commaSeparated (.done rfl)

/-- An interface is the same in both layouts. -/
private theorem mirrors_interface :
    Mirrors ρ (EqualUnder Interface.unplaced) (interface type) (interface type) := by
  refine .bind .advance fun _ => mirrors_identifier.bind fun hid => ?_
  refine (mirrors_declarationParams h).bind fun hparams => ?_
  refine (mirrors_interfaceBases h).bind fun hbases => ?_
  refine .test (Sees.or (.hasKind 0 .braceOpen) (.hasKind 0 .braceBarOpen)) ?_ (.reject _ _)
  refine (mirrors_objectType h).bind fun hbody => .bind (.eat _) fun _ => ?_
  refine .spanFrom_bind fun _ _ => .done ?_
  simp only [EqualUnder, Interface.unplaced, Interface.mk.injEq] at hid hparams hbases hbody ⊢
  exact ⟨hid, hparams, hbases, hbody, trivial, trivial, trivial⟩

private theorem mirrors_declaration :
    Mirrors ρ (EqualUnder Declaration.unplaced) (declaration type) (declaration type) := by
  refine .test (.isWord 0 "type") ?_ ?_
  · exact (mirrors_typeAlias h).bind fun hdecl => .done (congrArg Declaration.typeAlias hdecl)
  · exact (mirrors_interface h).bind fun hdecl => .done (congrArg Declaration.interface hdecl)

end

/-! ### Imports -/

private theorem mirrors_importKind : Mirrors ρ (EqualUnder id) importKind importKind := by
  refine .test (.importKindAhead "type") (.bind .advance fun _ => .done rfl) ?_
  exact .test (.importKindAhead "typeof") (.bind .advance fun _ => .done rfl) (.done rfl)

/-- A specifier is the same in both layouts, with a mark or without one. -/
private theorem mirrors_namedSpecifier :
    Mirrors ρ (EqualUnder ImportSpecifier.unplaced) namedSpecifier namedSpecifier := by
  refine .test .atEnd (.reject _ _) ?_
  refine .sometimes .specifierMarkAhead .advance ?_
  refine mirrors_identifier.bind fun himported => .eatWord_bind ?_ ?_
  · exact mirrors_identifier.bind fun hid => .done (congrArg₂ ImportSpecifier.named himported hid)
  · exact .done (congrArg (fun id => ImportSpecifier.named id id) himported)

private theorem mirrors_furtherSpecifiers :
    Mirrors ρ (EqualUnder (List.map ImportSpecifier.unplaced)) furtherSpecifiers
      furtherSpecifiers := by
  refine .eat_bind ?_ (.eat_bind ?_ (.reject _ _))
  · refine .bind (.expectWord _) fun _ => mirrors_identifier.bind fun hid => .done ?_
    exact congrArg (fun id => [ImportSpecifier.star id]) hid
  · exact mirrors_namedSpecifier.items.bind fun hall => .bind (.expect _ _) fun _ => .done hall

private theorem mirrors_importSpecifiers :
    Mirrors ρ (EqualUnder (List.map ImportSpecifier.unplaced)) importSpecifiers
      importSpecifiers := by
  refine .test (.hasKind 0 .identifier) ?_ mirrors_furtherSpecifiers
  refine mirrors_identifier.bind fun hid => .eat_bind ?_ ?_
  · refine mirrors_furtherSpecifiers.bind fun hmore => .done ?_
    exact congrArg₂ (fun id more => ImportSpecifier.default id :: more) hid hmore
  · exact .done (congrArg (fun id => [ImportSpecifier.default id]) hid)

private theorem mirrors_importClause :
    Mirrors ρ (EqualUnder (List.map ImportSpecifier.unplaced)) importClause importClause := by
  refine .test (.hasKind 0 .string) (.done rfl) ?_
  exact mirrors_importSpecifiers.bind fun hall => .bind (.expectWord _) fun _ => .done hall

private theorem mirrors_moduleSource :
    Mirrors ρ (EqualUnder ModuleSource.unplaced) moduleSource moduleSource := by
  refine .test (.hasKind 0 .string) (.bind .advance fun {t t'} ht => .done ?_) (.reject _ _)
  have htext : t'.text = t.text := congrArg Token.Word.text ht
  rw [EqualUnder, ModuleSource.unplaced, ModuleSource.unplaced, htext]

/-- An import is the same in both layouts. -/
private theorem mirrors_importDeclaration :
    Mirrors ρ (EqualUnder Import.unplaced) importDeclaration importDeclaration := by
  refine .bind .advance fun _ => mirrors_importKind.bind fun hkind => ?_
  refine mirrors_importClause.bind fun hall => mirrors_moduleSource.bind fun hsource => ?_
  refine .bind (.eat _) fun _ => .spanFrom_bind fun _ _ => .done ?_
  simp only [EqualUnder, Import.unplaced, Import.mk.injEq] at hkind hall hsource ⊢
  exact ⟨hkind, hall, hsource, trivial⟩

/-! ### The end of a statement -/

/-- What is skipped is the same in both layouts: where it ends depends on brackets and line
breaks. -/
private theorem mirrors_skipStatement : Mirrors ρ (EqualUnder id) skipStatement skipStatement := by
  have hloop : ∀ n depth, Mirrors ρ (EqualUnder id) (skipLoop n depth) (skipLoop n depth) := by
    intro n
    induction n with
    | zero => exact fun _ => .halt _
    | succ n ih =>
      refine fun depth => .test .atEnd (.done rfl) (.bind .advance fun {t t'} ht => ?_)
      have hkind : t'.kind = t.kind := congrArg Token.Word.kind ht
      rw [hkind]
      exact .test (.endsAfter _ _) (.done rfl) (ih _)
  exact .rounds fun n => hloop n 0

/-! ### Statements without a structure -/

section

variable (h : Mirrors ρ (EqualUnder TypeExpr.unplaced) type type)
include h

private theorem mirrors_nestedDeclaration (depth : ℕ) (previous : Option Token.Kind)
    (lineStart : Bool) : Mirrors ρ (Option.Rel (EqualUnder Declaration.unplaced))
      (nestedDeclaration type depth previous lineStart)
      (nestedDeclaration type depth previous lineStart) := by
  have hview : ρ.Sees fun c => 0 < depth && (lineStart || beginsAfter previous) && nestedAhead c :=
    .and (.const _) .nestedAhead
  exact .test hview (mirrors_declaration h).attempt (.done .none)

/-- The declarations inside a statement are the same in both layouts. The induction is on the rounds
of the loop. -/
private theorem mirrors_verbatimLoop (n depth : ℕ) (previous : Option Token.Kind) :
    Mirrors ρ (EqualUnder (List.map fun item => item.node.unplaced))
      (verbatimLoop type n depth previous) (verbatimLoop type n depth previous) := by
  induction n generalizing depth previous with
  | zero => exact .halt _
  | succ n ih =>
    refine .test .atEnd (.done rfl) (.look_bind .lineBreakAhead fun lineStart => ?_)
    refine .settle_bind fun _ _ => (mirrors_nestedDeclaration h depth previous lineStart).bind ?_
    rintro _ _ (hdecl | _)
    · exact (ih _ _).bind fun hmore => .done (congrArg₂ List.cons hdecl hmore)
    · refine .bind .advance fun {t t'} ht => ?_
      have hkind : t'.kind = t.kind := congrArg Token.Word.kind ht
      rw [hkind]
      exact .test (.endsAfter _ _) (.done rfl) (ih _ _)

omit h in
/-- The lexemes ahead are found again in what is cut out of them. -/
private theorem mirrors_rest_bind {α β : Type} {V : α → β → Prop} {f : List Lexeme → Parser α}
    {g : List Lexeme → Parser β}
    (hf : ∀ {ls ms : List Lexeme}, (∀ n, Token.wordsOf (Lexeme.textOf (ms.take n)).toList =
      Token.wordsOf (Lexeme.textOf (ls.take n)).toList) → ms.length = ls.length →
        Mirrors ρ V (f ls) (g ms)) :
    Mirrors ρ V (Parser.look (·.rest) >>= f) (Parser.look (·.rest) >>= g) := by
  intro c d hcd
  refine hf (fun n => ?_) hcd.length_eq c d hcd
  rw [hcd.rereads.1 _ (List.take_prefix n c.rest).isInfix,
    hcd.rereads.2 _ (List.take_prefix n d.rest).isInfix]
  have hwords := hcd.rest
  generalize c.rest = ls at hwords
  generalize d.rest = ms at hwords
  induction hwords generalizing n with
  | nil => rfl
  | cons hlm _ ih =>
    cases n with
    | zero => rfl
    | succ n => exact congrArg₂ List.cons hlm.word (ih n)

private theorem mirrors_verbatim :
    Mirrors ρ (EqualUnder Verbatim.bare) (verbatim type) (verbatim type) := by
  refine .nextStart_bind fun _ _ => mirrors_rest_bind fun htext hlength => ?_
  refine .bind (.rounds fun n => mirrors_verbatimLoop h n 0 none) fun hnested => ?_
  refine .look_bind .length fun left => .spanFrom_bind fun _ _ => .done ?_
  rw [hlength]
  exact congrArg₂ Prod.mk (htext _) hnested

/-! ### Statements -/

/-- A statement is the same in both layouts. The tests that choose its kind are seen alike. -/
private theorem mirrors_statement :
    Mirrors ρ Statement.Same (statement type) (statement type) := by
  refine .test (.or .aliasAhead .interfaceAhead) ?_ ?_
  · exact (mirrors_declaration h).bind fun hdecl => .done (.declaration hdecl)
  refine .test .importAhead ?_ ?_
  · exact mirrors_importDeclaration.bind fun hdecl => .done (.imports hdecl)
  refine .test .exportAhead ?_ ?_
  · refine .bind .advance fun _ => (mirrors_declaration h).bind fun hdecl => ?_
    exact .spanFrom_bind fun _ _ => .done (.exports rfl hdecl)
  · exact (mirrors_verbatim h).bind fun htext => .done (.verbatim htext)

/-- The statements of a body are the same in both layouts, one by one; where one fails, so does the
other. -/
private theorem mirrors_bodyLoop (n : ℕ) :
    Mirrors ρ (List.Forall₂ fun item item' : Item Statement => item.node.Same item'.node)
      (bodyLoop type n) (bodyLoop type n) := by
  induction n with
  | zero => exact .halt _
  | succ n ih =>
    refine .test .atEnd (.done .nil) (.settle_bind fun _ _ => ?_)
    refine (mirrors_statement h).recover.bind ?_
    rintro _ _ (hstmt | _)
    · exact ih.bind fun hmore => .done (.cons hstmt hmore)
    · exact mirrors_skipStatement.bind fun _ => ih

end

/-- As many lexemes need as many knots. -/
private theorem mirrors_statements (limit : Option ℕ) {lexemes lexemes' : List Lexeme}
    (h : lexemes'.length = lexemes.length) :
    Mirrors ρ (List.Forall₂ fun item item' : Item Statement => item.node.Same item'.node)
      (statements limit lexemes) (statements limit lexemes') := by
  unfold statements
  rw [h]
  exact .rounds (mirrors_bodyLoop (mirrors_nested limit _).1)

/-! ### Sources -/

/-- What reading asks of a source: its tokens apart from trivia, without their places, each with
whether the trivia before it breaks the line. -/
def outline (source : String) : List (Token.Word × Bool) :=
  (Lexeme.ofTokens (Token.scan source)).1.map fun l => (l.token.word, l.before.lineBreak)

/-- Two readings of which all is the same but places, comments, and the trivia inside text. -/
structure Reading.Same (reading reading' : Reading) : Prop where
  body : List.Forall₂ (fun item item' : Item Statement => item.node.Same item'.node)
    reading.program.body reading'.program.body
  names : reading'.program.names = reading.program.names
  diagnostics : reading'.diagnostics.map (fun d => (d.kind, d.message)) =
    reading.diagnostics.map fun d => (d.kind, d.message)

/-- The offsets at which the lexemes of a source begin, and the one at which it ends. -/
def starts (source : String) : List ℕ :=
  (Lexeme.ofTokens (Token.scan source)).1.map (·.token.span.start) ++
    [Text.byteLength source.toList]

/-- No two of them are the same, since no token is empty. -/
private theorem nodup_starts (source : String) : (starts source).Nodup := by
  have hmem : ∀ l ∈ (Lexeme.ofTokens (Token.scan source)).1, l.token ∈ Token.scan source :=
    fun l hl => (Lexeme.sublist_of_ofTokensAfter Trivia.none _).subset (List.mem_map_of_mem hl)
  have hpairwise : (starts source).Pairwise (· < ·) := by
    rw [starts, List.pairwise_append]
    refine ⟨?_, List.pairwise_singleton _ _, ?_⟩
    · have htokens := (Token.pairwise_place 0 _).sublist
        (Lexeme.sublist_of_ofTokensAfter Trivia.none (Token.scan source))
      rw [List.pairwise_map] at htokens ⊢
      exact htokens
    · intro start hstart stop hstop
      obtain ⟨l, hl, rfl⟩ := List.mem_map.mp hstart
      rw [List.mem_singleton.mp hstop]
      exact (Token.start_lt_stop_of_mem_scan (hmem l hl)).trans_le
        (Token.lies_of_mem_scan (hmem l hl)).stop_le
  exact hpairwise.imp fun hlt => hlt.ne

/-- The names of a source are those of its lexemes. -/
private theorem names_eq (source : String) :
    ((Token.scan source).filter (·.kind = .identifier)).map Token.text =
      (((outline source).map Prod.fst).filter (·.kind = .identifier)).map Token.Word.text := by
  have hwords : (outline source).map Prod.fst =
      ((Token.scan source).filter fun t => !t.kind.isTrivia).map Token.word := by
    rw [← Lexeme.tokens_ofTokensAfter Trivia.none, outline, List.map_map, List.map_map]
    rfl
  have hkind : ∀ t : Token, (decide (t.kind = .identifier) && !t.kind.isTrivia) =
      decide (t.kind = .identifier) := by
    intro t
    cases t.kind <;> rfl
  have hfilter : ((fun w : Token.Word => decide (w.kind = .identifier)) ∘ Token.word) =
      fun t : Token => decide (t.kind = .identifier) := rfl
  rw [hwords, List.filter_map, List.map_map, hfilter, List.filter_filter]
  simp only [hkind]
  rfl

section

variable {source source' : String}

/-- The lexemes of both sources are the same, one by one. -/
private theorem forall₂_matchesLexeme (h : outline source' = outline source) :
    List.Forall₂ (Relayout.ofStarts (nodup_starts source) (nodup_starts source')).MatchesLexeme
      (Lexeme.ofTokens (Token.scan source)).1 (Lexeme.ofTokens (Token.scan source')).1 := by
  unfold outline at h
  have hlength := congrArg List.length h
  rw [List.length_map, List.length_map] at hlength
  refine List.forall₂_iff_get.mpr ⟨hlength.symm, fun i hi hi' => ?_⟩
  have hsigns := congrArg (·[i]?) h
  simp only [List.getElem?_map, List.getElem?_eq_getElem hi, List.getElem?_eq_getElem hi',
    Option.map_some, Option.some_inj, Prod.mk.injEq] at hsigns
  refine ⟨hsigns.1, hsigns.2, i, ?_, ?_⟩
  · rw [starts, List.getElem?_append_left (by rwa [List.length_map]), List.getElem?_map,
      List.getElem?_eq_getElem hi]
    rfl
  · rw [starts, List.getElem?_append_left (by rwa [List.length_map]), List.getElem?_map,
      List.getElem?_eq_getElem hi']
    rfl

/-- Reading begins equally far from the end of both sources. -/
private theorem matches_startCursor (h : outline source' = outline source) :
    (Relayout.ofStarts (nodup_starts source) (nodup_starts source')).Matches
      (startCursor (Text.byteLength source.toList) (Lexeme.ofTokens (Token.scan source)).1)
      (startCursor (Text.byteLength source'.toList) (Lexeme.ofTokens (Token.scan source')).1) where
  rest := forall₂_matchesLexeme h
  rereads := ⟨Lexeme.rereads_of_ofTokens rfl, Lexeme.rereads_of_ofTokens rfl⟩
  endOffset := by
    refine ⟨(Lexeme.ofTokens (Token.scan source)).1.length, ?_, ?_⟩
    · rw [starts, List.getElem?_append_right (by rw [List.length_map]), List.length_map,
        Nat.sub_self]
      rfl
    · rw [(forall₂_matchesLexeme h).length_eq, starts,
        List.getElem?_append_right (by rw [List.length_map]), List.length_map, Nat.sub_self]
      rfl
  diagnostics := rfl
  lastReport := .none
  depth := rfl

/-- **Trivia influences reading only through line breaks.** Two sources with the same tokens apart
from trivia, and with line breaks before the same tokens, are both nested too deeply for a limit, or
both are read under it, as the same program with the same reports. -/
theorem parse_of_sameOutline (limit : Option ℕ) (h : outline source' = outline source) :
    (parse limit source = .error .tooDeep ∧ parse limit source' = .error .tooDeep) ∨
      ∃ reading reading', parse limit source = .ok reading ∧ parse limit source' = .ok reading' ∧
        reading.Same reading' := by
  have hcursors := matches_startCursor h
  obtain ⟨⟨lexemes, after⟩, hlexemes⟩ : ∃ all, Lexeme.ofTokens (Token.scan source) = all := ⟨_, rfl⟩
  obtain ⟨⟨lexemes', after'⟩, hlexemes'⟩ :
      ∃ all, Lexeme.ofTokens (Token.scan source') = all := ⟨_, rfl⟩
  rw [hlexemes, hlexemes'] at hcursors
  dsimp only at hcursors
  have hlength : lexemes'.length = lexemes.length := hcursors.length_eq
  have hrun := mirrors_statements limit hlength _ _ hcursors
  cases hread : statements limit lexemes
      (startCursor (Text.byteLength source.toList) lexemes) with
  | done body next =>
    rw [hread] at hrun
    obtain ⟨body', next', hread', hbody, hnext⟩ := hrun
    refine .inr ⟨_, _, parse_of_done hlexemes hread, parse_of_done hlexemes' hread', hbody, ?_, ?_⟩
    · dsimp only
      rw [names_eq, names_eq, h]
    · have hmessages := congrArg (List.map fun w => (w.1, w.1.message w.2)) hnext.diagnostics
      rwa [List.map_map, List.map_map] at hmessages
  | failed next => exact absurd hread (neverFails_bodyLoop _ _ _ next)
  | halted cause next =>
    rw [hread] at hrun
    obtain ⟨next', hread'⟩ := hrun
    have herror := parse_of_halted hlexemes hread
    rcases parse_cases (LimitLe.refl limit) source with ⟨-, hdeep⟩ | ⟨reading, hreading, -⟩
    · rw [herror] at hdeep
      cases hdeep
      exact .inl ⟨herror, parse_of_halted hlexemes' hread'⟩
    · rw [herror] at hreading
      cases hreading

end

/-- Comments and blanks put between tokens, with no line break. -/
theorem parse_of_sameOutline_spaced :
    outline "type A =/* b */B []; f( x)" = outline "type A = B[]; f(x)" ∧
      ∃ reading reading', parse none "type A = B[]; f(x)" = .ok reading ∧
        parse none "type A =/* b */B []; f( x)" = .ok reading' ∧ reading.Same reading' := by
  have houtline : outline "type A =/* b */B []; f( x)" = outline "type A = B[]; f(x)" := by
    decide +kernel
  refine ⟨houtline, (parse_of_sameOutline none houtline).resolve_left fun hdeep => ?_⟩
  obtain ⟨reading, hreading⟩ := exists_parse_none "type A = B[]; f(x)"
  rw [hreading] at hdeep
  cases hdeep.1

end Program

end Reifier
