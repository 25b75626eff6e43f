import Reifier.Proofs.Parser.Keeps
import Reifier.Proofs.Program.Order
import Reifier.Proofs.Token.Kinds

/-!
# The names that statements bind

A program that has been read declares nothing but types, and each name that its statements bind, be
it declared or imported, is one that its source spells (`spelledIn_of_parse`). So names that are
generated apart from those of the source are bound by none of its statements.
-/

namespace Reifier

/-- The names that a statement binds: what it declares, also inside its brackets, and what it
imports. -/
def Statement.bound : Statement → List String
  | declaration decl => [decl.id.name]
  | imports decl => decl.specifiers.map fun specifier => specifier.id.name
  | exports decl => [decl.declaration.id.name]
  | verbatim text => text.nested.map fun item => item.node.id.name

/-- A declaration of a type under one of some names. -/
structure Declaration.SpelledIn (names : List String) (decl : Declaration) : Prop where
  isType : decl.isType = true
  mem : decl.id.name ∈ names

/-- A statement that declares and exports nothing but types and binds nothing but some names. -/
structure Statement.SpelledIn (names : List String) (s : Statement) : Prop where
  isType : ∀ decl ∈ s.declarations, decl.isType = true
  exportsType : s.ExportsType
  mem : ∀ name ∈ s.bound, name ∈ names

/-- A cursor with some of the tokens `ts` ahead. -/
def Cursor.Among (ts : List Token) (c : Cursor) : Prop := c.tokens.Sublist ts

private theorem Cursor.Among.length_le {ts : List Token} {c : Cursor} (h : c.Among ts) :
    c.rest.length ≤ ts.length := by
  have hlength := List.Sublist.length_le h
  rwa [tokens, List.length_map] at hlength

instance lasting_among (ts : List Token) : Cursor.Lasting (Cursor.Among ts) where
  reaches hc h := h.tokens_sublist.trans hc
  back hc _ := hc

namespace Program

open Reifier.TypeExpr
open Reifier.Parser (Agrees Keeps Triple le_length_of_or lt_length_of_hasKind)
open Cursor (Among)

variable {α : Type} {ts : List Token} {type : Parser TypeExpr}

/-- A parser whose value does not matter. -/
private theorem keeps_of_agrees {p : Parser α} (h : Agrees True 0 ts.length p p) :
    Keeps (Among ts) (fun _ => True) p :=
  .of_agrees fun _ hc => h.anti le_rfl hc.length_le

/-- An identifier is one of those among the tokens. -/
private theorem keeps_identifier :
    Keeps (Among ts) (fun id => id.name ∈ Token.names ts) identifier := by
  have htake : Triple (fun c => Among ts c ∧ c.hasKind 0 .identifier = true)
      (do
        let token ← Parser.advance
        return (⟨token.text, token.span⟩ : Identifier))
      (fun id c => id.name ∈ Token.names ts ∧ Among ts c) (Among ts) := by
    have htoken : ∀ c l ls, Among ts c ∧ c.hasKind 0 .identifier = true → c.rest = l :: ls →
        l.token.text ∈ Token.names ts ∧ Among ts (c.took l ls) := by
      rintro c l ls ⟨hc, hkind⟩ hrest
      refine ⟨Token.mem_names (List.Sublist.subset hc ?_) ?_, Cursor.Lasting.reaches hc (.take hrest)⟩
      · rw [Cursor.tokens, hrest]
        exact List.mem_cons_self
      · obtain ⟨l', ls', hrest', hl⟩ := Cursor.hasKind_zero_iff.mp hkind
        rw [hrest] at hrest'
        cases hrest'
        exact of_decide_eq_true hl
    exact .advance_bind htoken fun t => .pure fun c hc => hc
  exact Triple.test htake (Keeps.reject _ _)

/-! ### Declarations -/

section Declarations

variable (htype : ∀ m ≤ ts.length, Agrees True 0 m type type)

include htype

private theorem keeps_typeAlias :
    Keeps (Among ts) (fun decl => decl.id.name ∈ Token.names ts) (typeAlias type) := by
  have hinside : ∀ m < ts.length, Agrees True 0 m type type := fun m hm => htype m hm.le
  refine .advance_bind fun first => .bind keeps_identifier fun id hid => ?_
  refine .bind (keeps_of_agrees (agrees_declarationParams hinside)) fun params _ => ?_
  refine .expect_bind fun _ => .bind (keeps_of_agrees (htype _ le_rfl)) fun right _ => ?_
  exact .bind (keeps_of_agrees (.eat _)) fun _ _ => .look_bind fun span => .pure hid

/-- The name of an interface is among those of the tokens. -/
private theorem keeps_interface :
    Keeps (Among ts) (fun decl => decl.id.name ∈ Token.names ts) (interface type) := by
  have hinside : ∀ m < ts.length, Agrees True 0 m type type := fun m hm => htype m hm.le
  refine .advance_bind fun first => .bind keeps_identifier fun id hid => ?_
  refine .bind (keeps_of_agrees (agrees_declarationParams hinside)) fun params _ => ?_
  refine .bind (keeps_of_agrees (agrees_interfaceBases hinside)) fun bases _ => ?_
  -- An object type is only read where a brace opens.
  have hbody : Triple
      (fun c => Among ts c ∧ (c.hasKind 0 .braceOpen || c.hasKind 0 .braceBarOpen) = true)
      (objectType type) (fun _ => Among ts) (Among ts) :=
    .of_agrees (fun _ _ => Cursor.Lasting.reaches) (fun c hc =>
      ⟨hc.1, le_length_of_or lt_length_of_hasKind lt_length_of_hasKind c hc.2,
        (agrees_objectType hinside).anti le_rfl hc.1.length_le⟩) fun _ hc => hc
  refine Triple.test (.bind hbody fun body => ?_) (Keeps.reject _ _)
  exact Keeps.bind (keeps_of_agrees (.eat _)) fun _ _ => .look_bind fun span => .pure hid

private theorem keeps_declaration :
    Keeps (Among ts) (Declaration.SpelledIn (Token.names ts)) (declaration type) := by
  refine .test (.bind (keeps_typeAlias htype) fun decl hdecl => .pure ⟨rfl, hdecl⟩) ?_
  exact .bind (keeps_interface htype) fun decl hdecl => .pure ⟨rfl, hdecl⟩

/-- The declarations inside a statement are types under names of the tokens. The induction is on the
rounds of the loop. -/
private theorem keeps_verbatimLoop (rounds depth : ℕ) (previous : Option Token.Kind) :
    Keeps (Among ts) (fun items => ∀ item ∈ items, item.node.SpelledIn (Token.names ts))
      (verbatimLoop type rounds depth previous) := by
  induction rounds generalizing depth previous with
  | zero => exact .halt _
  | succ rounds ih =>
    refine .test (.pure (List.forall_mem_nil _)) (.look_bind fun lineStart => ?_)
    refine .settle_bind fun comments => ?_
    have htext : Keeps (Among ts)
        (fun items => ∀ item ∈ items, item.node.SpelledIn (Token.names ts))
        (textRound type rounds depth) :=
      .advance_bind fun token => .test (.pure (List.forall_mem_nil _)) (ih _ _)
    rw [nestedDeclaration_bind]
    refine .test (.attempt_bind (keeps_declaration htype) (fun decl hdecl => ?_) htext) htext
    exact .bind (ih depth _) fun more hmore => .pure (List.forall_mem_cons.mpr ⟨hdecl, hmore⟩)

/-- A statement without a structure binds only names of the tokens. -/
private theorem keeps_verbatim :
    Keeps (Among ts) (fun text => (Statement.verbatim text).SpelledIn (Token.names ts))
      (verbatim type) := by
  have hloop : Keeps (Among ts)
      (fun items => ∀ item ∈ items, item.node.SpelledIn (Token.names ts))
      (Parser.rounds (verbatimLoop type · 0 none)) :=
    .rounds fun rounds => keeps_verbatimLoop htype rounds 0 none
  refine .look_bind fun start => .look_bind fun ahead => .bind hloop fun nested hnested => ?_
  refine .look_bind fun left => .look_bind fun span => .pure ⟨?_, trivial, ?_⟩
  · exact List.forall_mem_map.mpr fun item hitem => (hnested item hitem).isType
  · exact List.forall_mem_map.mpr fun item hitem => (hnested item hitem).mem

end Declarations

/-! ### Imports -/

/-- A specifier binds a name of the tokens, the second one if it has two. -/
private theorem keeps_namedSpecifier :
    Keeps (Among ts) (fun specifier => specifier.id.name ∈ Token.names ts) namedSpecifier := by
  have hname : Keeps (Among ts) (fun specifier : ImportSpecifier => specifier.id.name ∈ Token.names ts)
      (do
        let imported ← identifier
        if ← Parser.eatWord "as" then return .named imported (← identifier)
        else return .named imported imported) := by
    refine .bind keeps_identifier fun imported himported => .eatWord_bind ?_ (.pure himported)
    exact .bind keeps_identifier fun id hid => .pure hid
  exact .test (.reject _ _) (.test (.advance_bind fun _ => hname) hname)

private theorem keeps_furtherSpecifiers :
    Keeps (Among ts) (fun all => ∀ specifier ∈ all, specifier.id.name ∈ Token.names ts)
      furtherSpecifiers := by
  refine .eat_bind (.bind (keeps_of_agrees (.expectWord _)) fun _ _ => ?_) ?_
  · refine .bind keeps_identifier fun id hid => .pure ?_
    exact List.forall_mem_singleton.mpr hid
  · refine .eat_bind (.bind (.items keeps_namedSpecifier) fun all hall => ?_) (.reject _ _)
    exact .expect_bind fun _ => .pure hall

private theorem keeps_importSpecifiers :
    Keeps (Among ts) (fun all => ∀ specifier ∈ all, specifier.id.name ∈ Token.names ts)
      importSpecifiers := by
  refine .test (.bind keeps_identifier fun id hid => .eat_bind ?_ (.pure ?_))
    keeps_furtherSpecifiers
  · exact .bind keeps_furtherSpecifiers fun more hmore =>
      .pure (List.forall_mem_cons.mpr ⟨hid, hmore⟩)
  · exact List.forall_mem_singleton.mpr hid

private theorem keeps_importClause :
    Keeps (Among ts) (fun all => ∀ specifier ∈ all, specifier.id.name ∈ Token.names ts)
      importClause := by
  refine .test (.pure (List.forall_mem_nil _)) (.bind keeps_importSpecifiers fun all hall => ?_)
  exact .bind (keeps_of_agrees (.expectWord _)) fun _ _ => .pure hall

private theorem keeps_importDeclaration :
    Keeps (Among ts) (fun decl => (Statement.imports decl).SpelledIn (Token.names ts))
      importDeclaration := by
  refine .advance_bind fun first => .bind (keeps_of_agrees agrees_importKind) fun kind _ => ?_
  refine .bind keeps_importClause fun specifiers hspecifiers => ?_
  refine .bind (keeps_of_agrees agrees_moduleSource) fun source _ => ?_
  refine .bind (keeps_of_agrees (.eat _)) fun _ _ => .look_bind fun span => .pure ?_
  exact ⟨List.forall_mem_nil _, trivial, List.forall_mem_map.mpr hspecifiers⟩

/-! ### Statements -/

section Statements

variable (htype : ∀ m ≤ ts.length, Agrees True 0 m type type)

include htype

/-- A statement binds only names of the tokens. The cases are the kinds of statements. -/
private theorem keeps_statement :
    Keeps (Among ts) (Statement.SpelledIn (Token.names ts)) (statement type) := by
  refine .test (.bind (keeps_declaration htype) fun decl hdecl => .pure ?_) (.test ?_ (.test ?_ ?_))
  · exact ⟨List.forall_mem_singleton.mpr hdecl.isType, trivial,
      List.forall_mem_singleton.mpr hdecl.mem⟩
  · exact .bind keeps_importDeclaration fun decl hdecl => .pure hdecl
  · refine .advance_bind fun first => .bind (keeps_declaration htype) fun decl hdecl => ?_
    refine .look_bind fun span => .pure ⟨?_, rfl, ?_⟩
    · exact List.forall_mem_singleton.mpr hdecl.isType
    · exact List.forall_mem_singleton.mpr hdecl.mem
  · exact .bind (keeps_verbatim htype) fun text htext => .pure htext

/-- The statements of a body bind only names of the tokens. One that failed binds nothing. -/
private theorem keeps_bodyLoop (rounds : ℕ) :
    Keeps (Among ts) (fun items => ∀ item ∈ items, item.node.SpelledIn (Token.names ts))
      (bodyLoop type rounds) := by
  induction rounds with
  | zero => exact .halt _
  | succ rounds ih =>
    refine .test (.pure (List.forall_mem_nil _)) (.settle_bind fun comments => ?_)
    refine .recover_bind (keeps_statement htype) (fun stmt hstmt => ?_) ?_
    · exact .bind ih fun more hmore => .pure (List.forall_mem_cons.mpr ⟨hstmt, hmore⟩)
    · exact .bind (keeps_of_agrees agrees_skipStatement) fun _ _ => ih

end Statements

/-! ### Programs -/

/-- **Statements declare types, under names that the source spells.** What they import is bound
under such names too. -/
theorem spelledIn_of_parse {limit : Option ℕ} {source : String} {reading : Reading}
    (h : parse limit source = .ok reading) :
    ∀ item ∈ reading.program.body,
      item.node.SpelledIn reading.program.names.toList := by
  obtain ⟨lexemes, after, body, next, hlexemes, hread, hprogram⟩ := exists_program_of_parse h
  let ts := lexemes.map Lexeme.token
  have hspelled : ∀ name ∈ Token.names ts, name ∈ reading.program.names.toList := by
    have htaken := Lexeme.sublist_of_ofTokensAfter Trivia.none (Token.scan source)
    rw [← Lexeme.ofTokens, hlexemes] at htaken
    intro name hname
    rw [hprogram]
    exact NameSet.mem_ofList.mpr (((htaken.filter _).map _).subset hname)
  -- What a parser takes is known from its agreement with itself.
  have htype : ∀ m ≤ ts.length,
      Agrees True 0 m (nested limit (lexemes.length + 1)).whole
        (nested limit (lexemes.length + 1)).whole := fun m hm => by
    rw [List.length_map] at hm
    have hknots := Nat.lt_succ_of_le hm
    exact (agrees_nested (fun _ => trivial) (fun _ => id) hknots hknots).1
  have hloop : Keeps (Among ts)
      (fun items => ∀ item ∈ items, item.node.SpelledIn (Token.names ts))
      (statements limit lexemes) :=
    .rounds fun rounds => keeps_bodyLoop htype rounds
  have hfound := hloop (startCursor (Text.byteLength source.toList) lexemes) (.refl _)
  rw [hread] at hfound
  rw [hprogram]
  intro item hitem
  obtain ⟨htypes, hexports, hbound⟩ := hfound.1 item hitem
  refine ⟨htypes, hexports, fun name hname => ?_⟩
  have hname := hspelled name (hbound name hname)
  rwa [hprogram] at hname

end Program

end Reifier
