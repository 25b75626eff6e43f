import Reifier.Proofs.Program.Written
import Reifier.Proofs.TypeExpr.Reading

/-!
# Type aliases read back

A source that declares one name for a spellable type expression is read as just this declaration,
and nothing is reported. The right side is the type expression that was written, so the grammar
knows every form and takes its operators and parentheses for what they stand for.
-/

namespace Reifier.Program

open Token (Word)
open Reifier.Parser (Reads)
open Reifier.TypeExpr (unlimited)

/-! ### The words of a declaration -/

/-- The words of a declaration of an alias. -/
def aliasWords (name : String) (right : TypeExpr) : List Word :=
  ⟨.identifier, "type"⟩ :: ⟨.identifier, name⟩ :: .sign .equals ::
    (right.words ++ [.sign .semicolon])

variable {name : String} {right : TypeExpr}

theorem valid_aliasWords (hname : Name.isIdentifier name = true) (h : ∀ w ∈ right.words, w.Valid) :
    ∀ w ∈ aliasWords name right, w.Valid := by
  refine List.forall_mem_cons.mpr ⟨.name (by decide), List.forall_mem_cons.mpr ⟨.name hname, ?_⟩⟩
  refine List.forall_mem_cons.mpr ⟨.sign (by decide), List.forall_mem_append.mpr ⟨h, ?_⟩⟩
  exact List.forall_mem_singleton.mpr (.sign (by decide))

/-- No form begins with what is put close to an equals sign. -/
private theorem gap_equals {kind : Token.Kind} (h : kind ∈ TypeExpr.openers 0) :
    Token.gap .equals kind = [' '] ∧ Token.gap .parenOpen kind = [] := by
  have hall : ∀ kind ∈ TypeExpr.openers 0,
      Token.gap .equals kind = [' '] ∧ Token.gap .parenOpen kind = [] := by decide
  exact hall kind h

/-- The words of an alias are written with blanks around the equals sign and none before the
semicolon. -/
theorem write_aliasWords {k : ℕ} (h : TypeExpr.Opens k right.words) :
    Token.write (aliasWords name right) = "type " ++ name ++ " = " ++ right.render ++ ";" := by
  obtain ⟨w, ws, hws, hw, -⟩ := h.mono (Nat.zero_le _)
  obtain ⟨hequals, hparen⟩ := gap_equals hw
  have hright : Token.writeAfter (Word.sign .equals).kind right.words =
      ' ' :: right.render.toList := by
    rw [TypeExpr.render, Token.toList_write, hws, Token.writeAfter, Token.writeAfter, hparen]
    exact congrArg (· ++ _) hequals
  have hsemicolon : ∀ kind, Token.tight kind (Word.sign .semicolon).kind = true := by
    intro kind
    cases kind <;> rfl
  have hall : Token.writeAfter .parenOpen (aliasWords name right) =
      "type ".toList ++ (name.toList ++ (" = ".toList ++ (right.render.toList ++ ";".toList))) := by
    rw [aliasWords, Token.writeAfter, Token.writeAfter, Token.writeAfter,
      Token.writeAfter_concat hsemicolon, hright]
    rfl
  refine String.toList_injective ?_
  rw [Token.toList_write, hall]
  simp only [String.toList_append, List.append_assoc]

/-! ### Reading -/

/-- A declaration gives a name to what a type expression says. -/
def Declares (name : String) (right : TypeExpr) (decl : TypeAlias) : Prop :=
  decl.id.name = name ∧ decl.params = none ∧ decl.right.unplaced = right.unplaced ∧
    decl.recursive = false

/-- An alias is read back from its words if its type is legible. -/
private theorem reads_typeAlias (h : TypeExpr.Legible right) :
    Reads (typeAlias unlimited.whole) (aliasWords name right) [] (Declares name right) := by
  have hstop : TypeExpr.Stops 0 [.sign .semicolon] := .cons (by decide) []
  have hparams : Reads (declarationParams unlimited.whole) []
      (.sign .equals :: (right.words ++ [.sign .semicolon]) ++ []) (· = none) := by
    refine .nextIs_false ?_ (.pure rfl)
    rintro w ⟨⟩
    decide
  have hidentifier : ∀ rest, Reads TypeExpr.identifier [⟨.identifier, name⟩] rest fun id =>
      id.name = name := fun rest =>
    .nextIs_true rfl (.advance_bind fun _ _ htext => .pure htext)
  refine .advance_bind fun _ _ _ => (hidentifier _).bind fun id hid => ?_
  refine hparams.bind fun params hnone => ?_
  refine .expect_bind rfl fun _ => .bind (h.whole hstop) fun a ha => .eat_true rfl ?_
  exact .look_bind fun span => .pure ⟨hid, hnone, ha, rfl⟩

/-- The words of an alias are read as a statement that is this alias. -/
private theorem reads_statement (h : TypeExpr.Legible right) :
    Reads (statement unlimited.whole) (aliasWords name right) [] fun stmt =>
      ∃ decl, stmt = .declaration (.typeAlias decl) ∧ Declares name right decl := by
  have hahead : ∀ c : Cursor, c.Ahead (aliasWords name right) → c.isWord 0 "type" = true ∧
      c.hasKind 1 .identifier = true := fun c hc => by
    rw [hc.isWord_eq, hc.hasKind_eq]
    exact ⟨rfl, rfl⟩
  refine .test_true (fun c hc => ?_) ?_
  · obtain ⟨htype, hname⟩ := hahead c (by simpa using hc)
    rw [aliasAhead, htype, hname]
    rfl
  · have hdeclaration : Reads (declaration unlimited.whole) (aliasWords name right) [] fun decl =>
        ∃ decl', decl = .typeAlias decl' ∧ Declares name right decl' := by
      refine .test_true (fun c hc => (hahead c (by simpa using hc)).1) ?_
      exact (reads_typeAlias h).bind_pure fun decl hdecl => ⟨decl, rfl, hdecl⟩
    refine hdeclaration.bind_pure ?_
    rintro _ ⟨decl, rfl, hdecl⟩
    exact ⟨decl, rfl, hdecl⟩

/-- The body of a program holds an alias and nothing else. -/
def IsAlias (name : String) (right : TypeExpr) (body : List (Item Statement)) : Prop :=
  ∃ decl, body = [⟨[], .declaration (.typeAlias decl)⟩] ∧ Declares name right decl

private theorem reads_body (h : TypeExpr.Legible right) :
    Reads (Parser.rounds (bodyLoop unlimited.whole)) (aliasWords name right) []
      (IsAlias name right) := by
  refine (reads_single (reads_statement h) (List.cons_ne_nil _ _)).mono ?_
  rintro _ ⟨_, rfl, decl, rfl, hdecl⟩
  exact ⟨decl, rfl, hdecl⟩

/-! ### Parsing -/

/-- A declaration of a writable type expression is read as it was written. -/
theorem parse_writable (hname : Name.isIdentifier name = true) (h : right.Writable) :
    ∃ reading, parse none ("type " ++ name ++ " = " ++ right.render ++ ";") = .ok reading ∧
      IsAlias name right reading.program.body ∧ reading.program.comments = [] ∧
      reading.diagnostics = [] := by
  have hlegible := TypeExpr.legible_of_writable h
  obtain ⟨start, hahead, hcomments, hdiagnostics, -, hparse⟩ := exists_parse_write none
    (valid_aliasWords hname fun w hw => (TypeExpr.inner_words h w hw).valid)
  have hstart : start.Ahead (aliasWords name right ++ []) := by rwa [List.append_nil]
  obtain ⟨body, next, hrun, hbody, hpass, -⟩ := reads_body hlegible start hstart
  obtain ⟨reading, hread, rfl, hcomments', hdiagnostics'⟩ :=
    hparse body next ((statements_eq_unlimited start).trans hrun)
  rw [write_aliasWords hlegible.opens] at hread
  exact ⟨reading, hread, hbody, hcomments'.trans (hpass.comments.trans hcomments),
    hdiagnostics'.trans (hpass.diagnostics.trans hdiagnostics)⟩

/-- **Every spellable type expression is parsed from its rendering.** A source that declares a name
for it has this declaration for its body and nothing wrong with it, and the right side is the type
expression itself, except for places. A limit on nesting can only stop reading. -/
theorem parse_render (hname : Name.isIdentifier name = true) (h : right.Spellable) :
    ∃ reading, parse none ("type " ++ name ++ " = " ++ right.render ++ ";") = .ok reading ∧
      IsAlias name right reading.program.body ∧ reading.program.comments = [] ∧
      reading.diagnostics = [] ∧
      ∀ limit, parse limit ("type " ++ name ++ " = " ++ right.render ++ ";") = .ok reading ∨
        parse limit ("type " ++ name ++ " = " ++ right.render ++ ";") = .error .tooDeep := by
  obtain ⟨reading, hparse, hbody, hcomments, hdiagnostics⟩ := parse_writable hname h.writable
  refine ⟨reading, hparse, hbody, hcomments, hdiagnostics, fun limit => ?_⟩
  have hle : LimitLe limit none := by cases limit <;> trivial
  obtain ⟨-, hdeep⟩ | ⟨_, hlimit, hnone⟩ := parse_cases hle _
  · exact .inr hdeep
  · rw [hlimit, ← hnone]
    exact .inl hparse

/-- An array whose elements may be missing or of another type, which takes parentheses. -/
def groupedUnion : TypeExpr :=
  let reference : TypeExpr := ⟨.generic ⟨⟨⟨"A", .point 0⟩, []⟩, none⟩, .point 0⟩
  let union : TypeExpr :=
    ⟨.union [⟨.nullable reference, .point 0⟩, ⟨.keyword .string, .point 0⟩], .point 0⟩
  ⟨.array union, .point 0⟩

/-- The union in an array is spellable: it has two members, and their names are no words of the
grammar. -/
private theorem spellable_groupedUnion : groupedUnion.Spellable := by
  refine .mk trivial (List.forall_mem_singleton.mpr (.mk (le_refl 2) ?_))
  refine List.forall_mem_cons.mpr ⟨.mk trivial (List.forall_mem_singleton.mpr ?_), ?_⟩
  · have hname : Name.isIdentifier "A" = true := by decide
    refine .mk ⟨List.forall_mem_singleton.mpr hname, ?_⟩ (List.forall_mem_nil _)
    rintro (hkeyword | hword)
    · exact absurd hkeyword (by decide)
    · exact absurd hword (by decide)
  · exact List.forall_mem_singleton.mpr (.mk trivial (List.forall_mem_nil _))

/-- The parentheses in `(?A | string)[]` are read back as they were meant. -/
theorem parse_render_groupedUnion :
    Name.isIdentifier "T" = true ∧ groupedUnion.Spellable ∧
      groupedUnion.render = "(?A | string)[]" ∧
      ∃ reading, parse none "type T = (?A | string)[];" = .ok reading ∧
        IsAlias "T" groupedUnion reading.program.body := by
  have hname : Name.isIdentifier "T" = true := by decide
  have hrender : groupedUnion.render = "(?A | string)[]" := by rfl
  obtain ⟨reading, hreading, hbody, -⟩ := parse_render hname spellable_groupedUnion
  rw [hrender] at hreading
  exact ⟨hname, spellable_groupedUnion, hrender, reading, hreading, hbody⟩

end Reifier.Program
