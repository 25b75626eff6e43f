import Reifier.Proofs.Program.Alias

/-!
# Lists of parameters

A function type is told from a type expression in parentheses by the words right behind the opening
parenthesis. A list of parameters is read if these announce it: if there are no parameters before
the rest parameter, or the first has a name, or if a single one is all that there is. Any other list
begins with a parameter that has no name and goes on behind it. There the parenthesis is taken for
one that groups, so the comma is reported where it should close, and the declaration is left out of
the program (`parse_function`).
-/

namespace Reifier

open Token (Word)
open Reifier.Parser (Reads Rejects)
open Reifier.TypeExpr (Legible Opens unlimited)

/-! ### Unannounced lists -/

namespace TypeExpr

variable {params : List (Param TypeExpr)} {last : Option (Param TypeExpr)} {result : TypeExpr}

/-- A list that is not announced begins with a parameter that has no name, and goes on. -/
private theorem exists_of_not_announced (h : ¬ Announced params last) :
    ∃ type optional more, params = ⟨none, type, optional⟩ :: more ∧
      paramsWords more ++ restWords last ≠ [] := by
  obtain ⟨hname, hsingle⟩ := not_or.mp h
  match params with
  | [] => exact absurd nofun hname
  | ⟨some id, type, optional⟩ :: more =>
    refine absurd ?_ hname
    rintro p ⟨⟩
    rfl
  | ⟨none, type, optional⟩ :: more =>
    refine ⟨type, optional, more, rfl, fun hnil => hsingle ?_⟩
    rw [paramsWords_eq_map, restWords_eq_map, List.append_eq_nil_iff, List.map_eq_nil_iff,
      List.map_eq_nil_iff, Option.toList_eq_nil_iff] at hnil
    obtain ⟨rfl, rfl⟩ := hnil
    exact ⟨rfl, rfl⟩

/-- Behind a first parameter without a name stands a comma. -/
private theorem exists_shapeWords_of_not_announced (h : ¬ Announced params last)
    (result : TypeExpr) :
    ∃ p ∈ params, p.name = none ∧ ∃ tail, shapeWords (.function params last result) =
      .sign .parenOpen :: (p.type.words ++ .sign .comma :: tail) := by
  obtain ⟨type, optional, more, rfl, hmore⟩ := exists_of_not_announced h
  refine ⟨_, List.mem_cons_self, rfl, ?_⟩
  obtain ⟨part, parts, hparts⟩ := List.exists_cons_of_ne_nil hmore
  refine ⟨Word.separated .comma (part :: parts) ++
    .sign .parenClose :: .sign .arrow :: result.words, ?_⟩
  have hlist : Word.separated .comma
      (paramsWords (⟨none, type, optional⟩ :: more) ++ restWords last) =
        type.words ++ .sign .comma :: Word.separated .comma (part :: parts) := by
    rw [paramsWords, List.cons_append, hparts, Word.separated_cons_cons]
    rfl
  rw [shapeWords, hlist, between]
  simp only [List.cons_append, List.append_assoc, List.nil_append]

/-! ### Rejection -/

variable {type : TypeExpr} {rest : List Word}

/-- A comma is not what closes a parenthesis that groups. -/
private theorem rejects_whole (h : Legible type) (rest : List Word) :
    Rejects unlimited.whole (.sign .parenOpen :: type.words) (.sign .comma :: rest) .expectedToken
      (some ")") := by
  have hcomma : Stops 0 (.sign .comma :: rest) := .cons (by decide) rest
  have hopening : ∀ {kind : Token.Kind}, kind ≠ .parenOpen → ∀ w ∈
      (.sign .parenOpen :: type.words ++ .sign .comma :: rest).head?, w.kind ≠ kind := by
    rintro kind hkind w ⟨⟩
    exact hkind.symm
  have hgroup : Rejects (parenthesized unlimited.whole) (.sign .parenOpen :: type.words)
      (.sign .comma :: rest) .expectedToken (some ")") := by
    refine .look_bind fun start => .test_false (fun c hc => ?_) (.advance_bind fun _ => ?_)
    · exact paramsAhead_eq_false (h.opens.append_cons (by decide) rest) hc
    · rw [← List.append_nil type.words]
      refine .behind (h.whole hcomma) fun _ _ => .bind (.expect ?_) _
      rintro w ⟨⟩
      decide
  -- The productions around it pass the failure on.
  rw [unlimited_whole]
  refine .nesting (.look_bind fun _ => .eat_false (hopening (by decide)) (.bind ?_ _))
  refine .look_bind fun _ => .eat_false (hopening (by decide)) (.bind ?_ _)
  refine .nextIs_false (hopening (by decide)) (.look_bind fun _ => .bind ?_ _)
  exact .nextIs_true rfl hgroup

end TypeExpr

namespace Program

variable {name : String} {right : TypeExpr} {ws rest : List Word}
  {detail : Option String} {kind : Diagnostic.Kind}

/-- A declaration is rejected where its right side is. -/
private theorem rejects_statement (h : Rejects unlimited.whole ws rest kind detail) :
    Rejects (statement unlimited.whole)
      (⟨.identifier, "type"⟩ :: ⟨.identifier, name⟩ :: .sign .equals :: ws) rest kind detail := by
  have htype : ∀ c : Cursor, c.Ahead
      (⟨.identifier, "type"⟩ :: ⟨.identifier, name⟩ :: .sign .equals :: ws ++ rest) →
        c.isWord 0 "type" = true ∧ c.hasKind 1 .identifier = true := fun c hc => by
    rw [hc.isWord_eq, hc.hasKind_eq]
    exact ⟨rfl, rfl⟩
  have hidentifier : ∀ behind, Reads TypeExpr.identifier [⟨.identifier, name⟩] behind
      fun _ => True := fun _ => .nextIs_true rfl (.advance_bind fun _ _ _ => .pure trivial)
  have hparams : Reads (declarationParams unlimited.whole) [] (.sign .equals :: ws ++ rest)
      fun _ => True := by
    refine .nextIs_false ?_ (.pure trivial)
    rintro w ⟨⟩
    decide
  have hright : Rejects (typeAlias unlimited.whole)
      (⟨.identifier, "type"⟩ :: ⟨.identifier, name⟩ :: .sign .equals :: ws) rest kind detail :=
    .advance_bind fun _ => .behind (hidentifier _) fun _ _ => .behind hparams fun _ _ =>
      .expect_bind rfl fun _ => .bind h _
  refine .test_true (fun c hc => ?_) (.bind ?_ _)
  · obtain ⟨hword, hname⟩ := htype c hc
    rw [aliasAhead, hword, hname]
    rfl
  · exact .test_true (fun c hc => (htype c hc).1) (.bind hright _)

/-! ### Programs -/

section Functions

variable {params : List (Param TypeExpr)} {last : Option (Param TypeExpr)} {result : TypeExpr}

/-- The parenthesis is taken for one that groups, and what stands behind the comma for the rest of a
statement that cannot be read. -/
private theorem parse_of_not_announced (hname : Name.isIdentifier name = true)
    (hparams : ∀ p ∈ params, p.Spellable ∧ p.type.Writable)
    (hlast : ∀ p ∈ last, p.Spellable ∧ p.type.Writable) (hresult : result.Writable)
    (h : ¬ Announced params last) (span : Span) :
    ∃ reading, parse none ("type " ++ name ++ " = " ++
        (⟨.function params last result, span⟩ : TypeExpr).render ++ ";") = .ok reading ∧
      reading.program.body = [] ∧
      ∃ place, reading.diagnostics = [⟨.expectedToken, place, some ")"⟩] := by
  let right : TypeExpr := ⟨.function params last result, span⟩
  have hwords := fun (p : Param TypeExpr) (hp : p.Spellable ∧ p.type.Writable) =>
    TypeExpr.inner_paramWords hp.1 (TypeExpr.inner_words hp.2)
  have hinner : ∀ w ∈ right.words, w.Inner :=
    TypeExpr.inner_functionWords (fun p hp => hwords p (hparams p hp))
      (fun p hp => hwords p (hlast p hp)) (TypeExpr.inner_words hresult)
  obtain ⟨p, hp, -, tail, htail⟩ := TypeExpr.exists_shapeWords_of_not_announced h result
  have hright : right.words = .sign .parenOpen :: (p.type.words ++ .sign .comma :: tail) := htail
  obtain ⟨start, hahead, -, hdiagnostics, hlastReport, hparse⟩ :=
    exists_parse_write none (valid_aliasWords hname fun w hw => (hinner w hw).valid)
  -- Up to the end nothing is a semicolon, and so the statement is skipped as a whole.
  have hmore : ∀ w ∈ .sign .comma :: tail, w.kind ≠ .semicolon := fun w hw => by
    refine (hinner w ?_).ne_semicolon
    rw [hright]
    exact List.mem_cons_of_mem _ (List.mem_append_right _ hw)
  have hstart : start.Ahead (⟨.identifier, "type"⟩ :: ⟨.identifier, name⟩ :: .sign .equals ::
      (.sign .parenOpen :: p.type.words) ++ ((.sign .comma :: tail) ++ [.sign .semicolon])) := by
    rw [aliasWords, hright] at hahead
    simpa only [List.cons_append, List.append_assoc] using hahead
  obtain ⟨next, place, hrun, hreport⟩ := exists_run_of_rejects
    (rejects_statement (TypeExpr.rejects_whole (TypeExpr.legible_of_writable (hparams p hp).2) _))
    hmore hstart hdiagnostics hlastReport
  obtain ⟨reading, hread, hbody, -, hdiagnostics'⟩ :=
    hparse [] next ((statements_eq_unlimited start).trans hrun)
  rw [write_aliasWords (TypeExpr.opens_function params last result)] at hread
  exact ⟨reading, hread, hbody, place, hdiagnostics'.trans hreport⟩

/-- **Announced parameters are read, and others are not.** A source declares a name for a function
type whose parameters are written as such, each with a name or without one. If the list is announced
the source has this declaration for its body and nothing wrong with it. Otherwise its body is empty,
and a parenthesis that should close is all that is missing. -/
theorem parse_function (hname : Name.isIdentifier name = true)
    (hparams : ∀ p ∈ params, p.Spellable ∧ p.type.Writable)
    (hlast : ∀ p ∈ last, p.Spellable ∧ p.type.Writable) (hresult : result.Writable)
    (span : Span) :
    ∃ reading, parse none ("type " ++ name ++ " = " ++
        (⟨.function params last result, span⟩ : TypeExpr).render ++ ";") = .ok reading ∧
      (Announced params last → reading.diagnostics = [] ∧
        IsAlias name ⟨.function params last result, span⟩ reading.program.body) ∧
      (¬ Announced params last → reading.program.body = [] ∧
        ∃ place, reading.diagnostics = [⟨.expectedToken, place, some ")"⟩]) := by
  by_cases hannounced : Announced params last
  · have hwritable : (⟨.function params last result, span⟩ : TypeExpr).Writable := by
      refine .mk ⟨fun p hp => (hparams p hp).1, fun p hp => (hlast p hp).1, hannounced⟩ ?_
      exact Shape.forall_parts_function.mpr
        ⟨fun p hp => (hparams p hp).2, fun p hp => (hlast p hp).2, hresult⟩
    obtain ⟨reading, hparse, hbody, -, hdiagnostics⟩ := parse_writable hname hwritable
    exact ⟨reading, hparse, fun _ => ⟨hdiagnostics, hbody⟩, fun h => absurd hannounced h⟩
  · obtain ⟨reading, hparse, hmissing⟩ :=
      parse_of_not_announced hname hparams hlast hresult hannounced span
    exact ⟨reading, hparse, fun h => absurd h hannounced, fun _ => hmissing⟩

end Functions

/-! ### Lists with and without a name in front -/

/-- A parameter that has no name, or a given one. -/
def keywordParam (name : Option String) (keyword : Keyword) : Param TypeExpr :=
  ⟨name.map (⟨·, .point 0⟩), ⟨.keyword keyword, .point 0⟩, false⟩

private theorem writable_keyword (keyword : Keyword) :
    (⟨.keyword keyword, .point 0⟩ : TypeExpr).Writable :=
  .mk trivial (List.forall_mem_nil _)

/-- Behind a parameter that has a name stand one without a name and a rest parameter. -/
theorem parse_function_mixed :
    Name.isIdentifier "F" = true ∧
      (∀ p ∈ [keywordParam "a" .string, keywordParam none .number],
        p.Spellable ∧ p.type.Writable) ∧
      (∀ p ∈ some (keywordParam "b" .boolean), p.Spellable ∧ p.type.Writable) ∧
      (⟨.keyword .void, .point 0⟩ : TypeExpr).Writable ∧
      ∃ reading,
        parse none "type F = (a: string, number, ...b: boolean) => void;" = .ok reading ∧
        reading.diagnostics = [] ∧
        IsAlias "F"
          ⟨.function [keywordParam "a" .string, keywordParam none .number]
            (keywordParam "b" .boolean) ⟨.keyword .void, .point 0⟩, .point 0⟩
          reading.program.body := by
  have hname : Name.isIdentifier "F" = true := by decide
  have hnamed : ∀ name keyword, Name.isIdentifier name = true →
      (keywordParam (some name) keyword).Spellable ∧
        (keywordParam (some name) keyword).type.Writable :=
    fun _ keyword h => ⟨h, writable_keyword keyword⟩
  have hparams : ∀ p ∈ [keywordParam "a" .string, keywordParam none .number],
      p.Spellable ∧ p.type.Writable :=
    List.forall_mem_cons.mpr ⟨hnamed "a" .string (by decide),
      List.forall_mem_singleton.mpr ⟨rfl, writable_keyword .number⟩⟩
  have hlast : ∀ p ∈ some (keywordParam "b" .boolean), p.Spellable ∧ p.type.Writable := by
    rintro p ⟨⟩
    exact hnamed "b" .boolean (by decide)
  obtain ⟨reading, hparse, hread, -⟩ :=
    parse_function hname hparams hlast (writable_keyword .void) (.point 0)
  refine ⟨hname, hparams, hlast, writable_keyword .void, reading, hparse, hread (.inl ?_)⟩
  rintro p ⟨⟩
  rfl

/-- Without a name in front the second parameter is not expected. -/
theorem parse_function_unnamed :
    ∃ reading, parse none "type F = (string, number) => void;" = .ok reading ∧
      reading.program.body = [] ∧
      ∃ place, reading.diagnostics = [⟨.expectedToken, place, some ")"⟩] := by
  have hparams : ∀ p ∈ [keywordParam none .string, keywordParam none .number],
      p.Spellable ∧ p.type.Writable :=
    List.forall_mem_cons.mpr ⟨⟨rfl, writable_keyword .string⟩,
      List.forall_mem_singleton.mpr ⟨rfl, writable_keyword .number⟩⟩
  have hannounced : ¬ Announced [keywordParam none .string, keywordParam none .number] none := by
    rintro (hname | ⟨hlength, -⟩)
    · exact Bool.noConfusion (hname _ rfl)
    · exact absurd hlength (by decide)
  have hlast : ∀ p ∈ (none : Option (Param TypeExpr)), p.Spellable ∧ p.type.Writable := by
    rintro p ⟨⟩
  have hname : Name.isIdentifier "F" = true := by decide
  exact parse_of_not_announced hname hparams hlast (writable_keyword .void) hannounced (.point 0)

end Program

end Reifier
