import Reifier.Program.Parser
import Reifier.Proofs.TypeExpr.Balance

/-!
# The brackets of an import

An import leaves the brackets open that were open before (`Program.turns_importDeclaration`). Its
words and names stand one behind another, so no words are watched.
-/

namespace Reifier.Program

open Reifier.TypeExpr
open Reifier.Parser (Turns TurnsWhere)

variable {opened : List Token.Kind} {behindWord : Bool}

/-- The kind of an import opens and closes no bracket. -/
private theorem turns_importKind : Turns [] ⟨opened, false⟩ ⟨opened, false⟩ importKind := by
  have hword : ∀ (word : String) (kind : ImportKind),
      TurnsWhere [] (importKindAhead word · = true) ⟨opened, false⟩ ⟨opened, false⟩
        (do let _ ← Parser.advance; return kind) := fun word _ =>
    .take_word_bind List.not_mem_nil (fun _ hc => (Bool.and_eq_true_iff.mp hc).1) fun _ => .pure _
  exact .test (hword _ _) (.test (hword _ _) (.pure _))

/-- A specifier opens and closes no bracket. -/
private theorem turns_namedSpecifier : Turns [] ⟨opened, false⟩ ⟨opened, true⟩ namedSpecifier := by
  have hname : Turns [] ⟨opened, false⟩ ⟨opened, true⟩ (do
      let imported ← identifier
      if ← Parser.eatWord "as" then return ImportSpecifier.named imported (← identifier)
      else return .named imported imported) := by
    refine turns_identifier.bind fun imported => .unwatched (.eatWord_bind List.not_mem_nil ?_)
    intro yes
    cases yes with
    | true => exact turns_identifier.bind fun _ => .pure _
    | false => exact .loosen (.pure _)
  refine .choose (.reject _ _) (.test (.take_name_bind (fun c hc => ?_) fun _ => ?_) hname)
  · rw [specifierMarkAhead, Bool.and_eq_true, Bool.and_eq_true, Bool.or_eq_true] at hc
    exact hc.1.1.elim Placement.hasKind_of_isWord Placement.hasKind_of_isWord
  · exact hname.unwatched

private theorem turns_furtherSpecifiers :
    Turns [] ⟨opened, behindWord⟩ ⟨opened, true⟩ furtherSpecifiers := by
  refine .eat_mark_bind (by decide) ?_ (.eat_open_bind rfl ?_ (.reject _ _))
  · exact .expectWord_bind List.not_mem_nil fun _ => turns_identifier.bind fun _ => .pure _
  · exact (Turns.items fun _ => turns_namedSpecifier).bind fun _ =>
      .expect_close_bind (by decide) fun _ => .loosen (.pure _)

private theorem turns_importSpecifiers :
    Turns [] ⟨opened, false⟩ ⟨opened, true⟩ importSpecifiers := by
  refine .choose (turns_identifier.bind fun _ => ?_) turns_furtherSpecifiers
  exact .eat_mark_bind (by decide) (turns_furtherSpecifiers.bind fun _ => .pure _) (.pure _)

private theorem turns_importClause : Turns [] ⟨opened, false⟩ ⟨opened, false⟩ importClause :=
  .choose (.pure _) (turns_importSpecifiers.bind fun _ =>
    .unwatched (.expectWord_bind List.not_mem_nil fun _ => .pure _))

private theorem turns_moduleSource : Turns [] ⟨opened, false⟩ ⟨opened, false⟩ moduleSource :=
  .test (.take_mark_bind .string (fun _ => id) (by decide) fun _ => .pure _) (.reject _ _)

/-- An import, whose first word stands ahead. -/
theorem turns_importDeclaration :
    TurnsWhere [] (·.isWord 0 "import" = true) ⟨opened, false⟩ ⟨opened, true⟩
      importDeclaration :=
  .take_word_bind List.not_mem_nil (fun _ => id) fun _ => turns_importKind.bind fun _ =>
    turns_importClause.bind fun _ => turns_moduleSource.bind fun _ =>
      .eat_any_bind (by decide) fun _ => .look_bind fun _ => .pure _

end Reifier.Program
