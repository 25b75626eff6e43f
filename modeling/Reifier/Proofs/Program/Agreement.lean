import Reifier.Program.Parser
import Reifier.Proofs.TypeExpr.Agreement

/-!
# Programs read under two limits

The productions of statements agree with themselves when the parsers for type expressions do. A
statement takes a lexeme whether it can be read or not, so reading on after it is reading with fewer
lexemes left.
-/

namespace Reifier.Program

open Reifier.TypeExpr
open Reifier.Parser (Agrees AgreesTaking lt_length_of_hasKind lt_length_of_isWord le_length_of_or
  le_length_of_left le_length_of_right)

variable {may : Prop} {least most : ℕ} {type type' : Parser TypeExpr}

/-! ### Declarations -/

theorem agrees_declarationParams (h : ∀ m < most, Agrees may 0 m type type') :
    Agrees may 0 most (declarationParams type) (declarationParams type') := by
  refine .look_bind _ fun params => ?_
  cases params with
  | true => exact .bind (agrees_typeParams h) fun _ => .pure _
  | false => exact .pure _

private theorem agrees_typeAlias (h : ∀ m < most, Agrees may 0 m type type') :
    AgreesTaking may 1 most (typeAlias type) (typeAlias type') := by
  refine .advance_bind fun _ m hm => .bind agrees_identifier fun _ => ?_
  refine .bind (agrees_declarationParams fun k hk => h k (hk.trans hm)) fun _ => ?_
  refine .expect_bind fun _ k hk => .bind (h k (hk.trans hm)) fun _ => .bind (.eat _) fun _ => ?_
  exact .look_bind _ fun _ => .pure _

theorem agrees_interfaceBases (h : ∀ m < most, Agrees may 0 m type type') :
    Agrees may 0 most (interfaceBases type) (interfaceBases type') := by
  refine .eatWord_bind (fun m hm => ?_) (.pure _)
  exact .commaSeparated (agrees_generic fun k hk => h k (hk.trans hm))

/-- The limit makes no difference to an interface, as its types are read from fewer lexemes. -/
private theorem agrees_interface (h : ∀ m < most, Agrees may 0 m type type') :
    AgreesTaking may 1 most (interface type) (interface type') := by
  refine .advance_bind fun _ m hm => .bind agrees_identifier fun _ => ?_
  have hinside : ∀ k < m, Agrees may 0 k type type' := fun k hk => h k (hk.trans hm)
  refine .bind (agrees_declarationParams hinside) fun _ => ?_
  refine .bind (agrees_interfaceBases hinside) fun _ => ?_
  refine .test (le_length_of_or lt_length_of_hasKind lt_length_of_hasKind) ?_ (.reject _ _)
  refine .bind (agrees_objectType hinside) fun _ => .bind (.eat _) fun _ => ?_
  exact .look_bind _ fun _ => .pure _

theorem agrees_declaration (h : ∀ m < most, Agrees may 0 m type type') :
    AgreesTaking may 1 most (declaration type) (declaration type') := by
  refine .look_bind _ fun isAlias => ?_
  cases isAlias with
  | true => exact .bind (agrees_typeAlias h) fun _ => .pure _
  | false => exact .bind (agrees_interface h) fun _ => .pure _

/-! ### Imports -/

theorem agrees_importKind : Agrees may 0 most importKind importKind := by
  refine .test (le_length_of_left lt_length_of_isWord) (.bind .advance fun _ => .pure _) ?_
  exact .test (le_length_of_left lt_length_of_isWord) (.bind .advance fun _ => .pure _) (.pure _)

private theorem agrees_namedSpecifier : Agrees may 0 most namedSpecifier namedSpecifier := by
  refine .atEnd_bind (.reject _ _) (.sometimes .advance (.bind agrees_identifier fun _ => ?_))
  exact .eatWord_bind (fun _ _ => .bind agrees_identifier fun _ => .pure _) (.pure _)

private theorem agrees_furtherSpecifiers :
    Agrees may 0 most furtherSpecifiers furtherSpecifiers := by
  refine .eat_bind (fun m _ => ?_) (.eat_bind (fun m _ => ?_) (.reject _ _))
  · exact .bind (.expectWord _) fun _ => .bind agrees_identifier fun _ => .pure _
  · exact .bind (.items agrees_namedSpecifier) fun _ => .bind (.expect _ _) fun _ => .pure _

/-- Specifiers are read without any nesting, and so no limit makes a difference. -/
private theorem agrees_importSpecifiers : Agrees may 0 most importSpecifiers importSpecifiers := by
  refine .look_bind _ fun default => ?_
  cases default with
  | true =>
    refine .bind agrees_identifier fun _ => .eat_bind (fun m _ => ?_) (.pure _)
    exact .bind agrees_furtherSpecifiers fun _ => .pure _
  | false => exact agrees_furtherSpecifiers

theorem agrees_importClause : Agrees may 0 most importClause importClause := by
  refine .look_bind _ fun bare => ?_
  cases bare with
  | true => exact .pure _
  | false => exact .bind agrees_importSpecifiers fun _ => .bind (.expectWord _) fun _ => .pure _

theorem agrees_moduleSource : Agrees may 0 most moduleSource moduleSource :=
  .test lt_length_of_hasKind (.bind .advance fun _ => .pure _) (.reject _ _)

theorem agrees_importDeclaration :
    AgreesTaking may 1 most importDeclaration importDeclaration := by
  refine .advance_bind fun _ m _ => .bind agrees_importKind fun _ => ?_
  refine .bind agrees_importClause fun _ => .bind agrees_moduleSource fun _ => ?_
  exact .bind (.eat _) fun _ => .look_bind _ fun _ => .pure _

/-! ### Statements without a structure -/

theorem agrees_skipStatement : Agrees may 0 most skipStatement skipStatement := by
  refine .rounds_of_step (fun m _ ih depth => ?_) 0
  refine .atEnd_bind (.pure _) (.advance_bind fun token k hk => .look_bind _ fun ended => ?_)
  cases ended with
  | true => exact .pure _
  | false => exact ih k hk _

/-- The rest of a round in which the next lexeme is text. -/
def textRound (type : Parser TypeExpr) (n depth : ℕ) : Parser (List (Item Declaration)) := do
  let token ← Parser.advance
  let depth := token.kind.depthAfter depth
  if ← Parser.look (endsAfter token.kind depth) then return []
  else verbatimLoop type n depth (some token.kind)

theorem nestedDeclaration_bind {α : Type} (type : Parser TypeExpr) (depth : ℕ)
    (previous : Option Token.Kind) (lineStart : Bool) (f : Option Declaration → Parser α) :
    (nestedDeclaration type depth previous lineStart >>= f) =
      Parser.look (fun c => 0 < depth && (lineStart || beginsAfter previous) && nestedAhead c) >>=
        fun yes => if yes = true then Parser.attempt (declaration type) >>= f else f none := by
  rw [nestedDeclaration, bind_assoc]
  congr 1
  funext yes
  cases yes <;> simp

/-- One round of a statement without a structure takes a declaration or, if there is none, a
lexeme. -/
private theorem agrees_verbatimLoop (h : ∀ m < most, Agrees may 0 m type type') {n : ℕ}
    (hloop : ∀ m < most, ∀ depth previous, Agrees may 0 m (verbatimLoop type n depth previous)
      (verbatimLoop type' n depth previous)) (depth : ℕ) (previous : Option Token.Kind) :
    AgreesTaking may 1 most (verbatimLoop type (n + 1) depth previous)
      (verbatimLoop type' (n + 1) depth previous) := by
  refine .atEnd_bind (.pure _) (.look_bind _ fun lineStart => .settle_bind fun comments => ?_)
  -- What is done where no declaration begins, or where none could be read.
  have htext : AgreesTaking may 1 most (textRound type n depth) (textRound type' n depth) := by
    refine .advance_bind fun token m hm => .look_bind _ fun ended => ?_
    cases ended with
    | true => exact .pure _
    | false => exact hloop m hm _ _
  rw [nestedDeclaration_bind, nestedDeclaration_bind]
  refine .look_bind _ fun begins => ?_
  cases begins with
  | true =>
    refine .attempt_bind (agrees_declaration h) (fun decl m hm => ?_) htext
    exact .bind (hloop m hm _ _) fun _ => .pure _
  | false => exact htext

theorem verbatimLoop_of_nil (type : Parser TypeExpr) (n depth : ℕ) (previous : Option Token.Kind)
    {c : Cursor} (hc : c.rest = []) : verbatimLoop type (n + 1) depth previous c = .done [] c := by
  have hend : c.rest.isEmpty = true := by rw [hc]; rfl
  rw [verbatimLoop, Parser.atEnd, Parser.test_of_true hend]
  rfl

/-- A statement without a structure agrees round by round. -/
theorem agrees_verbatim (h : ∀ m < most, Agrees may 0 m type type') :
    AgreesTaking may 1 most (verbatim type) (verbatim type') := by
  let loop (type : Parser TypeExpr) (n : ℕ) (s : ℕ × Option Token.Kind) :=
    verbatimLoop type n s.1 s.2
  have hround : ∀ m ≤ most, (∀ k < m, ∀ s, Agrees may 0 k (loop type m s) (loop type' m s)) →
      ∀ s, AgreesTaking may 1 m (loop type (m + 1) s) (loop type' (m + 1) s) := fun m hm ih s =>
    agrees_verbatimLoop (fun k hk => h k (hk.trans_le hm))
      (fun k hk depth previous => ih k hk (depth, previous)) s.1 s.2
  -- A round takes a lexeme if there is one; without one the loop is at its end.
  have hloop : ∀ m ≤ most, ∀ s, Agrees may 0 m (loop type (m + 1) s) (loop type' (m + 1) s) := by
    refine Agrees.loop_of_step fun m hm ih s => (hround m hm ih s).agrees.of_ahead fun c hc => ?_
    have hend : ∀ type, loop type (m + 1) s c = .done [] c := fun type =>
      verbatimLoop_of_nil type m s.1 s.2 hc
    rw [hend type, hend type']
    exact ⟨rfl, .refl c⟩
  refine .look_bind _ fun start => .look_bind _ fun ahead => .bind (.rounds fun m hm => ?_)
    fun nested => .look_bind _ fun left => .look_bind _ fun _ => .pure _
  refine hround m hm (fun k hk s => ?_) (0, none)
  obtain ⟨n, rfl⟩ : ∃ n, m = n + 1 := Nat.exists_eq_add_one_of_ne_zero (Nat.ne_zero_of_lt hk)
  exact (hloop n (Nat.le_of_succ_le hm) s).anti le_rfl (Nat.le_of_lt_succ hk)

/-! ### Statements -/

/-- **Every statement takes a lexeme before any type in it is read,** and so it agrees. The cases
are the kinds of statements. -/
theorem agrees_statement (h : ∀ m < most, Agrees may 0 m type type') :
    AgreesTaking may 1 most (statement type) (statement type') := by
  refine .look_bind _ fun declares => ?_
  cases declares with
  | true => exact .bind (agrees_declaration h) fun _ => .pure _
  | false =>
    refine .look_bind _ fun imports => ?_
    cases imports with
    | true => exact .bind agrees_importDeclaration fun _ => .pure _
    | false =>
      refine .test (le_length_of_right lt_length_of_hasKind) ?_ ?_
      · refine .advance_bind fun _ m hm => ?_
        refine .bind ((agrees_declaration fun k hk => h k (hk.trans hm)).agrees.anti ?_ le_rfl)
          fun _ => .look_bind _ fun _ => .pure _
        norm_num
      · exact .bind (agrees_verbatim h) fun _ => .pure _

/-- A body agrees statement by statement. -/
theorem agrees_body (h : ∀ m < most, Agrees may 0 m type type') :
    Agrees may 0 most (Parser.rounds (bodyLoop type)) (Parser.rounds (bodyLoop type')) := by
  refine .rounds_of_step' fun m hm ih => .atEnd_bind (.pure _) (.settle_bind fun comments => ?_)
  refine (agrees_statement fun k hk => h k (hk.trans_le hm)).recover_bind fun read k hk => ?_
  cases read with
  | some stmt => exact .bind (ih k hk) fun _ => .pure _
  | none => exact .bind agrees_skipStatement fun _ => ih k hk

end Reifier.Program
