import Reifier.Proofs.Program.Agreement
import Reifier.Proofs.Program.Moved
import Reifier.Proofs.TypeExpr.Simulation

/-!
# Statements in a text and in a longer one

A statement that is read in a text is read in a longer text as well, further on, and so are what is
reported and where reading goes on after a failure. A statement ends at the latest with the last
semicolon of the text: the brackets that it opens are closed before that, and where it fails the
brackets are counted anew, which can only make fewer of them open.

`readsPast_bodyLoop` is the statement for the body of a program: the longer text is read as the
text is, up to the end of the text, and then on from there.
-/

namespace Reifier.Program

open Reifier.TypeExpr
open Reifier.Parser (Simulates Follows)
open Reifier.Placement (Sees)

variable {σ : Placement} {depth : ℕ} {type type' : Parser TypeExpr}

section

variable (h : ∀ depth, Follows σ depth type type' (TypeExpr.moved σ.offset))
include h

/-! ### Declarations -/

private theorem follows_declarationParams :
    Follows σ depth (declarationParams type) (declarationParams type')
      (Option.map (List.map (TypeParam.moved σ.offset))) :=
  .choose (.hasKind 0 .less) ((follows_typeParams h).bind fun _ => .done rfl) (.done rfl)

private theorem simulates_typeAlias :
    Simulates σ (fun c => σ.Within depth c ∧ c.hasKind 0 .identifier = true)
      (typeAlias type) (typeAlias type')
      fun a b next => b = a.moved σ.offset ∧ σ.Past depth next := by
  refine .take_bind (fun _ h => h) (by decide) fun _ _ => follows_identifier.bind fun _ => ?_
  refine (follows_declarationParams h).bind fun _ => .expect_bind (by decide) fun _ _ => ?_
  refine (h _).bind fun _ => .eat_semicolon_bind fun _ => .spanFrom_bind fun _ => ?_
  exact .pure fun c hc => ⟨rfl, hc⟩

private theorem follows_interfaceBases :
    Follows σ depth (interfaceBases type) (interfaceBases type')
      (List.map (movedGeneric σ.offset)) :=
  .eatWord_bind (follows_generic h).commaSeparated (.done rfl)

/-- An interface is read in place as it is from its own text. -/
private theorem simulates_interface :
    Simulates σ (fun c => σ.Within depth c ∧ c.hasKind 0 .identifier = true)
      (interface type) (interface type')
      fun a b next => b = a.moved σ.offset ∧ σ.Past depth next := by
  refine .take_bind (fun _ h => h) (by decide) fun _ _ => follows_identifier.bind fun _ => ?_
  refine (follows_declarationParams h).bind fun _ => (follows_interfaceBases h).bind fun _ => ?_
  refine .test (Sees.or (.hasKind 0 .braceOpen) (.hasKind 0 .braceBarOpen)).within ?_
    (.reject (fun _ hc => hc) _ _)
  exact (simulates_objectType h).bind_moved fun _ => .eat_semicolon_bind fun _ =>
    .spanFrom_bind fun _ => .pure fun c hc => ⟨rfl, hc⟩

private theorem simulates_declaration :
    Simulates σ (fun c => σ.Within depth c ∧ c.hasKind 0 .identifier = true)
      (declaration type) (declaration type')
      fun a b next => b = a.moved σ.offset ∧ σ.Past depth next := by
  refine .test (fun c d hcd hc => (Sees.isWord 0 "type").within c d hcd hc.1) ?_ ?_
  · refine Simulates.anti ?_ fun c hc => hc.1
    exact (simulates_typeAlias h).bind_moved fun _ => .pure fun c hc => ⟨rfl, hc⟩
  · exact (simulates_interface h).bind_moved fun _ => .pure fun c hc => ⟨rfl, hc⟩

end

/-! ### Imports -/

private theorem sees_importKindAhead (kind : String) : σ.Sees 0 (importKindAhead kind) :=
  .guard_isWord <| .or (.or (.hasKind 1 .braceOpen) (.hasKind 1 .star)) <|
    .and (.hasKind 1 .identifier) (.not (.guard_isWord (.hasKind 2 .string)))

private theorem follows_importKind : Follows σ depth importKind importKind id := by
  have hword : ∀ {kind : String} (c : Cursor), importKindAhead kind c = true →
      c.hasKind 0 .identifier = true := fun c hc =>
    Placement.hasKind_of_isWord (Bool.and_eq_true_iff.mp hc).1
  refine .test (sees_importKindAhead "type").within ?_ ?_
  · exact .take_bind hword (by decide) fun _ _ => .done rfl
  · refine .test (sees_importKindAhead "typeof").within ?_ (.done rfl)
    exact .take_bind hword (by decide) fun _ _ => .done rfl

private theorem hasKind_of_specifierMarkAhead (c : Cursor) (h : specifierMarkAhead c = true) :
    c.hasKind 0 .identifier = true := by
  rw [specifierMarkAhead, Bool.and_eq_true, Bool.and_eq_true, Bool.or_eq_true] at h
  exact h.1.1.elim Placement.hasKind_of_isWord Placement.hasKind_of_isWord

/-- The mark of a specifier is seen from both cursors: the text does not end behind the mark, as a
word and no semicolon stands there. -/
private theorem sees_specifierMarkAhead : σ.Sees 0 specifierMarkAhead := by
  have hmark : ∀ c : Cursor, (c.isWord 0 "type" || c.isWord 0 "typeof") = true →
      c.hasKind 0 .identifier = true := fun c hc =>
    (Bool.or_eq_true_iff.mp hc).elim Placement.hasKind_of_isWord Placement.hasKind_of_isWord
  refine .guard (.guard (.or (.isWord 0 "type") (.isWord 0 "typeof")) hmark (.hasKind 1 .identifier)
    (by decide)) (fun c hc => hmark c (Bool.and_eq_true_iff.mp hc).1) (.not (.isWord 1 "as"))
    (by decide)

private theorem follows_namedSpecifier :
    Follows σ depth namedSpecifier namedSpecifier (ImportSpecifier.moved σ.offset) := by
  refine .choose .atEnd (.reject (fun _ hc => hc) _ _) ?_
  refine .sometimes sees_specifierMarkAhead ?_ (follows_identifier.bind fun _ => ?_)
  · exact (Simulates.take hasKind_of_specifierMarkAhead (by decide)).mono fun _ _ _ hab => hab.2
  · exact .eatWord_bind (follows_identifier.bind fun _ => .done rfl) (.done rfl)

private theorem follows_furtherSpecifiers :
    Follows σ depth furtherSpecifiers furtherSpecifiers
      (List.map (ImportSpecifier.moved σ.offset)) := by
  refine .eat_bind (by decide) ?_ (.eat_bind (by decide) ?_ (.reject (fun _ hc => hc) _ _))
  · exact .expectWord_bind fun _ => follows_identifier.bind fun _ => .done rfl
  · exact follows_namedSpecifier.items.bind fun _ =>
      .expect_bind (by decide) fun _ _ => .done rfl

private theorem follows_importSpecifiers :
    Follows σ depth importSpecifiers importSpecifiers
      (List.map (ImportSpecifier.moved σ.offset)) := by
  refine .choose (.hasKind 0 .identifier) ?_ follows_furtherSpecifiers
  refine follows_identifier.bind fun _ => .eat_bind (by decide) ?_ (.done rfl)
  exact follows_furtherSpecifiers.bind fun _ => .done rfl

private theorem follows_importClause :
    Follows σ depth importClause importClause (List.map (ImportSpecifier.moved σ.offset)) := by
  refine .choose (.hasKind 0 .string) (.done rfl) ?_
  exact follows_importSpecifiers.bind fun _ => .expectWord_bind fun _ => .done rfl

private theorem follows_moduleSource :
    Follows σ depth moduleSource moduleSource (ModuleSource.moved σ.offset) := by
  refine .test (Sees.hasKind 0 .string).within ?_ (.reject (fun _ hc => hc) _ _)
  exact .take_bind (fun _ h => h) (by decide) fun _ _ => .done rfl

private theorem simulates_importDeclaration :
    Simulates σ (fun c => σ.Within depth c ∧ c.hasKind 0 .identifier = true)
      importDeclaration importDeclaration
      fun a b next => b = a.moved σ.offset ∧ σ.Past depth next := by
  refine .take_bind (fun _ h => h) (by decide) fun _ _ => follows_importKind.bind fun _ => ?_
  refine follows_importClause.bind fun _ => follows_moduleSource.bind fun _ => ?_
  refine .eat_semicolon_bind fun _ => .spanFrom_bind fun _ => ?_
  exact .pure fun c hc => ⟨rfl, hc⟩

/-! ### The end of a statement -/

/-- Behind a token the end of a statement is seen within the text; its last semicolon is seen to be
one whatever follows. -/
private theorem endsAfter_eq {kind : Token.Kind} {c d : Cursor} (hcd : σ.Places c d)
    (hc : σ.Behind kind depth c) :
    endsAfter kind (kind.depthAfter depth) d = endsAfter kind (kind.depthAfter depth) c := by
  rcases hc with hwithin | ⟨rfl, rfl, -⟩
  · unfold endsAfter
    simp only [hcd.lineBreakAhead hwithin.visible, hcd.isWord hwithin.visible]
  · rfl

/-- A statement that goes on behind a token does so within the text. -/
private theorem within_of_endsAfter {kind : Token.Kind} {c : Cursor} (hc : σ.Behind kind depth c)
    (hends : endsAfter kind (kind.depthAfter depth) c = false) :
    σ.Within (kind.depthAfter depth) c := by
  refine hc.resolve_right ?_
  rintro ⟨rfl, rfl, -⟩
  cases hends

/-- What is skipped in place is what is skipped in its own text. It ends within this, or with it. -/
private theorem simulates_skipStatement :
    Simulates σ (σ.Within 0) skipStatement skipStatement fun _ _ => σ.Past 0 := by
  have hloop : ∀ {n n' : ℕ}, n ≤ n' → ∀ depth, Simulates σ (σ.Within depth) (skipLoop n depth)
      (skipLoop n' depth) fun _ _ => σ.Past 0 := by
    refine Simulates.loop_of_step id (fun _ => rfl) fun n n' ih depth => ?_
    refine .choose .atEnd (.pure fun c hc => hc.zero.past) ?_
    refine .advance_bind (fun t => σ.Behind t.kind depth) (fun c hc => hc.visible)
      (fun c l ls hc hrest => hc.took hrest) fun t => ?_
    refine .test_iff (fun c d hcd hc => endsAfter_eq hcd hc) ?_ ?_
    · exact .pure fun c hc => hc.1.past_zero
    · exact (ih _).anti fun c hc => within_of_endsAfter hc.1 hc.2
  exact .rounds fun hle => hloop hle 0

/-! ### Statements without a structure -/

private theorem sees_aliasAhead : σ.Sees 0 aliasAhead := .guard_isWord (.hasKind 1 .identifier)

private theorem sees_interfaceAhead :
    σ.Sees 0 interfaceAhead := .guard_isWord (.hasKind 1 .identifier)

private theorem hasKind_of_declarationAhead (c : Cursor)
    (h : (aliasAhead c || interfaceAhead c) = true) : c.hasKind 0 .identifier = true :=
  (Bool.or_eq_true_iff.mp h).elim
    (fun halias => Placement.hasKind_of_isWord (Bool.and_eq_true_iff.mp halias).1)
    fun hinterface => Placement.hasKind_of_isWord (Bool.and_eq_true_iff.mp hinterface).1

/-- Where a declaration may begin inside a statement, it may begin one of its own. -/
theorem declarationAhead_of_nestedAhead {c : Cursor} (h : nestedAhead c = true) :
    (aliasAhead c || interfaceAhead c) = true := by
  unfold nestedAhead at h
  split_ifs at h with halias
  · rw [halias]
    rfl
  · rw [(Bool.and_eq_true_iff.mp h).1, Bool.or_true]

/-- What follows the name is only looked at where the name is. -/
private theorem sees_nestedAhead : σ.Sees 0 nestedAhead := by
  have hname : ∀ {word : String} (c : Cursor),
      (c.isWord 0 word && c.hasKind 1 .identifier) = true → c.hasKind 1 .identifier = true :=
    fun c hc => (Bool.and_eq_true_iff.mp hc).2
  have halias : σ.Sees 0 fun c => aliasAhead c && (c.hasKind 2 .equals || c.hasKind 2 .less) :=
    .guard sees_aliasAhead hname (.or (.hasKind 2 .equals) (.hasKind 2 .less)) (by decide)
  have hinterface : σ.Sees 0 fun c => interfaceAhead c &&
      (c.hasKind 2 .braceOpen || c.hasKind 2 .braceBarOpen || c.hasKind 2 .less ||
        c.isWord 2 "extends") :=
    .guard sees_interfaceAhead hname (.or (.or (.or (.hasKind 2 .braceOpen)
      (.hasKind 2 .braceBarOpen)) (.hasKind 2 .less)) (.isWord 2 "extends")) (by decide)
  intro c d hcd hc hvisible
  have h₁ := sees_aliasAhead c d hcd hc hvisible
  have h₂ := halias c d hcd hc hvisible
  have h₃ := hinterface c d hcd hc hvisible
  unfold nestedAhead
  dsimp only at h₂ h₃
  rw [h₁] at h₂ ⊢
  split_ifs with hahead
  · rwa [hahead, Bool.true_and, Bool.true_and] at h₂
  · exact h₃

/-- Moving lexemes leaves their text as it is. -/
private theorem textOf_map_moved (n : ℕ) (ls : List Lexeme) :
    Lexeme.textOf (ls.map (Lexeme.moved n)) = Lexeme.textOf ls := by
  cases ls with
  | nil => rfl
  | cons l ls =>
    simp only [List.map_cons, Lexeme.textOf, List.map_map]
    rfl

/-- The text between two places does not depend on what follows. -/
private theorem textOf_take_append (n left : ℕ) (ls behind : List Lexeme) :
    Lexeme.textOf ((ls.map (Lexeme.moved n) ++ behind).take
      ((ls.map (Lexeme.moved n) ++ behind).length - (left + behind.length))) =
        Lexeme.textOf (ls.take (ls.length - left)) := by
  have hcount : (ls.map (Lexeme.moved n) ++ behind).length - (left + behind.length) =
      ls.length - left := by
    rw [List.length_append, List.length_map]
    omega
  rw [hcount, List.take_append_of_le_length (by simp), ← List.map_take, textOf_map_moved]

section

variable (h : ∀ depth, Follows σ depth type type' (TypeExpr.moved σ.offset))
include h

/-- One round of a statement without a structure. A declaration inside of brackets does not reach
the end of the text, even if it ends with a semicolon. -/
private theorem simulates_verbatimRound {n n' : ℕ}
    (ih : ∀ s : ℕ × Option Token.Kind, Simulates σ (σ.Within s.1) (verbatimLoop type n s.1 s.2)
      (verbatimLoop type' n' s.1 s.2) fun a b next =>
        b = a.map (Item.moved (Declaration.moved σ.offset) σ.comments.length) ∧ σ.Past 0 next)
    (depth : ℕ) (previous : Option Token.Kind) :
    Simulates σ (σ.Within depth) (verbatimLoop type (n + 1) depth previous)
      (verbatimLoop type' (n' + 1) depth previous) fun a b next =>
        b = a.map (Item.moved (Declaration.moved σ.offset) σ.comments.length) ∧
          σ.Past 0 next := by
  refine .choose .atEnd (.pure fun c hc => ⟨rfl, hc.zero.past⟩) ?_
  refine .look_bind id (fun c d hcd hc => hcd.lineBreakAhead hc.visible) fun lineStart => ?_
  refine Simulates.anti (.settle_bind fun ids => ?_) fun c hc => hc.1
  -- What is done where no declaration begins, or where none could be read.
  have htext : Simulates σ (σ.Within depth) (textRound type n depth) (textRound type' n' depth)
      fun a b next => b = a.map (Item.moved (Declaration.moved σ.offset) σ.comments.length) ∧
        σ.Past 0 next := by
    refine .advance_bind (fun t => σ.Behind t.kind depth) (fun c hc => hc.visible)
      (fun c l ls hc hrest => hc.took hrest) fun t => ?_
    refine .test_iff (fun c d hcd hc => endsAfter_eq hcd hc) ?_ ?_
    · exact .pure fun c hc => ⟨rfl, hc.1.past_zero⟩
    · exact (ih (t.kind.depthAfter depth, some t.kind)).anti fun c hc =>
        within_of_endsAfter hc.1 hc.2
  rw [nestedDeclaration_bind, nestedDeclaration_bind]
  have hview : σ.Sees 0 fun c =>
      0 < depth && (lineStart || beginsAfter previous) && nestedAhead c :=
    .and (fun _ _ _ _ _ => rfl) sees_nestedAhead
  refine .test hview.within ?_ htext
  by_cases hpos : 0 < depth
  · have hdeclaration : Simulates σ (fun c => σ.Within depth c ∧ c.hasKind 0 .identifier = true)
        (declaration type) (declaration type')
        fun a b next => b = a.moved σ.offset ∧ σ.Within depth next :=
      (simulates_declaration h).mono fun a b c hab => ⟨hab.1, hab.2.within hpos⟩
    refine .attempt_bind (fun c hc => hc.1) (hdeclaration.anti fun c hc => ⟨hc.1, ?_⟩) ?_ htext
    · have hnested := (Bool.and_eq_true_iff.mp hc.2).2
      exact hasKind_of_declarationAhead c (declarationAhead_of_nestedAhead hnested)
    · intro decl
      refine Simulates.bind_moved (ih (depth, some .semicolon)) fun more => ?_
      exact .pure fun c hc => ⟨rfl, hc⟩
  · rintro c d hcd ⟨-, hbegins⟩
    simp [hpos] at hbegins

/-- The declarations inside a statement are found in place as they are in its own text. The
induction is on the rounds, of which there may be more in place. -/
private theorem simulates_verbatimLoop {n n' : ℕ} (hle : n ≤ n') :
    ∀ s : ℕ × Option Token.Kind, Simulates σ (σ.Within s.1) (verbatimLoop type n s.1 s.2)
      (verbatimLoop type' n' s.1 s.2) fun a b next =>
        b = a.map (Item.moved (Declaration.moved σ.offset) σ.comments.length) ∧
          σ.Past 0 next := by
  let loop (type : Parser TypeExpr) (n : ℕ) (s : ℕ × Option Token.Kind) :=
    verbatimLoop type n s.1 s.2
  have hloop : ∀ {n n' : ℕ}, n ≤ n' → ∀ s, Simulates σ (σ.Within s.1) (loop type n s)
      (loop type' n' s) fun a b next =>
        b = a.map (Item.moved (Declaration.moved σ.offset) σ.comments.length) ∧
          σ.Past 0 next :=
    Simulates.loop_of_step id (fun _ => rfl) fun n n' ih s => simulates_verbatimRound h ih s.1 s.2
  exact hloop hle

/-- A statement without a structure is read in place as it is from its own text. -/
private theorem simulates_verbatim :
    Simulates σ (σ.Within 0) (verbatim type) (verbatim type')
      fun a b next => b = a.moved σ.offset σ.comments.length ∧ σ.Past 0 next := by
  refine .nextStart_bind (fun _ hc => hc.visible) fun start => ?_
  refine .look_bind (fun ls => ls.map (Lexeme.moved σ.offset) ++ σ.behind)
    (fun c d hcd _ => hcd.rest) fun ahead => ?_
  refine .bind_moved (.rounds fun hle =>
    (simulates_verbatimLoop h hle (0, none)).anti fun c hc => hc.1) fun nested => ?_
  refine .look_bind (· + σ.behind.length) (fun c d hcd _ => hcd.length_eq) fun left => ?_
  refine .spanFrom_bind fun span => .pure fun c hc => ⟨?_, hc.1⟩
  rw [textOf_take_append]
  rfl

/-! ### Statements -/

omit h in
private theorem sees_importAhead : σ.Sees 0 importAhead :=
  .guard_isWord (.not (.or (.hasKind 1 .parenOpen) (.hasKind 1 .dot)))

omit h in
private theorem sees_exportAhead : σ.Sees 0 exportAhead := by
  have hword : ∀ c : Cursor,
      (c.isWord 0 "export" && (c.isWord 1 "type" || c.isWord 1 "interface")) = true →
        c.hasKind 1 .identifier = true := fun c hc =>
    (Bool.or_eq_true_iff.mp (Bool.and_eq_true_iff.mp hc).2).elim Placement.hasKind_of_isWord
      Placement.hasKind_of_isWord
  exact .guard (.guard_isWord (.or (.isWord 1 "type") (.isWord 1 "interface"))) hword
    (.hasKind 2 .identifier) (by decide)

omit h in
private theorem hasKind_of_exportAhead {c : Cursor} (h : exportAhead c = true) :
    c.hasKind 0 .identifier = true ∧ c.hasKind 1 .identifier = true := by
  rw [exportAhead, Bool.and_eq_true, Bool.and_eq_true, Bool.or_eq_true] at h
  exact ⟨Placement.hasKind_of_isWord h.1.1,
    h.1.2.elim Placement.hasKind_of_isWord Placement.hasKind_of_isWord⟩

/-- A statement is read in place as it is from its own text. The tests that choose its kind are seen
from both cursors. -/
private theorem simulates_statement :
    Simulates σ (σ.Within 0) (statement type) (statement type')
      fun a b next => b = a.moved σ.offset σ.comments.length ∧ σ.Past 0 next := by
  refine .test (Sees.or sees_aliasAhead sees_interfaceAhead).within ?_ ?_
  · refine ((simulates_declaration h).anti fun c hc =>
      ⟨hc.1, hasKind_of_declarationAhead c hc.2⟩).bind_moved fun _ => ?_
    exact .pure fun c hc => ⟨rfl, hc⟩
  refine .test sees_importAhead.within ?_ ?_
  · refine (simulates_importDeclaration.anti fun c hc => ⟨hc.1, ?_⟩).bind_moved fun _ => ?_
    · exact Placement.hasKind_of_isWord (Bool.and_eq_true_iff.mp hc.2).1
    · exact .pure fun c hc => ⟨rfl, hc⟩
  refine .test sees_exportAhead.within ?_ ?_
  · refine .advance_bind (fun _ c => σ.Within 0 c ∧ c.hasKind 0 .identifier = true)
      (fun c hc => hc.1.visible) ?_ fun first => (simulates_declaration h).bind_moved fun _ => ?_
    · rintro c l ls ⟨hc, hexport⟩ hrest
      obtain ⟨hword, hnext⟩ := hasKind_of_exportAhead hexport
      exact ⟨hc.took_of_ne hword (by decide) hrest, by rwa [Cursor.hasKind_took hrest]⟩
    · exact .spanFrom_bind fun _ => .pure fun c hc => ⟨rfl, hc⟩
  · exact (simulates_verbatim h).bind_moved fun _ => .pure fun c hc => ⟨rfl, hc⟩

end

/-! ### Bodies -/

theorem bodyLoop_of_nil (type : Parser TypeExpr) (n : ℕ) {c : Cursor} (hc : c.rest = []) :
    bodyLoop type (n + 1) c = .done [] c := by
  have hend : c.rest.isEmpty = true := by rw [hc]; rfl
  rw [bodyLoop, Parser.atEnd, Parser.test_of_true hend]
  rfl

/-- A round of the body, where the comments above the statement are recorded. -/
def bodyRound (type : Parser TypeExpr) (n : ℕ) (comments : List CommentId) :
    Parser (List (Item Statement)) := do
  match ← Parser.recover (statement type) with
  | some stmt =>
    let more ← bodyLoop type n
    return ⟨comments, stmt⟩ :: more
  | none =>
    skipStatement
    bodyLoop type n

theorem bodyLoop_of_ne_nil (type : Parser TypeExpr) (n : ℕ) {c : Cursor} (hc : c.rest ≠ []) :
    bodyLoop type (n + 1) c = bodyRound type n
      (List.range' c.comments.length c.commentsAhead.length) c.settled := by
  have hend : ¬ c.rest.isEmpty = true := by rwa [List.isEmpty_iff]
  rw [bodyLoop, Parser.atEnd, Parser.test_of_not hend]
  rfl

variable {m n : ℕ} {items : List (Item Statement)} {ids : List CommentId} {c d mid next : Cursor}

theorem bodyRound_of_done {stmt : Statement} (hstmt : statement type c = .done stmt mid) :
    bodyRound type n ids c =
      (do return (⟨ids, stmt⟩ : Item Statement) :: (← bodyLoop type n)) mid := by
  have hread : Parser.recover (statement type) c = .done (some stmt) mid := by
    rw [Parser.recover, hstmt]
  rw [bodyRound, Parser.bind_of_done hread]

theorem bodyRound_of_failed (hstmt : statement type c = .failed mid) :
    bodyRound type n ids c = (do skipStatement; bodyLoop type n) mid := by
  have hread : Parser.recover (statement type) c = .done none mid := by
    rw [Parser.recover, hstmt]
  rw [bodyRound, Parser.bind_of_done hread]

private theorem bodyRound_of_halted {cause : Halt} (hstmt : statement type c = .halted cause mid) :
    bodyRound type n ids c = .halted cause mid := by
  have hread : Parser.recover (statement type) c = .halted cause mid := by
    rw [Parser.recover, hstmt]
  rw [bodyRound, Parser.bind_of_halted hread]

/-- What a round of the body has done when all that follows has been read: it has read a statement,
or it has skipped one that cannot be read. -/
theorem bodyRound_cases (hrun : bodyRound type n ids c = .done items next) :
    (∃ stmt mid more, statement type c = .done stmt mid ∧ bodyLoop type n mid = .done more next ∧
      items = ⟨ids, stmt⟩ :: more) ∨
    ∃ wrong mid, statement type c = .failed wrong ∧ skipStatement wrong = .done () mid ∧
      bodyLoop type n mid = .done items next := by
  cases hstmt : statement type c with
  | done stmt mid =>
    rw [bodyRound_of_done hstmt] at hrun
    obtain ⟨more, last, hmore, hitems⟩ := Parser.exists_of_bind_eq_done hrun
    cases hitems
    exact .inl ⟨stmt, mid, more, rfl, hmore, rfl⟩
  | failed wrong =>
    rw [bodyRound_of_failed hstmt] at hrun
    obtain ⟨_, mid, hskip, hmore⟩ := Parser.exists_of_bind_eq_done hrun
    exact .inr ⟨wrong, mid, rfl, hskip, hmore⟩
  | halted cause mid =>
    rw [bodyRound_of_halted hstmt] at hrun
    cases hrun

/-- An item as it stands in the longer text. -/
def movedItem (σ : Placement) (item : Item Statement) : Item Statement :=
  item.moved (Statement.moved σ.offset σ.comments.length) σ.comments.length

/-- What is read in a longer text, from where a text begins: the `items` of the text, up to `next`,
and then what is read from behind the text, in `m` rounds more than are left in the text. -/
def ReadsPast (σ : Placement) (type : Parser TypeExpr) (m : ℕ) (items : List (Item Statement))
    (next : Cursor) (o : Outcome (List (Item Statement))) : Prop :=
  next.rest = [] ∧ ∃ k next', σ.Places next next' ∧
    o = (do return items.map (movedItem σ) ++ (← bodyLoop type (k + 1 + m))) next'

/-- Items that are read in front. -/
theorem ReadsPast.cons {p : Parser (List (Item Statement))}
    (hp : ReadsPast σ type m items next (p d)) (item : Item Statement) :
    ReadsPast σ type m (item :: items) next ((do return movedItem σ item :: (← p)) d) := by
  obtain ⟨hend, k, next', hnext, hrun⟩ := hp
  refine ⟨hend, k, next', hnext, ?_⟩
  rw [Parser.bind_apply, hrun, Parser.bind_apply, Parser.bind_apply]
  cases bodyLoop type (k + 1 + m) next' <;> rfl

section

variable (h : ∀ depth, Follows σ depth type type' (TypeExpr.moved σ.offset))
include h

/-- One round of the body in a longer text, from the comments above a statement on. -/
theorem readsPast_bodyRound
    (ih : ∀ {c d : Cursor} {items : List (Item Statement)}, σ.Places c d → σ.Past 0 c →
      bodyLoop type n c = .done items next →
        ReadsPast σ type' m items next (bodyLoop type' (n + m) d))
    (hcd : σ.Places c d) (hc : σ.Within 0 c)
    (hrun : bodyRound type n ids c = .done items next) :
    ReadsPast σ type' m items next
      (bodyRound type' (n + m) (ids.map (σ.comments.length + ·)) d) := by
  have hstatement := simulates_statement h c d hcd hc
  rcases bodyRound_cases hrun with
    ⟨stmt, mid, more, hstmt, hmore, rfl⟩ | ⟨wrong, mid, hstmt, hskip, hmore⟩
  · rw [hstmt] at hstatement
    obtain ⟨stmt', mid', hstmt', hmid, rfl, hpast⟩ := hstatement
    rw [bodyRound_of_done hstmt']
    exact (ih hmid hpast hmore).cons ⟨ids, stmt⟩
  · rw [hstmt] at hstatement
    obtain ⟨wrong', hstmt', hwrong, hwithin⟩ := hstatement
    rw [bodyRound_of_failed hstmt']
    have hskipped := simulates_skipStatement wrong wrong' hwrong hwithin
    rw [hskip] at hskipped
    obtain ⟨_, mid', hskip', hmid, hpast⟩ := hskipped
    rw [Parser.bind_of_done hskip']
    exact ih hmid hpast hmore

/-- **A longer text is read as the text is, up to the end of the text**, where the text ends with a
semicolon outside all brackets. -/
theorem readsPast_bodyLoop (hcd : σ.Places c d) (hc : σ.Past 0 c)
    (hrun : bodyLoop type n c = .done items next) :
    ReadsPast σ type' m items next (bodyLoop type' (n + m) d) := by
  induction n generalizing c d items with
  | zero => cases hrun
  | succ n ih =>
    by_cases hend : c.rest = []
    · rw [bodyLoop_of_nil type n hend] at hrun
      cases hrun
      refine ⟨hend, n, d, hcd, ?_⟩
      rw [List.map_nil]
      exact (congrFun (bind_pure (bodyLoop type' (n + 1 + m))) d).symm
    · have hwithin : σ.Within 0 c := hc.resolve_right fun hpast => hend hpast.2
      have hend' : d.rest ≠ [] := by
        rw [hcd.rest]
        simp [hend]
      rw [bodyLoop_of_ne_nil type n hend] at hrun
      rw [Nat.add_right_comm, bodyLoop_of_ne_nil type' (n + m) hend',
        hcd.commentIds hwithin.visible]
      exact readsPast_bodyRound h ih (hcd.settled hwithin.visible) hwithin.settled hrun

end

end Reifier.Program
