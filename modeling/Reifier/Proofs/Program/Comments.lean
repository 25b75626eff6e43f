import Reifier.Proofs.Parser.Triple
import Reifier.Proofs.Program.Limit
import Reifier.Proofs.Token.Kinds

/-!
# The comments of a program

A program that has been read has the comments of its source, all of them and in order, whatever
became of the statements around them (`comments_of_parse`). What carries this is that a comment is
either recorded or still ahead: no move of the cursor changes the two taken together, not even going
back.
-/

namespace Reifier

/-! ### Comment tokens -/

/-- A comment token with a given text between its marks. -/
inductive Token.Encloses (t : Token) (body : List Char) : Prop
  | line (hkind : t.kind = .lineComment) (htext : t.text.toList = ['/', '/'] ++ body)
  | block (hkind : t.kind = .blockComment)
      (htext : t.text.toList = ['/', '*'] ++ body ++ ['*', '/'])

/-- A token with the signs of a comment around a body becomes a comment with this body. -/
theorem Token.Encloses.ofToken? {t : Token} {body : List Char} (h : t.Encloses body) :
    ∃ kind, Comment.ofToken? t = some ⟨kind, String.ofList body, t.span, false⟩ := by
  unfold Comment.ofToken?
  cases h with
  | line hkind htext =>
    rw [hkind, htext]
    exact ⟨.line, rfl⟩
  | block hkind htext =>
    have hbody : (t.text.toList.drop 2).dropLast.dropLast = body := by
      rw [htext]
      simp
    rw [hkind, hbody]
    exact ⟨.block, rfl⟩

/-- A comment of a source is a token with the text of the comment between its marks. -/
theorem Token.encloses_of_ofToken? {source : String} {t : Token} (ht : t ∈ scan source)
    {comment : Comment} (h : Comment.ofToken? t = some comment) :
    t.Encloses comment.text.toList := by
  have hspells := spells_of_mem_scan ht
  obtain ⟨body, hencloses⟩ : ∃ body, t.Encloses body := by
    unfold Comment.ofToken? at h
    split at h
    · rename_i hkind
      rw [hkind] at hspells
      exact hspells.imp fun body hbody => .line hkind hbody
    · rename_i hkind
      rw [hkind] at hspells
      exact hspells.imp fun body hbody => .block hkind hbody
    · cases h
  obtain ⟨kind, hcomment⟩ := hencloses.ofToken?
  rw [h] at hcomment
  cases hcomment
  rwa [String.toList_ofList]

/-! ### Comments of lexemes -/

/-- Only trivia become comments. -/
private theorem Comment.ofToken?_of_not_isTrivia {t : Token} (h : ¬ t.kind.isTrivia = true) :
    Comment.ofToken? t = none := by
  unfold Comment.ofToken?
  split
  · rename_i hkind
    exact absurd (by rw [hkind]; rfl) h
  · rename_i hkind
    exact absurd (by rw [hkind]; rfl) h
  · rfl

/-- The comments before lexemes and behind the last of them are those of the tokens. -/
private theorem Lexeme.comments_ofTokensAfter (before : Trivia) (ts : List Token) :
    (ofTokensAfter before ts).1.flatMap (·.before.comments) ++ (ofTokensAfter before ts).2.comments =
      before.comments ++ ts.filterMap Comment.ofToken? := by
  induction ts generalizing before with
  | nil => simp [ofTokensAfter]
  | cons t ts ih =>
    rw [ofTokensAfter, List.filterMap_cons]
    split_ifs with htrivia
    · rw [ih, Trivia.push]
      cases Comment.ofToken? t <;> simp
    · rw [Comment.ofToken?_of_not_isTrivia htrivia]
      have hrest := ih Trivia.none
      simp only [Trivia.none, List.nil_append] at hrest
      rw [← hrest]
      simp [Trivia.none]

/-! ### Recorded or ahead -/

namespace Cursor

/-- The comments that are recorded, and those that are still ahead. -/
def allComments (c : Cursor) : List Comment :=
  c.comments ++ c.rest.flatMap (·.before.comments)

/-- **No comment is lost, and none is recorded twice.** -/
theorem Reaches.allComments_eq {c d : Cursor} (h : c.Reaches d) :
    d.allComments = c.allComments := by
  induction h with
  | refl => rfl
  | trans _ _ ih₁ ih₂ => exact ih₂.trans ih₁
  | take h =>
    unfold allComments took
    rw [h, List.flatMap_cons, List.append_assoc]
  | settle c =>
    unfold allComments settled
    split
    · rfl
    · rename_i l ls hrest
      rw [hrest]
      simp [Trivia.none]
  | report c kind detail =>
    unfold allComments Cursor.report
    split <;> rfl
  | rewind => rfl
  | nest _ ih => exact ih

end Cursor

/-! ### Programs -/

namespace Program

open Reifier.Parser (Triple)

/-- Statements are read to the end of the source. -/
private theorem endsAhead_bodyLoop (type : Parser TypeExpr) (n : ℕ) :
    Triple (fun _ => True) (bodyLoop type n) (fun _ c => c.rest = []) fun _ => True := by
  induction n with
  | zero => exact .halt _
  | succ n ih =>
    refine .test (.pure fun c hc => List.isEmpty_iff.mp hc.2) ?_
    refine @Triple.settle_bind _ _ (fun _ => True) _ _ _ (fun _ _ => trivial) fun comments => ?_
    refine .recover_bind (.any _) (fun stmt => .bind ih fun more => .pure fun _ => id) ?_
    exact .bind (.any _) fun _ => ih

/-- **A program has the comments of its source.** -/
theorem comments_of_parse {limit : Option ℕ} {source : String} {reading : Reading}
    (h : parse limit source = .ok reading) :
    reading.program.comments = (Token.scan source).filterMap Comment.ofToken? := by
  obtain ⟨lexemes, after, body, next, hlexemes, hread, hprogram⟩ := exists_program_of_parse h
  let start := startCursor (Text.byteLength source.toList) lexemes
  have hend : next.rest = [] := by
    have hloop : Triple (fun _ => True) (statements limit lexemes) (fun _ c => c.rest = [])
      fun _ => True := .rounds fun n => endsAhead_bodyLoop _ n
    have hstart := hloop start trivial
    rwa [hread] at hstart
  have hreach : start.Reaches next := by
    have hagrees := agrees_statements (.refl limit) lexemes start (Nat.zero_le _) le_rfl
    rw [hread] at hagrees
    exact hagrees.2
  have hnext : next.comments = lexemes.flatMap (·.before.comments) := by
    have hall := hreach.allComments_eq
    rw [Cursor.allComments, hend, List.flatMap_nil, List.append_nil] at hall
    exact hall
  have htokens := Lexeme.comments_ofTokensAfter Trivia.none (Token.scan source)
  rw [← Lexeme.ofTokens, hlexemes] at htokens
  rw [hprogram, hnext]
  exact htokens

end Program

end Reifier
