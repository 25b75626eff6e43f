import Reifier.Proofs.Token.Boundary
import Reifier.Proofs.TypeExpr.Moved
import Reifier.Token.Lexeme

/-!
# Lexemes of texts that are put together

Put behind a text that ends in a semicolon, and on a line of its own, a text has the lexemes that it
has alone, further on by the bytes in front of it (`Lexeme.exists_ofTokens_append`). Only the blank
space before its first lexeme may be different, since the line break runs together with it.
-/

namespace Reifier

/-! ### Moving -/

/-- A token `n` bytes further on. -/
def Token.moved (n : ℕ) (token : Token) : Token := { token with span := token.span.moved n }

/-- A comment `n` bytes further on. -/
def Comment.moved (n : ℕ) (comment : Comment) : Comment :=
  { comment with span := comment.span.moved n }

/-- Trivia `n` bytes further on. -/
def Trivia.moved (n : ℕ) (trivia : Trivia) : Trivia :=
  { trivia with comments := trivia.comments.map (Comment.moved n) }

/-- A lexeme `n` bytes further on. -/
def Lexeme.moved (n : ℕ) (l : Lexeme) : Lexeme := ⟨l.before.moved n, l.token.moved n⟩

@[simp] theorem Token.moved_zero : Token.moved 0 = id := rfl

@[simp] theorem Comment.moved_zero : Comment.moved 0 = id := rfl

@[simp] theorem Trivia.moved_zero (trivia : Trivia) : trivia.moved 0 = trivia := by
  rw [Trivia.moved, Comment.moved_zero, List.map_id]

@[simp] theorem Lexeme.moved_zero : Lexeme.moved 0 = id := by
  funext l
  rw [Lexeme.moved, Trivia.moved_zero, Token.moved_zero]
  rfl

/-- Placing pieces further on moves their tokens. -/
theorem Token.place_add (offset n : ℕ) (ps : List Piece) :
    place (offset + n) ps = (place offset ps).map (Token.moved n) := by
  induction ps generalizing offset with
  | nil => rfl
  | cons p ps ih =>
    have hstop : offset + n + Text.byteLength p.chars = offset + Text.byteLength p.chars + n :=
      Nat.add_right_comm _ _ _
    rw [place, place, hstop, ih, List.map_cons]
    rfl

/-- Trivia that are moved are collected as they are otherwise. -/
private theorem Trivia.push_moved (n : ℕ) (trivia : Trivia) (t : Token) :
    (trivia.moved n).push (t.moved n) = (trivia.push t).moved n := by
  have hcomment : Comment.ofToken? (t.moved n) = (Comment.ofToken? t).map (Comment.moved n) := by
    obtain ⟨kind, text, span⟩ := t
    cases kind <;> rfl
  unfold Trivia.push Trivia.moved
  rw [hcomment, List.map_append]
  cases Comment.ofToken? t <;> rfl

namespace Lexeme

/-! ### Lexemes of tokens -/

/-- Moving tokens moves their lexemes. -/
theorem ofTokensAfter_moved (n : ℕ) (before : Trivia) (ts : List Token) :
    ofTokensAfter (before.moved n) (ts.map (Token.moved n)) =
      ((ofTokensAfter before ts).1.map (Lexeme.moved n), (ofTokensAfter before ts).2.moved n) := by
  induction ts generalizing before with
  | nil => rfl
  | cons t ts ih =>
    have hkind : (t.moved n).kind = t.kind := rfl
    have hnone : Trivia.none.moved n = Trivia.none := rfl
    rw [List.map_cons, ofTokensAfter, ofTokensAfter, hkind]
    split_ifs
    · rw [Trivia.push_moved, ih]
    · have hrest := ih Trivia.none
      rw [hnone] at hrest
      rw [hrest]
      rfl

/-- The trivia behind some tokens stand before those that follow. -/
theorem ofTokensAfter_append (before : Trivia) (ts us : List Token) :
    ofTokensAfter before (ts ++ us) =
      ((ofTokensAfter before ts).1 ++ (ofTokensAfter (ofTokensAfter before ts).2 us).1,
        (ofTokensAfter (ofTokensAfter before ts).2 us).2) := by
  induction ts generalizing before with
  | nil => rfl
  | cons t ts ih =>
    rw [List.cons_append, ofTokensAfter, ofTokensAfter]
    split_ifs
    · exact ih _
    · rw [ih]
      rfl

/-- No trivia stand behind a last token that is none. -/
theorem ofTokensAfter_snd_of_getLast? {ts : List Token} {kind : Token.Kind}
    (h : ts.getLast?.map Token.kind = some kind) (hkind : kind.isTrivia = false)
    (before : Trivia) : (ofTokensAfter before ts).2 = Trivia.none := by
  obtain ⟨t, ht, rfl⟩ := Option.map_eq_some_iff.mp h
  obtain ⟨front, rfl⟩ := List.getLast?_eq_some_iff.mp ht
  rw [ofTokensAfter_append]
  simp [ofTokensAfter, hkind]

/-- Lexemes that are the same but for the text and the line breaks before the first of them. -/
def SameButStart : List Lexeme → List Lexeme → Prop
  | [], [] => True
  | l :: ls, m :: ms =>
    m.token = l.token ∧ m.before.comments = l.before.comments ∧ ms = ls
  | _, _ => False

/-- There are as many lexemes either way. -/
theorem SameButStart.length_eq {ls ms : List Lexeme} (h : SameButStart ls ms) :
    ms.length = ls.length := by
  match ls, ms, h with
  | [], [], _ => rfl
  | _ :: _, _ :: _, ⟨_, _, rfl⟩ => rfl

/-- Trivia in front that have the same comments make a difference to the first lexeme only. -/
private theorem sameButStart_ofTokensAfter {before before' : Trivia}
    (h : before'.comments = before.comments) (ts : List Token) :
    SameButStart (ofTokensAfter before ts).1 (ofTokensAfter before' ts).1 ∧
      (ofTokensAfter before' ts).2.comments = (ofTokensAfter before ts).2.comments := by
  induction ts generalizing before before' with
  | nil => exact ⟨trivial, h⟩
  | cons t ts ih =>
    rw [ofTokensAfter, ofTokensAfter]
    split_ifs
    · refine ih ?_
      rw [Trivia.push, Trivia.push, h]
    · exact ⟨⟨rfl, h, rfl⟩, rfl⟩

end Lexeme

namespace Token

/-! ### A text behind a line break -/

/-- A blank piece: spaces from a character on. -/
def blankPiece (c : Char) (more : List Char) : Piece := ⟨.blank, c, more⟩

/-- Blank space is one piece, up to where it ends. -/
private theorem pieces_cons_of_isSpace {c : Char} (h : isSpace c = true) (cs : List Char) :
    pieces (c :: cs) = blankPiece c (cs.takeWhile isSpace) :: pieces (cs.dropWhile isSpace) := by
  have hpiece : pieceAt c cs = blankPiece c (cs.takeWhile isSpace) := by
    rw [pieceAt, if_pos h]
    rfl
  have hdrop : cs.drop (cs.takeWhile isSpace).length = cs.dropWhile isSpace := by
    have hboth := congrArg (List.drop (cs.takeWhile isSpace).length)
      (List.takeWhile_append_dropWhile (p := isSpace) (l := cs))
    rw [List.drop_left] at hboth
    exact hboth.symm
  rw [pieces_cons, hpiece]
  exact congrArg _ (congrArg pieces hdrop)

/-- The tokens of a text: at most a blank one, and those behind the blank space that it begins
with. -/
private theorem exists_ofChars_eq (cs : List Char) :
    ∃ blanks : List Token, (∀ t ∈ blanks, t.kind = .blank) ∧ ofChars cs = blanks ++
      place (Text.byteLength (cs.takeWhile isSpace))
        (joinUnexpected (pieces (cs.dropWhile isSpace))) := by
  by_cases hspace : ∃ c ds, cs = c :: ds ∧ isSpace c = true
  · obtain ⟨c, ds, rfl, hc⟩ := hspace
    refine ⟨[⟨.blank, String.ofList (c :: ds.takeWhile isSpace),
      ⟨0, 0 + Text.byteLength (c :: ds.takeWhile isSpace)⟩⟩], by simp, ?_⟩
    rw [ofChars, pieces_cons_of_isSpace hc, joinUnexpected_cons_of_ne Kind.noConfusion, place,
      List.takeWhile_cons_of_pos hc, List.dropWhile_cons_of_pos hc]
    simp only [blankPiece, Piece.chars, Nat.zero_add, List.singleton_append]
  · have hnone : cs.takeWhile isSpace = [] ∧ cs.dropWhile isSpace = cs := by
      cases cs with
      | nil => exact ⟨rfl, rfl⟩
      | cons c ds =>
        have hc : ¬ isSpace c = true := fun hc => hspace ⟨c, ds, rfl, hc⟩
        exact ⟨List.takeWhile_cons_of_neg hc, List.dropWhile_cons_of_neg hc⟩
    refine ⟨[], by simp, ?_⟩
    rw [hnone.1, hnone.2]
    rfl

/-- Behind a semicolon and a line break stand the tokens of a text, further on. Only the blank space
that it begins with becomes part of the line break. -/
private theorem exists_scan_append {first : String}
    (h : (scan first).getLast?.map Token.kind = some .semicolon) (second : String) :
    ∃ (line : Token) (blanks ts : List Token), line.kind = .blank ∧
      (∀ t ∈ blanks, t.kind = .blank) ∧ scan second = blanks ++ ts ∧
      scan (first ++ "\n" ++ second) =
        scan first ++ line :: ts.map (Token.moved (Text.byteLength first.toList + 1)) := by
  obtain ⟨blanks, hblanks, hsecond⟩ := exists_ofChars_eq second.toList
  obtain ⟨spaces, hspaces⟩ : ∃ spaces, second.toList.takeWhile isSpace = spaces := ⟨_, rfl⟩
  obtain ⟨ps, hps⟩ : ∃ ps, joinUnexpected (pieces (second.toList.dropWhile isSpace)) = ps :=
    ⟨_, rfl⟩
  rw [hspaces, hps] at hsecond
  have hchars : (first ++ "\n" ++ second).toList = first.toList ++ '\n' :: second.toList := by
    simp
  -- The line break joins the blanks that the second text begins with.
  have hbehind : joinUnexpected (pieces ('\n' :: second.toList)) =
      blankPiece '\n' spaces :: ps := by
    rw [pieces_cons_of_isSpace rfl, joinUnexpected_cons_of_ne Kind.noConfusion, hspaces, hps]
  have hbytes : Text.byteLength first.toList + Text.byteLength (blankPiece '\n' spaces).chars =
      Text.byteLength spaces + (Text.byteLength first.toList + 1) := by
    have hline : Text.byteLength ['\n'] = 1 := by decide
    have hcons := Text.byteLength_append ['\n'] spaces
    rw [hline] at hcons
    change _ + Text.byteLength (['\n'] ++ spaces) = _
    omega
  refine ⟨⟨.blank, String.ofList (blankPiece '\n' spaces).chars, ⟨Text.byteLength first.toList,
    Text.byteLength spaces + (Text.byteLength first.toList + 1)⟩⟩, blanks, _, rfl, hblanks,
    hsecond, ?_⟩
  rw [scan, hchars, ofChars_append h, hbehind, place, hbytes, place_add]
  rfl

end Token

namespace Lexeme

/-- Blank space has no comments. -/
private theorem ofTokensAfter_blanks {blanks : List Token} (h : ∀ t ∈ blanks, t.kind = .blank)
    (before : Trivia) (ts : List Token) :
    ∃ before', before'.comments = before.comments ∧
      ofTokensAfter before (blanks ++ ts) = ofTokensAfter before' ts := by
  induction blanks generalizing before with
  | nil => exact ⟨before, rfl, rfl⟩
  | cons t blanks ih =>
    have hkind : t.kind = .blank := h t List.mem_cons_self
    obtain ⟨before', hcomments, hlexemes⟩ :=
      ih (fun u hu => h u (List.mem_cons_of_mem t hu)) (before.push t)
    refine ⟨before', ?_, ?_⟩
    · rw [hcomments, Trivia.push, Comment.ofToken?, hkind]
      exact List.append_nil _
    · have htrivia : t.kind.isTrivia = true := by
        rw [hkind]
        rfl
      rw [List.cons_append, ofTokensAfter, if_pos htrivia, hlexemes]

/-- **A text on a line of its own behind a semicolon has its own lexemes, further on.** -/
theorem exists_ofTokens_append {first : String}
    (h : (Token.scan first).getLast?.map Token.kind = some .semicolon) (second : String) :
    ∃ lexemes after,
      ofTokens (Token.scan (first ++ "\n" ++ second)) =
        ((ofTokens (Token.scan first)).1 ++ lexemes, after) ∧
      SameButStart ((ofTokens (Token.scan second)).1.map
        (moved (Text.byteLength first.toList + 1))) lexemes ∧
      after.comments = (ofTokens (Token.scan second)).2.comments.map
        (Comment.moved (Text.byteLength first.toList + 1)) := by
  obtain ⟨n, hn⟩ : ∃ n, Text.byteLength first.toList + 1 = n := ⟨_, rfl⟩
  obtain ⟨line, blanks, ts, hline, hblanks, hsecond, hscan⟩ := Token.exists_scan_append h second
  rw [hn] at hscan ⊢
  -- The lexemes of both are those of the same tokens, behind trivia without a comment.
  obtain ⟨before, hbefore, hlexemes⟩ := ofTokensAfter_blanks hblanks Trivia.none ts
  have hlines : ∀ t ∈ [line], t.kind = .blank := by simpa using hline
  obtain ⟨before', hbefore', hlexemes'⟩ :=
    ofTokensAfter_blanks hlines Trivia.none (ts.map (Token.moved n))
  have hcomments : before'.comments = (before.moved n).comments := by
    rw [hbefore', Trivia.moved, hbefore]
    rfl
  have hsame := sameButStart_ofTokensAfter hcomments (ts.map (Token.moved n))
  rw [ofTokensAfter_moved, ← hlexemes, ← hsecond] at hsame
  refine ⟨_, _, ?_, hsame.1, hsame.2⟩
  rw [ofTokens, hscan, ofTokensAfter_append, ofTokensAfter_snd_of_getLast? h rfl,
    ← List.singleton_append, hlexemes']
  rfl

end Lexeme

end Reifier
