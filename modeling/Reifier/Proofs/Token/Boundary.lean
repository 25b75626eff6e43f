import Reifier.Proofs.Token.Lookahead

/-!
# Texts that end in a semicolon

The pieces of a text take it up without a gap (`flatMap_chars_pieces`). How a text goes on can
change pieces before its end, since some need a closing mark and some look ahead. If the last piece
is a semicolon then nothing of this happens: no piece before it looks past it, so it splits the same
way whatever follows (`pieces_append`), and its tokens come before those of what follows
(`ofChars_append`).
-/

namespace Reifier.Token

/-! ### Splitting takes up the whole text -/

/-- Passing over characters is dropping them. -/
private theorem piecesAfter_eq_pieces_drop (skip : ℕ) (cs : List Char) :
    piecesAfter skip cs = pieces (cs.drop skip) := by
  induction cs generalizing skip with
  | nil =>
    rw [List.drop_nil]
    rfl
  | cons c cs ih =>
    cases skip with
    | zero => rfl
    | succ skip => exact ih skip

/-- The first piece is taken where the text begins, and the others behind it. -/
theorem pieces_cons (c : Char) (cs : List Char) :
    pieces (c :: cs) = pieceAt c cs :: pieces (cs.drop (pieceAt c cs).more.length) :=
  congrArg _ (piecesAfter_eq_pieces_drop _ cs)

/-- One piece is taken, and then the text behind it is split. -/
theorem exists_pieces_cons (c : Char) (cs : List Char) :
    ∃ behind, (pieceAt c cs).more ++ behind = cs ∧
      pieces (c :: cs) = pieceAt c cs :: pieces behind := by
  obtain ⟨behind, hbehind⟩ := (pieceAt_isPrefix c cs).2
  refine ⟨behind, hbehind, ?_⟩
  have hdrop := congrArg (List.drop (pieceAt c cs).more.length) hbehind
  rw [List.drop_left] at hdrop
  rw [pieces_cons, hdrop]

/-- A piece and what is left behind it are the text. -/
theorem chars_pieceAt_append {c : Char} {cs behind : List Char}
    (hbehind : (pieceAt c cs).more ++ behind = cs) :
    (pieceAt c cs).chars ++ behind = c :: cs := by
  rw [Piece.chars, (pieceAt_isPrefix c cs).1, List.cons_append, hbehind]

/-- What holds of the empty text, and of a text if it holds of what the first piece leaves of it,
holds of all texts. -/
theorem pieces_induction {P : List Char → Prop} (nil : P [])
    (cons : ∀ c cs behind, (pieceAt c cs).more ++ behind = cs →
      pieces (c :: cs) = pieceAt c cs :: pieces behind → P behind → P (c :: cs)) (cs : List Char) :
    P cs := by
  induction hlength : cs.length using Nat.strong_induction_on generalizing cs with
  | _ n ih =>
    cases cs with
    | nil => exact nil
    | cons c cs =>
      obtain ⟨behind, hbehind, hsplit⟩ := exists_pieces_cons c cs
      have hlt : behind.length < n := by
        rw [← hlength, ← hbehind, List.length_cons, List.length_append]
        omega
      exact cons c cs behind hbehind hsplit (ih behind.length hlt behind rfl)

/-- **The pieces of a text, one after another, are the text.** -/
theorem flatMap_chars_pieces (cs : List Char) : (pieces cs).flatMap Piece.chars = cs := by
  induction cs using pieces_induction with
  | nil => rfl
  | cons c cs behind hbehind hsplit ih =>
    rw [hsplit, List.flatMap_cons, ih, chars_pieceAt_append hbehind]

/-! ### How a piece of a kind is taken -/

/-- How a piece of a kind has been taken from a text that goes on with `cs` behind its first
character. -/
def Kind.Takes (kind : Kind) (c : Char) (more cs : List Char) : Prop :=
  match kind with
  | .blank => isSpace c = true ∧ more = cs.takeWhile isSpace
  | .lineComment => c = '/' ∧ ∃ ds, cs = '/' :: ds ∧ more = '/' :: ds.takeWhile (· ≠ '\n')
  | .identifier | .number | .bigInt | .string | .template | .blockComment | .unexpected => True
  | kind => (kind, c, more) ∈ punctuation

/-- What is taken at the front of a text, by kind. The cases are those of the lexer. -/
theorem takes_pieceAt (c : Char) (cs : List Char) :
    (pieceAt c cs).kind.Takes c (pieceAt c cs).more cs := by
  -- Nothing is asked of a run that is not closed.
  have hrun : ∀ (run : Run) (kind : Kind) (c : Char), kind.Takes c run.taken cs →
      (run.piece kind c).kind.Takes c (run.piece kind c).more cs := by
    intro run kind c h
    unfold Run.piece
    cases run.closed with
    | true => exact h
    | false => trivial
  unfold pieceAt
  split_ifs with hspace hstart hdigit hquote htemplate hslash
  · exact ⟨hspace, rfl⟩
  · trivial
  · unfold numberPiece
    dsimp only
    split_ifs <;> trivial
  · exact hrun _ _ _ trivial
  · exact hrun _ _ _ trivial
  · subst hslash
    unfold slashPiece
    split
    · exact ⟨rfl, _, rfl, rfl⟩
    · exact hrun _ _ _ trivial
    · trivial
  · have hsigns : ∀ e ∈ punctuation, e.1.Takes e.2.1 e.2.2 cs := by
      simp [punctuation, Kind.Takes]
    cases hpiece : punctuationPiece? c cs with
    | none => trivial
    | some p =>
      obtain ⟨e, he, rfl, rfl, -⟩ := exists_of_punctuationPiece? hpiece
      exact hsigns e he

/-! ### Texts that go on behind a semicolon -/

/-- A piece that stops in front of a semicolon is taken whatever follows that semicolon. -/
private theorem pieceAt_append_of_lt (c : Char) {cs : List Char}
    (h : (pieceAt c (cs ++ [';'])).more.length ≤ cs.length) (rest : List Char) :
    pieceAt c (cs ++ ';' :: rest) = pieceAt c (cs ++ [';']) := by
  cases hspace : isSpace c with
  | true =>
    have hrun : ∀ R : List Char, (cs ++ ';' :: R).takeWhile isSpace = cs.takeWhile isSpace :=
      fun R => takeWhile_append_stop (by simp [isSpace]) cs
    unfold pieceAt
    rw [if_pos hspace, if_pos hspace, hrun, hrun]
  | false => exact pieceAt_append_alike hspace (.same (by decide) [] rest) h

/-- The piece that a semicolon is. -/
def semicolonPiece : Piece := ⟨.semicolon, ';', []⟩

/-- Nothing but a semicolon is a piece of its kind. -/
private theorem pieceAt_eq_semicolonPiece {c : Char} {cs : List Char}
    (h : (pieceAt c cs).kind = .semicolon) : pieceAt c cs = semicolonPiece := by
  have htakes := takes_pieceAt c cs
  have hfirst := (pieceAt_isPrefix c cs).1
  generalize pieceAt c cs = p at h htakes hfirst ⊢
  obtain ⟨kind, first, more⟩ := p
  dsimp only at h htakes hfirst
  subst h hfirst
  obtain ⟨rfl, rfl⟩ : first = ';' ∧ more = [] := by simpa [Kind.Takes, punctuation] using htakes
  rfl

private theorem pieces_semicolon_cons (rest : List Char) :
    pieces (';' :: rest) = semicolonPiece :: pieces rest := by
  rw [pieces_cons]
  rfl

private theorem pieces_eq_nil_iff {cs : List Char} : pieces cs = [] ↔ cs = [] := by
  cases cs with
  | nil => simp [pieces_nil]
  | cons c cs => simp [pieces_cons]

/-- A piece with a semicolon at the end of what stands behind it is taken whatever follows. -/
private theorem pieceAt_append_of_getLast? {c : Char} {cs behind : List Char}
    (hbehind : (pieceAt c cs).more ++ behind = cs)
    (hlast : (pieces behind).getLast? = some semicolonPiece) (rest : List Char) :
    pieceAt c (cs ++ rest) = pieceAt c cs := by
  obtain ⟨front, hfront⟩ := List.getLast?_eq_some_iff.mp hlast
  have hends : behind = front.flatMap Piece.chars ++ [';'] := by
    rw [← flatMap_chars_pieces behind, hfront, List.flatMap_append]
    rfl
  obtain ⟨es, hes, hle⟩ : ∃ es, cs = es ++ [';'] ∧ (pieceAt c cs).more.length ≤ es.length := by
    refine ⟨(pieceAt c cs).more ++ front.flatMap Piece.chars, ?_, ?_⟩
    · rw [List.append_assoc, ← hends, hbehind]
    · rw [List.length_append]
      exact Nat.le_add_right _ _
  rw [hes] at hle
  rw [hes, List.append_assoc]
  exact pieceAt_append_of_lt c hle rest

/-- **A text that ends in a semicolon splits the same way whatever follows it.** -/
theorem pieces_append {cs : List Char} (h : (pieces cs).getLast? = some semicolonPiece)
    (rest : List Char) : pieces (cs ++ rest) = pieces cs ++ pieces rest := by
  induction cs using pieces_induction with
  | nil => rfl
  | cons c cs behind hbehind hsplit ih =>
    rw [hsplit] at h ⊢
    by_cases hlast : behind = []
    · -- The piece is the last one, so it is the semicolon.
      subst hlast
      have hpiece : pieceAt c cs = semicolonPiece := Option.some.inj h
      have hfirst := (pieceAt_isPrefix c cs).1
      rw [hpiece] at hbehind hfirst ⊢
      subst hbehind
      subst hfirst
      exact pieces_semicolon_cons rest
    · -- The semicolon stands behind the piece.
      obtain ⟨p, ps, hps⟩ := List.exists_cons_of_ne_nil (mt pieces_eq_nil_iff.mp hlast)
      have hbehindLast : (pieces behind).getLast? = some semicolonPiece := by
        rwa [hps, List.getLast?_cons_cons, ← hps] at h
      have hpiece := pieceAt_append_of_getLast? hbehind hbehindLast rest
      have hdrop : (cs ++ rest).drop (pieceAt c cs).more.length = behind ++ rest := by
        have hboth := congrArg (fun ds => (ds ++ rest).drop (pieceAt c cs).more.length) hbehind
        rw [List.append_assoc, List.drop_left] at hboth
        exact hboth.symm
      rw [List.cons_append, pieces_cons, hpiece, hdrop, ih hbehindLast, List.cons_append]

/-! ### Tokens -/

/-- A piece that means something is not joined to what follows. -/
theorem joinUnexpected_cons_of_ne {p : Piece} (h : p.kind ≠ .unexpected) (ps : List Piece) :
    joinUnexpected (p :: ps) = p :: joinUnexpected ps := by
  rw [joinUnexpected]
  split
  · rename_i hnil
    rw [hnil]
  · rename_i q qs hcons
    rw [hcons, if_neg fun hboth => h hboth.1]

private theorem joinUnexpected_cons_ne_nil (p : Piece) (ps : List Piece) :
    joinUnexpected (p :: ps) ≠ [] := by
  rw [joinUnexpected]
  split
  · exact List.cons_ne_nil _ _
  · split_ifs <;> exact List.cons_ne_nil _ _

/-- Joining stops at a piece that means something. -/
private theorem joinUnexpected_append {p : Piece} (h : p.kind ≠ .unexpected) (ps qs : List Piece) :
    joinUnexpected (ps ++ p :: qs) = joinUnexpected (ps ++ [p]) ++ joinUnexpected qs := by
  induction ps with
  | nil =>
    rw [List.nil_append, List.nil_append, joinUnexpected_cons_of_ne h, joinUnexpected_cons_of_ne h]
    rfl
  | cons q ps ih =>
    have hne : joinUnexpected (ps ++ [p]) ≠ [] := by
      cases ps <;> exact joinUnexpected_cons_ne_nil _ _
    obtain ⟨r, rs, hrs⟩ := List.exists_cons_of_ne_nil hne
    rw [List.cons_append, List.cons_append, joinUnexpected, joinUnexpected, ih, hrs,
      List.cons_append]
    dsimp only
    split_ifs <;> rfl

/-- Behind a semicolon nothing is joined to what stands before it. -/
theorem joinUnexpected_pieces_append {cs : List Char}
    (h : (pieces cs).getLast? = some semicolonPiece) (ps : List Piece) :
    joinUnexpected (pieces cs ++ ps) = joinUnexpected (pieces cs) ++ joinUnexpected ps := by
  obtain ⟨front, hfront⟩ := List.getLast?_eq_some_iff.mp h
  rw [hfront, List.append_assoc]
  exact joinUnexpected_append Kind.noConfusion front ps

/-- Joining keeps the characters. -/
theorem flatMap_chars_joinUnexpected (ps : List Piece) :
    (joinUnexpected ps).flatMap Piece.chars = ps.flatMap Piece.chars := by
  induction ps with
  | nil => rfl
  | cons p ps ih =>
    rw [joinUnexpected, List.flatMap_cons, ← ih]
    split
    · rename_i hnil
      rw [hnil]
      rfl
    · rename_i q qs hcons
      rw [hcons]
      split_ifs
      · simp [Piece.chars]
      · rfl

/-- The last piece keeps its kind. -/
private theorem getLast?_kind_joinUnexpected (ps : List Piece) :
    (joinUnexpected ps).getLast?.map Piece.kind = ps.getLast?.map Piece.kind := by
  induction ps with
  | nil => rfl
  | cons p ps ih =>
    cases ps with
    | nil => rfl
    | cons q ps =>
      rw [List.getLast?_cons_cons, ← ih, joinUnexpected]
      obtain ⟨r, rs, hrs⟩ := List.exists_cons_of_ne_nil (joinUnexpected_cons_ne_nil q ps)
      rw [hrs]
      dsimp only
      split_ifs with hboth
      · cases rs with
        | nil => simp [hboth.2]
        | cons s rs => simp
      · rw [List.getLast?_cons_cons]

/-- Pieces behind others have their places behind those of the others. -/
private theorem place_append (offset : ℕ) (ps qs : List Piece) :
    place offset (ps ++ qs) =
      place offset ps ++ place (offset + Text.byteLength (ps.flatMap Piece.chars)) qs := by
  induction ps generalizing offset with
  | nil => rfl
  | cons p ps ih =>
    rw [List.cons_append, place, place, ih, List.flatMap_cons, Text.byteLength_append,
      Nat.add_assoc]
    rfl

/-- The last token has the kind of the last piece. -/
private theorem getLast?_kind_place (offset : ℕ) (ps : List Piece) :
    (place offset ps).getLast?.map Token.kind = ps.getLast?.map Piece.kind := by
  rcases List.eq_nil_or_concat ps with rfl | ⟨ps, p, rfl⟩
  · rfl
  · rw [List.concat_eq_append, place_append]
    simp [place]

/-- Every piece has been taken at some place of the text. -/
theorem exists_of_mem_piecesAfter {p : Piece} {skip : ℕ} {cs : List Char}
    (h : p ∈ piecesAfter skip cs) : ∃ c ds, p = pieceAt c ds := by
  induction cs generalizing skip with
  | nil => cases h
  | cons c cs ih =>
    cases skip with
    | succ skip => exact ih h
    | zero =>
      rcases List.mem_cons.mp h with rfl | h
      · exact ⟨c, cs, rfl⟩
      · exact ih h

/-- The last token is a semicolon exactly if the last piece is. -/
private theorem getLast?_pieces_of_ofChars {cs : List Char}
    (h : (ofChars cs).getLast?.map Token.kind = some .semicolon) :
    (pieces cs).getLast? = some semicolonPiece := by
  rw [ofChars, getLast?_kind_place, getLast?_kind_joinUnexpected] at h
  obtain ⟨p, hp, hkind⟩ := Option.map_eq_some_iff.mp h
  obtain ⟨c, ds, rfl⟩ := exists_of_mem_piecesAfter (List.mem_of_getLast? hp)
  rw [hp, pieceAt_eq_semicolonPiece hkind]

/-- **The tokens of a text that ends in a semicolon come before those of what follows.** -/
theorem ofChars_append {cs : List Char}
    (h : (ofChars cs).getLast?.map Token.kind = some .semicolon) (rest : List Char) :
    ofChars (cs ++ rest) =
      ofChars cs ++ place (Text.byteLength cs) (joinUnexpected (pieces rest)) := by
  have hlast := getLast?_pieces_of_ofChars h
  rw [ofChars, ofChars, pieces_append hlast, joinUnexpected_pieces_append hlast, place_append,
    Nat.zero_add, flatMap_chars_joinUnexpected, flatMap_chars_pieces]

end Reifier.Token
