import Reifier.Proofs.Text.Quoted

/-!
# Splitting a text piece by piece

`p.Before rest` says that the piece `p` is the one that is taken from a text which begins with its
characters and goes on with `rest`. A text put together from pieces, each of which is taken before
what follows it, splits into these pieces again (`pieces_chars_append`). The quoted form of a string
is such a piece, whatever follows.
-/

namespace Reifier.Token

/-- The piece at the front of a text is `p`, if the text begins with its characters and goes on with
`rest`. -/
def Piece.Before (p : Piece) (rest : List Char) : Prop := pieceAt p.first (p.more ++ rest) = p

/-- Characters that the piece before has taken are passed over. -/
private theorem piecesAfter_append (taken rest : List Char) :
    piecesAfter taken.length (taken ++ rest) = pieces rest := by
  induction taken with
  | nil => rfl
  | cons c cs ih => exact ih

/-- A piece that is taken before what follows it is the first piece of the text. -/
theorem pieces_chars_append {p : Piece} {rest : List Char} (h : p.Before rest) :
    pieces (p.chars ++ rest) = p :: pieces rest := by
  have hstep : pieces (p.chars ++ rest) = pieceAt p.first (p.more ++ rest) ::
      piecesAfter (pieceAt p.first (p.more ++ rest)).more.length (p.more ++ rest) := rfl
  rw [hstep, h, piecesAfter_append]

theorem pieces_nil : pieces [] = [] := rfl

/-- The five blank characters. -/
theorem isSpace_cases {c : Char} (h : isSpace c = true) :
    c = ' ' ∨ c = '\t' ∨ c = '\r' ∨ c = '\n' ∨ c = '\x0c' := by
  simpa [isSpace, or_assoc] using h

/-- Pieces that all mean something are not joined. -/
theorem joinUnexpected_of_expected {ps : List Piece} (h : ∀ p ∈ ps, p.kind ≠ .unexpected) :
    joinUnexpected ps = ps := by
  induction ps with
  | nil => rfl
  | cons p ps ih =>
    rw [joinUnexpected, ih fun q hq => h q (List.mem_cons_of_mem p hq)]
    cases ps with
    | nil => rfl
    | cons q qs => exact if_neg fun hboth => h p List.mem_cons_self hboth.1

/-! ### Quoted strings -/

/-- The piece that the quoted form of a string is. -/
def quotedPiece (cs : List Char) : Piece :=
  ⟨.string, '\'', cs.flatMap Text.Quoted.escape ++ ['\'']⟩

/-- The quoted form of a string is one piece, whatever follows it. -/
theorem quotedPiece_before (cs rest : List Char) : (quotedPiece cs).Before rest := by
  have hrun := stringRun_flatMap_escape cs rest
  have hmore : (quotedPiece cs).more ++ rest =
      cs.flatMap Text.Quoted.escape ++ '\'' :: rest := by
    rw [quotedPiece, List.append_assoc]
    rfl
  have hpiece : pieceAt '\'' ((quotedPiece cs).more ++ rest) =
      (stringRun '\'' ((quotedPiece cs).more ++ rest)).piece .string '\'' := rfl
  have hfirst : (quotedPiece cs).first = '\'' := rfl
  rw [Piece.Before, hfirst, hpiece, hmore, hrun]
  rfl

/-- **A string that is written reads back.** What is written for any string is a single string token
over the whole text, and this token denotes the string. -/
theorem scan_quote (s : String) :
    scan (Text.quote s) =
        [⟨.string, Text.quote s, ⟨0, Text.byteLength (Text.quote s).toList⟩⟩] ∧
      Text.unquote (Text.quote s) = s := by
  have hchars : (Text.quote s).toList = (quotedPiece s.toList).chars := String.toList_ofList
  have hpieces : pieces (Text.quote s).toList = [quotedPiece s.toList] := by
    rw [hchars, ← List.append_nil (quotedPiece s.toList).chars,
      pieces_chars_append (quotedPiece_before s.toList []), pieces_nil]
  constructor
  · have hplain : ∀ p ∈ [quotedPiece s.toList], p.kind ≠ .unexpected := by
      intro p hp
      rw [List.mem_singleton.mp hp]
      exact Kind.noConfusion
    rw [scan, ofChars, hpieces, joinUnexpected_of_expected hplain, hchars]
    simp only [place, Nat.zero_add, ← hchars, String.ofList_toList]
    rfl
  · exact Text.unquote_quote s

end Reifier.Token
