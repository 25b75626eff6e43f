import Reifier.Proofs.Parser.Forward
import Reifier.Proofs.Token.Places

/-!
# The text of lexemes

The lexemes of a source, with what stands before each of them, are the source put together again
(`Lexeme.chars_of_ofTokens`). So a run of them has a text that can be read back from the source, at
the span from its first token to its last (`Lexeme.slice?_spanOf`).
-/

namespace Reifier

/-! ### Tokens without gaps -/

/-- Tokens that stand one behind the other without gaps, the first of them at `offset`. -/
def Token.Contiguous : ℕ → List Token → Prop
  | _, [] => True
  | offset, t :: ts =>
    t.span = ⟨offset, offset + Text.byteLength t.text.toList⟩ ∧ Contiguous t.span.stop ts

/-- Pieces get places one behind the other. -/
private theorem Token.contiguous_place (offset : ℕ) (ps : List Piece) :
    Contiguous offset (place offset ps) := by
  induction ps generalizing offset with
  | nil => trivial
  | cons p ps ih =>
    refine ⟨?_, ih _⟩
    rw [String.toList_ofList]

/-- The tokens of a source stand one behind the other from its beginning. -/
theorem Token.contiguous_scan (source : String) : Contiguous 0 (scan source) :=
  contiguous_place 0 _

/-- Tokens have the characters of the pieces that they are. -/
theorem Token.flatMap_text_place (offset : ℕ) (ps : List Piece) :
    (place offset ps).flatMap (·.text.toList) = ps.flatMap Piece.chars := by
  induction ps generalizing offset with
  | nil => rfl
  | cons p ps ih => rw [place, List.flatMap_cons, List.flatMap_cons, ih, String.toList_ofList]

/-- The tokens of a source put together give the source back. -/
theorem Token.flatMap_text_scan (source : String) :
    (scan source).flatMap (·.text.toList) = source.toList := by
  rw [scan, ofChars, flatMap_text_place, flatMap_chars_joinUnexpected, flatMap_chars_pieces]

namespace Lexeme

/-! ### The text of lexemes -/

/-- The characters of lexemes, with what stands before each of them. -/
def chars (ls : List Lexeme) : List Char :=
  ls.flatMap fun l => l.before.text.toList ++ l.token.text.toList

@[simp] theorem chars_nil : chars [] = [] := rfl

@[simp] theorem chars_cons (l : Lexeme) (ls : List Lexeme) :
    chars (l :: ls) = l.before.text.toList ++ l.token.text.toList ++ chars ls := rfl

@[simp] theorem chars_append (ls ms : List Lexeme) : chars (ls ++ ms) = chars ls ++ chars ms :=
  List.flatMap_append

/-- The text of lexemes begins with the first token, without the trivia before it. -/
theorem toList_textOf_cons (l : Lexeme) (ls : List Lexeme) :
    (textOf (l :: ls)).toList = l.token.text.toList ++ chars ls := by
  rw [textOf, String.toList_append]
  congr 1
  induction ls with
  | nil => rfl
  | cons m ls ih =>
    rw [List.map_cons, String.join_cons, String.toList_append, String.toList_append, ih, chars_cons]

/-- Lexemes and the trivia behind them have the characters of the tokens. -/
theorem chars_ofTokensAfter (before : Trivia) (ts : List Token) :
    chars (ofTokensAfter before ts).1 ++ (ofTokensAfter before ts).2.text.toList =
      before.text.toList ++ ts.flatMap (·.text.toList) := by
  induction ts generalizing before with
  | nil => simp [ofTokensAfter]
  | cons t ts ih =>
    rw [ofTokensAfter]
    split_ifs with htrivia
    · rw [ih]
      simp [Trivia.push]
    · have hrest := ih Trivia.none
      have hnone : Trivia.none.text.toList = [] := rfl
      rw [hnone, List.nil_append] at hrest
      simp [← hrest]

/-- **Lexemes are their source put together again**, with what stands behind the last of them. -/
theorem chars_of_ofTokens {source : String} {ls : List Lexeme} {after : Trivia}
    (h : ofTokens (Token.scan source) = (ls, after)) :
    chars ls ++ after.text.toList = source.toList := by
  have hall := chars_ofTokensAfter Trivia.none (Token.scan source)
  rw [← ofTokens, h, Token.flatMap_text_scan] at hall
  exact hall

/-! ### The place of lexemes -/

/-- Lexemes that stand one behind the other, with what is before the first of them at `offset`. -/
def Placed : ℕ → List Lexeme → Prop
  | _, [] => True
  | offset, l :: ls =>
    l.token.span = ⟨offset + Text.byteLength l.before.text.toList,
      offset + Text.byteLength (l.before.text.toList ++ l.token.text.toList)⟩ ∧
      Placed l.token.span.stop ls

/-- Lexemes made of tokens that stand one behind the other do so as well. -/
theorem placed_ofTokensAfter {before : Trivia} {ts : List Token} {offset : ℕ}
    (h : Token.Contiguous (offset + Text.byteLength before.text.toList) ts) :
    Placed offset (ofTokensAfter before ts).1 := by
  induction ts generalizing before offset with
  | nil => trivial
  | cons t ts ih =>
    obtain ⟨hspan, hts⟩ := h
    rw [ofTokensAfter]
    split_ifs with htrivia
    · refine ih ?_
      rw [hspan] at hts
      simpa [Trivia.push, Nat.add_assoc] using hts
    · refine ⟨?_, ih hts⟩
      rw [hspan, Text.byteLength_append, Nat.add_assoc]

private theorem placed_of_ofTokens {source : String} {ls : List Lexeme} {after : Trivia}
    (h : ofTokens (Token.scan source) = (ls, after)) : Placed 0 ls := by
  have hplaced : Placed 0 (ofTokensAfter Trivia.none (Token.scan source)).1 :=
    placed_ofTokensAfter (Token.contiguous_scan source)
  rwa [← ofTokens, h] at hplaced

/-- Lexemes behind others are placed behind them. -/
private theorem Placed.append_iff {offset : ℕ} {ls ms : List Lexeme} :
    Placed offset (ls ++ ms) ↔
      Placed offset ls ∧ Placed (offset + Text.byteLength (chars ls)) ms := by
  induction ls generalizing offset with
  | nil => simp [Placed]
  | cons l ls ih =>
    rw [List.cons_append, Placed, Placed, ih, and_assoc]
    refine and_congr_right fun hspan => ?_
    rw [hspan, chars_cons, Text.byteLength_append _ (chars ls), Nat.add_assoc]

/-- Lexemes end where their characters do. -/
private theorem Placed.lastStop {offset : ℕ} {ls : List Lexeme} (h : Placed offset ls) :
    lastStop ls offset = offset + Text.byteLength (chars ls) := by
  induction ls generalizing offset with
  | nil => rfl
  | cons l ls ih =>
    rw [lastStop_cons, ih h.2, h.1, chars_cons, Text.byteLength_append _ (chars ls), Nat.add_assoc]

/-- The span of a run is where its text is. -/
theorem Placed.spanOf {offset : ℕ} {l : Lexeme} {run : List Lexeme} (h : Placed offset (l :: run)) :
    Lexeme.spanOf (l :: run) = ⟨offset + Text.byteLength l.before.text.toList,
      offset + Text.byteLength l.before.text.toList +
        Text.byteLength (textOf (l :: run)).toList⟩ := by
  obtain ⟨hspan, hrun⟩ := h
  rw [Lexeme.spanOf, hrun.lastStop, toList_textOf_cons, hspan]
  simp only [Text.byteLength_append, Span.mk.injEq, true_and]
  omega

/-- **A run of lexemes reads back from its source.** -/
theorem slice?_spanOf {source : String} {front run back : List Lexeme} {l : Lexeme} {after : Trivia}
    (h : ofTokens (Token.scan source) = (front ++ (l :: run) ++ back, after)) :
    Text.slice? source.toList (spanOf (l :: run)) = some (textOf (l :: run)).toList := by
  have hchars := chars_of_ofTokens h
  obtain ⟨-, hrun⟩ := Placed.append_iff.mp (Placed.append_iff.mp (placed_of_ofTokens h)).1
  have hsource : source.toList = (chars front ++ l.before.text.toList) ++
      (textOf (l :: run)).toList ++ (chars back ++ after.text.toList) := by
    rw [← hchars, toList_textOf_cons]
    simp
  rw [hrun.spanOf, hsource, Nat.zero_add, ← Text.byteLength_append, Text.slice?_append]

end Lexeme

end Reifier
