import Mathlib.Tactic
import Reifier.Proofs.Name
import Reifier.Token.Lexer

/-!
# Numbers in front of other text

A number takes as many characters as it can. If it has taken a whole text, it takes the same
characters when something follows that begins with neither a letter nor a digit nor a point
(`numberPiece_append`).
-/

namespace Reifier.Token

/-! ### Runs that stop -/

section Stop

variable {p : Char → Bool} {rest : List Char}

/-- What stops a run behind a text does not change what is taken of the text. -/
theorem takeWhile_append_stop (h : ∀ d ∈ rest.head?, p d = false) (cs : List Char) :
    (cs ++ rest).takeWhile p = cs.takeWhile p := by
  induction cs with
  | nil =>
    cases rest with
    | nil => rfl
    | cons d rest => simp [h d rfl]
  | cons c cs ih => rw [List.cons_append, List.takeWhile_cons, List.takeWhile_cons, ih]

/-- What stops a run behind a text stays behind what is left of the text. -/
theorem dropWhile_append_stop (h : ∀ d ∈ rest.head?, p d = false) (cs : List Char) :
    (cs ++ rest).dropWhile p = cs.dropWhile p ++ rest := by
  induction cs with
  | nil =>
    cases rest with
    | nil => rfl
    | cons d rest => simp [h d rfl]
  | cons c cs ih =>
    rw [List.cons_append, List.dropWhile_cons, List.dropWhile_cons, ih]
    split <;> rfl

/-- A run ends where a character stops it. -/
theorem takeWhile_append_eq (h : ∀ d ∈ rest.head?, p d = false) {cs : List Char}
    (hcs : ∀ d ∈ cs, p d = true) : (cs ++ rest).takeWhile p = cs := by
  have hrest := takeWhile_append_stop h []
  rw [List.nil_append, List.takeWhile_nil] at hrest
  rw [List.takeWhile_append_of_pos hcs, hrest, List.append_nil]

/-- A run that is a whole text leaves what stops it. -/
theorem dropWhile_append_eq (h : ∀ d ∈ rest.head?, p d = false) {cs : List Char}
    (hcs : ∀ d ∈ cs, p d = true) : (cs ++ rest).dropWhile p = rest := by
  rw [List.dropWhile_append_of_pos hcs]
  exact dropWhile_append_stop h []

end Stop

/-! ### Characters that no number goes on with -/

/-- A hexadecimal digit may stand in a name. -/
private theorem isPart_of_hexDigit {c : Char} (h : Hex.isDigit c = true) :
    Name.isPart c = true := by
  unfold Hex.isDigit Hex.digit? at h
  dsimp only at h
  split_ifs at h with hdigit hupper hlower
  · exact Name.isPart_of_isDigit (Name.isDigit_iff.mpr hdigit)
  · have hletter := Name.isAlpha_iff.mpr (.inl ⟨hupper.1, hupper.2.trans (by decide)⟩)
    exact Name.isPart_of_isAlpha hletter
  · have hletter := Name.isAlpha_iff.mpr (.inr ⟨hlower.1, hlower.2.trans (by decide)⟩)
    exact Name.isPart_of_isAlpha hletter
  · cases h

/-- A text that does not go on with a number: it begins with neither a part of a name nor a
point. -/
def StopsNumber (rest : List Char) : Prop := ∀ d ∈ rest.head?, Name.isPart d = false ∧ d ≠ '.'

namespace StopsNumber

variable {rest : List Char}

theorem digit (h : StopsNumber rest) : ∀ d ∈ rest.head?, d.isDigit = false := fun d hd =>
  Bool.eq_false_iff.mpr fun hdigit =>
    absurd (Name.isPart_of_isDigit hdigit) (Bool.eq_false_iff.mp (h d hd).1)

private theorem hexDigit (h : StopsNumber rest) :
    ∀ d ∈ rest.head?, Hex.isDigit d = false := fun d hd =>
  Bool.eq_false_iff.mpr fun hdigit =>
    absurd (isPart_of_hexDigit hdigit) (Bool.eq_false_iff.mp (h d hd).1)

/-- A letter does not begin the text. -/
private theorem ne (h : StopsNumber rest) {letter : Char} (hletter : Name.isPart letter = true) :
    ∀ d ∈ rest.head?, d ≠ letter := by
  rintro d hd rfl
  exact absurd hletter (Bool.eq_false_iff.mp (h d hd).1)

end StopsNumber

/-! ### The parts of a number -/

variable {rest : List Char}

/-- A fraction begins with a point. -/
theorem fractionPart_of_ne {c : Char} (hc : c ≠ '.') (cs : List Char) :
    fractionPart (c :: cs) = [] := by
  rw [fractionPart.eq_def]
  split
  · rename_i heq
    cases heq
    exact absurd rfl hc
  · rfl

/-- A fraction ends where a number does. -/
theorem fractionPart_append (h : StopsNumber rest) (cs : List Char) :
    fractionPart (cs ++ rest) = fractionPart cs := by
  cases cs with
  | nil =>
    cases rest with
    | nil => rfl
    | cons d rest => exact fractionPart_of_ne (h d rfl).2 rest
  | cons c cs =>
    by_cases hc : c = '.'
    · subst hc
      simp only [List.cons_append, fractionPart, takeWhile_append_stop h.digit]
    · rw [List.cons_append, fractionPart_of_ne hc, fractionPart_of_ne hc]

theorem exponentPart_of_not {e : Char} (he : ¬(e = 'e' ∨ e = 'E')) (cs : List Char) :
    exponentPart (e :: cs) = [] := by
  rw [exponentPart.eq_def]
  exact if_neg he

/-- A whole exponent stays one in front of what stops a number. Its last character is a digit, so it
is not taken up again. -/
theorem exponentPart_append (h : StopsNumber rest) {cs : List Char} (hcs : exponentPart cs = cs) :
    exponentPart (cs ++ rest) = cs := by
  cases cs with
  | nil =>
    cases rest with
    | nil => rfl
    | cons d rest =>
      exact exponentPart_of_not (not_or.mpr ⟨h.ne (by decide) d rfl, h.ne (by decide) d rfl⟩) rest
  | cons e cs =>
    by_cases hletter : e = 'e' ∨ e = 'E'
    · cases cs with
      | nil =>
        simp only [exponentPart, if_pos hletter] at hcs
        cases hcs
      | cons s cs =>
        simp only [exponentPart, List.cons_append, if_pos hletter] at hcs ⊢
        split_ifs at hcs ⊢ with hsign
        · rwa [takeWhile_append_stop h.digit]
        · rwa [← List.cons_append, takeWhile_append_stop h.digit]
    · rw [exponentPart_of_not hletter] at hcs
      cases hcs

/-- The digits behind a hexadecimal mark end where a number does. -/
theorem hexPart_append (h : StopsNumber rest) (c : Char) (cs : List Char) :
    hexPart c (cs ++ rest) = hexPart c cs := by
  cases cs with
  | nil =>
    cases rest with
    | nil => rfl
    | cons d rest =>
      have hletter : ¬(c = '0' ∧ (d = 'x' ∨ d = 'X')) := fun hboth =>
        hboth.2.elim (h.ne (by decide) d rfl) (h.ne (by decide) d rfl)
      exact if_neg hletter
  | cons x cs => simp only [List.cons_append, hexPart, takeWhile_append_stop h.hexDigit]

/-- What stops a number does not begin with the letter of a big one. -/
theorem head?_append_eq_letter_iff (h : StopsNumber rest) (tail : List Char) :
    (tail ++ rest).head? = some 'n' ↔ tail.head? = some 'n' := by
  cases tail with
  | nil => simpa using fun hn => h.ne (by decide) 'n' hn rfl
  | cons d tail => rfl

/-- An exponent behind a fraction, which together take a whole text, is the same when something
follows that stops it. -/
private theorem exponentPart_drop_append (h : StopsNumber rest) {cs : List Char}
    (hcs : fractionPart cs ++ exponentPart (cs.drop (fractionPart cs).length) = cs) :
    exponentPart ((cs ++ rest).drop (fractionPart cs).length) =
      exponentPart (cs.drop (fractionPart cs).length) := by
  have hlength : (fractionPart cs).length ≤ cs.length := by
    conv_rhs => rw [← hcs]
    rw [List.length_append]
    exact Nat.le_add_right _ _
  have hexponent : exponentPart (cs.drop (fractionPart cs).length) =
      cs.drop (fractionPart cs).length := by
    have hdropped := congrArg (List.drop (fractionPart cs).length) hcs
    rwa [List.drop_left] at hdropped
  rw [List.drop_append_of_le_length hlength, exponentPart_append h hexponent, hexponent]

/-- A number that has taken a whole text takes the same when something follows that stops it. -/
theorem numberPiece_append (h : StopsNumber rest) {kind : Kind} {c : Char} {cs : List Char}
    (hcs : numberPiece c cs = ⟨kind, c, cs⟩) : numberPiece c (cs ++ rest) = ⟨kind, c, cs⟩ := by
  have htake := takeWhile_append_stop h.digit cs
  have hdrop := dropWhile_append_stop h.digit cs
  unfold numberPiece at hcs ⊢
  simp only [hexPart_append h, htake, hdrop, head?_append_eq_letter_iff h] at hcs ⊢
  by_cases hhex : (hexPart c cs).isEmpty = true
  · rw [if_pos hhex] at hcs ⊢
    obtain ⟨tail, htail⟩ : ∃ tail, cs.dropWhile Char.isDigit = tail := ⟨_, rfl⟩
    rw [htail] at hcs ⊢
    by_cases hn : tail.head? = some 'n'
    · rw [if_pos hn] at hcs ⊢
      exact hcs
    · rw [if_neg hn] at hcs ⊢
      -- The fraction and the exponent take all that is left after the digits.
      have hall :
          fractionPart tail ++ exponentPart (tail.drop (fractionPart tail).length) = tail := by
        have hmore := congrArg Piece.more hcs
        have hsplit := List.takeWhile_append_dropWhile (p := Char.isDigit) (l := cs)
        rw [htail] at hsplit
        rw [List.append_assoc] at hmore
        exact List.append_cancel_left (hmore.trans hsplit.symm)
      rwa [fractionPart_append h, exponentPart_drop_append h hall]
  · rw [if_neg hhex] at hcs ⊢
    cases cs with
    | nil => exact absurd rfl hhex
    | cons x cs => exact hcs

end Reifier.Token
