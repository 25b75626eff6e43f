import Reifier.Program.Printer
import Reifier.Proofs.Token.Lexing

/-!
# Plain text

A plain text is made of blank space, characters of names and numbers, signs, and strings that have
been written in quotes. It has no unexpected pieces and nothing that needs a closing mark, so a
semicolon at its end is a token (`Plain.getLast?_pieces`), and indenting its lines changes no word
(`Plain.wordsOf_reindent`).
-/

namespace Reifier.Token

open Text.Quoted (encode escape)

/-- Whether a character may stand in a plain text outside strings. -/
def plain (c : Char) : Bool := isSpace c || Name.isPart c || punctuation.any (·.2.1 = c)

/-- A text of plain characters and strings in quotes. -/
inductive Plain : List Char → Prop
  | nil : Plain []
  | cons {c : Char} {cs : List Char} (hc : plain c = true) (hcs : Plain cs) : Plain (c :: cs)
  | quoted (s : List Char) {cs : List Char} (hcs : Plain cs) : Plain (encode s ++ cs)

/-- A character that only strings and comments go past. -/
structure Bars (d : Char) : Prop where
  stops : stops d = true
  signs : ∀ e ∈ punctuation, d ∉ e.2.2

private theorem bars_semicolon : Bars ';' := ⟨by decide, by decide⟩

private theorem bars_quote : Bars '\'' := ⟨by decide, by decide⟩

private theorem bars_lineFeed : Bars '\n' := ⟨by decide, by decide⟩

/-! ### Plain characters -/

variable {c d : Char} {cs X Y : List Char}

/-- A plain character that is not blank begins a name, a number or a sign. -/
private theorem plain_cases (h : plain c = true) (hspace : isSpace c = false) :
    Name.isStart c = true ∨ c.isDigit = true ∨ ∃ e ∈ punctuation, e.2.1 = c := by
  simp only [plain, hspace, Bool.false_or, Bool.or_eq_true, List.any_eq_true,
    decide_eq_true_eq] at h
  rcases h with h | h
  · simp only [Name.isPart, Bool.or_eq_true, decide_eq_true_eq, Char.isAlphanum] at h
    simp only [Name.isStart, Bool.or_eq_true, decide_eq_true_eq]
    tauto
  · exact .inr (.inr h)

/-- A plain character opens no string, no template and no comment. -/
private theorem plain_ne (h : plain c = true) :
    ¬(c = '\'' ∨ c = '\x22') ∧ c ≠ '\x60' ∧ c ≠ '/' := by
  refine ⟨?_, ?_, ?_⟩
  · rintro (rfl | rfl) <;> exact absurd h (by decide)
  · rintro rfl
    exact absurd h (by decide)
  · rintro rfl
    exact absurd h (by decide)

/-- A sign is found wherever one begins. -/
private theorem punctuationPiece?_isSome {e : Kind × Char × List Char} (h : e ∈ punctuation)
    (cs : List Char) : (punctuationPiece? e.2.1 cs).isSome = true := by
  have hshort : ∀ e ∈ punctuation, ∃ e' ∈ punctuation, e'.2.1 = e.2.1 ∧ e'.2.2 = [] := by decide
  obtain ⟨e', he', hfirst, hmore⟩ := hshort e h
  rw [punctuationPiece?, Option.isSome_map, List.find?_isSome]
  exact ⟨e', he', by simp [hfirst, hmore]⟩

/-- What a plain character begins means something. -/
private theorem pieceAt_kind_of_plain (h : plain c = true) (cs : List Char) :
    (pieceAt c cs).kind ≠ .unexpected := by
  obtain ⟨hquote, htemplate, hslash⟩ := plain_ne h
  unfold pieceAt
  split_ifs with hspace hstart hdigit
  · exact Kind.noConfusion
  · exact Kind.noConfusion
  · unfold numberPiece
    dsimp only
    split_ifs <;> exact Kind.noConfusion
  · have hsigns : ∀ e ∈ punctuation, e.1 ≠ .unexpected := by decide
    obtain hstart' | hdigit' | ⟨e, he, rfl⟩ := plain_cases h (by simpa using hspace)
    · exact absurd hstart' hstart
    · exact absurd hdigit' hdigit
    · obtain ⟨p, hp⟩ := Option.isSome_iff_exists.mp (punctuationPiece?_isSome he cs)
      obtain ⟨e', he', rfl, -⟩ := exists_of_punctuationPiece? hp
      rw [hp]
      exact hsigns e' he'

/-- A piece that begins plainly does not go past a bar. -/
private theorem more_isPrefix_of_plain (h : plain c = true) (hspace : isSpace c = false)
    (hd : Bars d) (X S : List Char) : (pieceAt c (X ++ d :: S)).more <+: X := by
  obtain ⟨hquote, htemplate, hslash⟩ := plain_ne h
  have hstops := Stops.cons hd.stops S
  unfold pieceAt
  rw [hspace, if_neg Bool.false_ne_true]
  split_ifs with hstart hdigit
  · dsimp only
    rw [takeWhile_append_stop fun e he => (stops_iff.mp (hstops e he)).1]
    exact List.takeWhile_prefix _
  · rw [numberPiece_append_stops hstops]
    exact numberPiece_more_isPrefix c X
  · cases hpiece : punctuationPiece? c (X ++ d :: S) with
    | none => exact List.nil_prefix
    | some p =>
      obtain ⟨e, he, rfl, -, hmore⟩ := exists_of_punctuationPiece? hpiece
      rw [← List.isPrefixOf_iff_prefix, isPrefixOf_append_cons (hd.signs e he)] at hmore
      exact List.isPrefixOf_iff_prefix.mp hmore

/-- What a plain character begins does not go on over a bar. -/
private theorem not_mem_more_of_plain (h : plain c = true) (hspace : isSpace c = false)
    (hd : Bars d) (cs : List Char) : d ∉ (pieceAt c cs).more := by
  intro hmem
  have hcs : d ∈ cs := (pieceAt_isPrefix c cs).2.subset hmem
  obtain ⟨X, S, rfl, hX⟩ := List.eq_append_cons_of_mem hcs
  exact hX ((more_isPrefix_of_plain h hspace hd X S).subset hmem)

/-! ### Plain texts -/

namespace Plain

/-- Plain texts can be put together. -/
theorem append (h : Plain X) (h' : Plain Y) : Plain (X ++ Y) := by
  induction h with
  | nil => exact h'
  | cons hc _ ih => exact .cons hc ih
  | quoted s _ ih =>
    rw [List.append_assoc]
    exact .quoted s ih

/-- A text of plain characters is plain. -/
theorem of_forall (h : ∀ c ∈ X, plain c = true) : Plain X := by
  induction X with
  | nil => exact .nil
  | cons c X ih =>
    obtain ⟨hc, hX⟩ := List.forall_mem_cons.mp h
    exact .cons hc (ih hX)

/-- The quoted form of a string is plain, whatever is in it. -/
theorem encode (s : List Char) : Plain (encode s) := by
  simpa using Plain.quoted s .nil

/-- What is left behind plain characters is plain. -/
theorem of_append (h : Plain (X ++ Y)) (hX : '\'' ∉ X) : Plain Y := by
  induction X with
  | nil => exact h
  | cons c X ih =>
    rw [List.mem_cons, not_or] at hX
    generalize htext : (c :: X) ++ Y = text at h
    cases h with
    | nil => exact absurd htext (List.cons_ne_nil _ _)
    | cons _ hcs =>
      obtain ⟨-, rfl⟩ := List.cons.inj htext
      exact ih hcs hX.2
    | quoted s hcs => exact absurd (List.cons.inj htext).1.symm hX.1

/-- The piece that a plain text begins with leaves a plain text. -/
private theorem exists_piece (hc : plain c = true) (h : Plain cs) :
    ∃ (p : Piece) (Y : List Char), c :: cs = p.chars ++ Y ∧ p.Before (Y ++ [';']) ∧ Plain Y := by
  have hprefix : (pieceAt c (cs ++ [';'])).more <+: cs ∧ '\'' ∉ (pieceAt c (cs ++ [';'])).more := by
    cases hspace : isSpace c with
    | true =>
      have hmore : (pieceAt c (cs ++ [';'])).more = cs.takeWhile isSpace := by
        rw [pieceAt, if_pos hspace]
        exact takeWhile_append_stop (p := isSpace) (by simp [isSpace]) cs
      rw [hmore]
      refine ⟨List.takeWhile_prefix _, fun hmem => ?_⟩
      exact absurd (List.all_eq_true.mp List.all_takeWhile _ hmem) (by decide)
    | false => exact ⟨more_isPrefix_of_plain hc hspace bars_semicolon cs [],
        not_mem_more_of_plain hc hspace bars_quote _⟩
  obtain ⟨⟨Y, hY⟩, hquote⟩ := hprefix
  refine ⟨pieceAt c (cs ++ [';']), Y, ?_, ?_, (hY.symm ▸ h : Plain (_ ++ Y)).of_append hquote⟩
  · rw [Piece.chars, List.cons_append, hY, (pieceAt_isPrefix c _).1]
  · rw [Piece.Before, (pieceAt_isPrefix c _).1, ← List.append_assoc, hY]

/-- **A semicolon behind a plain text is a token.** -/
theorem getLast?_pieces (h : Plain cs) :
    (pieces (cs ++ [';'])).getLast? = some semicolonPiece := by
  -- Each piece leaves a shorter plain text.
  have hpiece : ∀ {p : Piece} {Y : List Char}, p.Before (Y ++ [';']) →
      (pieces (Y ++ [';'])).getLast? = some semicolonPiece →
      (pieces (p.chars ++ Y ++ [';'])).getLast? = some semicolonPiece := by
    intro p Y hp hY
    rw [List.append_assoc, pieces_chars_append hp, List.getLast?_cons, hY]
    rfl
  induction hlength : cs.length using Nat.strong_induction_on generalizing cs with
  | _ n ih =>
    have hlt : ∀ {p : Piece} {Y : List Char}, cs = p.chars ++ Y → Y.length < n := by
      rintro p Y rfl
      rw [← hlength, List.length_append, Piece.chars, List.length_cons]
      omega
    cases h with
    | nil => rfl
    | cons hc hcs =>
      obtain ⟨p, Y, hY, hp, hplain⟩ := exists_piece hc hcs
      rw [hY]
      exact hpiece hp (ih _ (hlt hY) hplain rfl)
    | quoted s hcs =>
      exact hpiece (quotedPiece_before s _) (ih _ (hlt (p := quotedPiece s) rfl) hcs rfl)

end Plain

/-! ### Plain strings -/

/-- A string of nothing but plain characters. -/
def Spelled (s : String) : Prop := ∀ c ∈ s.toList, plain c = true

instance (s : String) : Decidable (Spelled s) :=
  decidable_of_iff (s.toList.all plain = true) List.all_eq_true

theorem Spelled.toPlain {s : String} (h : Spelled s) : Plain s.toList := .of_forall h

theorem plain_of_isPart (h : Name.isPart c = true) : plain c = true := by
  rw [plain, h, Bool.or_true, Bool.true_or]

/-- Identifiers are spelled in plain characters. -/
theorem spelled_of_isIdentifier {s : String} (h : Name.isIdentifier s = true) : Spelled s := by
  have hparts : ∀ cs, Name.isIdentifierChars cs = true → ∀ c ∈ cs, Name.isPart c = true := by
    intro cs hcs
    cases cs with
    | nil => cases hcs
    | cons c cs =>
      obtain ⟨hc, hall⟩ := Bool.and_eq_true_iff.mp hcs
      exact List.forall_mem_cons.mpr ⟨Name.isPart_of_isStart hc, List.all_eq_true.mp hall⟩
  exact fun c hc => plain_of_isPart (hparts _ h c hc)

theorem plain_of_isNumeric (h : isNumeric c = true) : plain c = true := by
  simp only [isNumeric, Bool.or_eq_true, decide_eq_true_eq] at h
  obtain ((h | rfl) | rfl) | rfl := h
  · simp [plain, Name.isPart, h]
  · decide
  · decide
  · decide

/-- Plain texts put together, as strings. -/
theorem Plain.join {s t : String} (h : Plain s.toList) (h' : Plain t.toList) :
    Plain (s ++ t).toList := by
  rw [String.toList_append]
  exact h.append h'

/-- Something spelled in front of a plain text. -/
theorem Plain.opened {s t : String} (h : Spelled s) (h' : Plain t.toList) :
    Plain (s ++ t).toList := h.toPlain.join h'

/-- Something spelled behind a plain text. -/
theorem Plain.spell {s t : String} (h : Plain s.toList) (h' : Spelled t) :
    Plain (s ++ t).toList := h.join h'.toPlain

/-! ### Indenting -/

variable {indent : List Char}

theorem reindent_append (indent X Y : List Char) :
    reindent indent (X ++ Y) = reindent indent X ++ reindent indent Y := List.flatMap_append

/-- A text in which no line ends is not indented. -/
private theorem reindent_of_not_mem (h : '\n' ∉ X) : reindent indent X = X := by
  induction X with
  | nil => rfl
  | cons c X ih =>
    rw [List.mem_cons, not_or] at h
    have hcons : reindent indent (c :: X) = [c] ++ reindent indent X := by
      rw [reindent, List.flatMap_cons, if_neg (Ne.symm h.1)]
      rfl
    rw [hcons, ih h.2, List.singleton_append]

/-- An indented text is similar up to where the first line ends. -/
private theorem similar_reindent (indent cs : List Char) : Similar cs (reindent indent cs) := by
  by_cases h : '\n' ∈ cs
  · obtain ⟨X, S, rfl, hX⟩ := List.eq_append_cons_of_mem h
    rw [reindent_append, reindent_of_not_mem hX]
    exact (Alike.same (by decide) S (indent ++ reindent indent S)).similar.append X
  · rw [reindent_of_not_mem h]
    exact ⟨cs, [], [], by simp, by simp, .done _⟩

private theorem lineFeed_not_mem_encode (s : List Char) : '\n' ∉ encode s := by
  simp [encode, lineFeed_not_mem_escape]

/-- What stands in place of a blank character is blank. -/
private theorem isSpace_of_mem_reindent (hindent : ∀ d ∈ indent, isSpace d = true)
    (hc : isSpace c = true) : ∀ d ∈ reindent indent [c], isSpace d = true := by
  intro d hd
  rw [reindent, List.flatMap_singleton] at hd
  split_ifs at hd
  · rcases List.mem_cons.mp hd with rfl | hd
    · decide
    · exact hindent d hd
  · rwa [List.mem_singleton.mp hd]

namespace Plain

/-- An indented plain text is plain. -/
theorem indented (h : Plain cs) (hindent : ∀ d ∈ indent, isSpace d = true) :
    Plain (reindent indent cs) := by
  induction h with
  | nil => exact .nil
  | @cons c cs hc _ ih =>
    rw [← List.singleton_append, reindent_append]
    refine append (.of_forall fun d hd => ?_) ih
    by_cases hfeed : '\n' ∈ [c]
    · obtain rfl := List.mem_singleton.mp hfeed
      simp [plain, isSpace_of_mem_reindent hindent (by decide) d hd]
    · rw [reindent_of_not_mem hfeed] at hd
      rwa [List.mem_singleton.mp hd]
  | quoted s _ ih =>
    rw [reindent_append, reindent_of_not_mem (lineFeed_not_mem_encode s)]
    exact .quoted s ih

/-- **Indenting the lines of a plain text leaves its words.** -/
theorem wordsOf_reindent (h : Plain cs) (hindent : ∀ d ∈ indent, isSpace d = true) :
    wordsOf (reindent indent cs) = wordsOf cs := by
  -- No line ends inside a piece, and what is left behind it is similar.
  have hpiece : ∀ {p : Piece} {Y : List Char}, p.Before Y → isSpace p.first = false →
      p.kind ≠ .unexpected → '\n' ∉ p.chars → wordsOf (reindent indent Y) = wordsOf Y →
      wordsOf (reindent indent (p.chars ++ Y)) = wordsOf (p.chars ++ Y) := by
    intro p Y hp hspace hkind hfeed hY
    rw [reindent_append, reindent_of_not_mem hfeed,
      (hp.of_similar (similar_reindent indent Y) hspace).wordsOf_append hkind,
      hp.wordsOf_append hkind, hY]
  induction hlength : cs.length using Nat.strong_induction_on generalizing cs with
  | _ n ih =>
    have hlt : ∀ {p : Piece} {Y : List Char}, cs = p.chars ++ Y → Y.length < n := by
      rintro p Y rfl
      rw [← hlength, List.length_append, Piece.chars, List.length_cons]
      omega
    cases h with
    | nil => rfl
    | @cons c cs hc hcs =>
      cases hspace : isSpace c with
      | true =>
        rw [← List.singleton_append, reindent_append,
          wordsOf_append_of_isSpace (isSpace_of_mem_reindent hindent hspace),
          wordsOf_append_of_isSpace (List.forall_mem_singleton.mpr hspace)]
        exact ih cs.length (hlength ▸ Nat.lt_succ_self _) hcs rfl
      | false =>
        obtain ⟨hfirst, Y, hY⟩ := pieceAt_isPrefix c cs
        have hquote := not_mem_more_of_plain hc hspace bars_quote cs
        have hfeed := not_mem_more_of_plain hc hspace bars_lineFeed cs
        have hbefore : (pieceAt c cs).Before Y := by rw [Piece.Before, hfirst, hY]
        have hchars := (chars_pieceAt_append hY).symm
        rw [hchars]
        refine hpiece hbefore (hfirst.symm ▸ hspace) (pieceAt_kind_of_plain hc cs) ?_
          (ih _ (hlt hchars) ((hY.symm ▸ hcs : Plain (_ ++ Y)).of_append hquote) rfl)
        rw [Piece.chars, hfirst, List.mem_cons, not_or]
        refine ⟨?_, hfeed⟩
        rintro rfl
        cases hspace
    | @quoted s cs hcs =>
      exact hpiece (quotedPiece_before s cs) rfl Kind.noConfusion
        (lineFeed_not_mem_encode s) (ih _ (hlt (p := quotedPiece s) rfl) hcs rfl)

end Plain

end Reifier.Token
