import Reifier.Proofs.Token.Number
import Reifier.Proofs.Token.Pieces
import Reifier.Token.Lexeme

/-!
# Writing words on a line

A word is a token without a place. Words are written one after another, with a blank between two of
them unless what follows is put close to the first or what precedes is put close to the second
(`tight`). A word that could go on stays apart from the character behind it, so a written text
splits into its words again (`exists_lexemes_write`).
-/

namespace Reifier.Token

/-- A token without a place. -/
@[ext]
structure Word where
  kind : Kind
  text : String
deriving DecidableEq

/-- The spelling of number tokens of a kind. -/
def IsNumber (kind : Kind) (text : String) : Prop :=
  ∃ c cs, text.toList = c :: cs ∧ c.isDigit = true ∧ numberPiece c cs = ⟨kind, c, cs⟩

namespace Word

/-- The word of fixed spelling of a kind. -/
def sign (kind : Kind) : Word :=
  ⟨kind, String.ofList (((punctuation.find? (·.1 = kind)).map fun e => e.2.1 :: e.2.2).getD [])⟩

/-- The words that types are written with. -/
inductive Valid : Word → Prop
  | sign {kind : Kind} (h : kind ∈ punctuation.map (·.1)) : Valid (sign kind)
  | name {text : String} (h : Name.isIdentifier text = true) : Valid ⟨.identifier, text⟩
  | quoted (value : String) : Valid ⟨.string, Text.quote value⟩
  | number {kind : Kind} {text : String} (hkind : kind = .number ∨ kind = .bigInt)
      (h : IsNumber kind text) : Valid ⟨kind, text⟩

/-- Words with a sign between each two parts. -/
def separated (separator : Kind) (parts : List (List Word)) : List Word :=
  [sign separator].intercalate parts

theorem separated_singleton (separator : Kind) (ws : List Word) :
    separated separator [ws] = ws := List.intercalate_singleton

/-- Between the first two parts stands a separator. -/
theorem separated_cons_cons (separator : Kind) (ws vs : List Word) (parts : List (List Word)) :
    separated separator (ws :: vs :: parts) =
      ws ++ sign separator :: separated separator (vs :: parts) := by
  rw [separated, List.intercalate_cons_cons, List.append_assoc]
  rfl

/-- Parts behind the first one have a separator in front of them. -/
theorem separated_cons (separator : Kind) (ws : List Word) (parts : List (List Word)) :
    separated separator (ws :: parts) = ws ++ parts.flatMap (sign separator :: ·) := by
  induction parts generalizing ws with
  | nil => rw [separated_singleton, List.flatMap_nil, List.append_nil]
  | cons part parts ih => rw [separated_cons_cons, ih, List.flatMap_cons, List.cons_append]

/-- Apart from the sign all words between the parts are words of the parts. -/
theorem forall_mem_separated {p : Word → Prop} {separator : Kind} {parts : List (List Word)}
    (hseparator : p (sign separator)) (h : ∀ ws ∈ parts, ∀ w ∈ ws, p w) :
    ∀ w ∈ separated separator parts, p w := by
  cases parts with
  | nil => exact List.forall_mem_nil _
  | cons part parts =>
    obtain ⟨hpart, hparts⟩ := List.forall_mem_cons.mp h
    rw [separated_cons]
    refine List.forall_mem_append.mpr ⟨hpart, fun w hw => ?_⟩
    obtain ⟨ws, hws, hw⟩ := List.mem_flatMap.mp hw
    rcases List.mem_cons.mp hw with rfl | hw
    · exact hseparator
    · exact hparts ws hws w hw

/-- The words of a part are among those of the whole. -/
theorem mem_separated {w : Word} {ws : List Word} {parts : List (List Word)} (separator : Kind)
    (hws : ws ∈ parts) (hw : w ∈ ws) : w ∈ separated separator parts := by
  cases parts with
  | nil => exact absurd hws List.not_mem_nil
  | cons part parts =>
    rw [separated_cons]
    obtain rfl | hws := List.mem_cons.mp hws
    · exact List.mem_append_left _ hw
    · exact List.mem_append_right _ (List.mem_flatMap.mpr ⟨ws, hws, List.mem_cons_of_mem _ hw⟩)

/-- A part in front makes the whole longer, if it is not empty. -/
theorem length_separated_lt (separator : Kind) {ws : List Word} (hws : 0 < ws.length)
    (parts : List (List Word)) :
    (separated separator parts).length < (separated separator (ws :: parts)).length := by
  cases parts with
  | nil => rwa [separated_singleton]
  | cons part parts =>
    rw [separated_cons_cons, List.length_append, List.length_cons]
    omega

/-- The piece that a word is, if it has any characters. -/
def piece (w : Word) : Piece := ⟨w.kind, w.text.toList.headD ' ', w.text.toList.tail⟩

/-- A sign is spelled as the table has it. -/
private theorem sign_eq {kind : Kind} (h : kind ∈ punctuation.map (·.1)) :
    ∃ e ∈ punctuation, e.1 = kind ∧ sign kind = ⟨kind, String.ofList (e.2.1 :: e.2.2)⟩ := by
  obtain ⟨e₀, he₀, hkind₀⟩ := List.mem_map.mp h
  have hsome : (punctuation.find? (·.1 = kind)).isSome = true :=
    List.find?_isSome.mpr ⟨e₀, he₀, decide_eq_true hkind₀⟩
  obtain ⟨e, he⟩ := Option.isSome_iff_exists.mp hsome
  refine ⟨e, List.mem_of_find?_eq_some he, by simpa using List.find?_some he, ?_⟩
  rw [sign, he]
  rfl

end Word

/-! ### What may stand close together -/

/-- Whether nothing stands between two neighbouring words of given kinds. -/
def tight (left right : Kind) : Bool :=
  [.parenOpen, .bracketOpen, .less, .question, .ellipsis, .minus].contains left ||
    [.parenClose, .bracketClose, .comma, .semicolon, .colon].contains right ||
    left = .dot && right = .identifier ||
    left = .identifier && (right = .dot || right = .less) ||
    (left = .identifier || left = .string) && right = .question ||
    right = .greater && left ≠ .equals ||
    right = .bracketOpen &&
      [.identifier, .string, .number, .bigInt, .star, .parenClose, .bracketClose, .braceClose,
        .barBraceClose, .greater].contains left

/-- Whether a character does not go on with a token of a kind. -/
def apart (kind : Kind) (d : Char) : Bool :=
  match kind with
  | .identifier => !Name.isPart d
  | .number => !Name.isPart d && d ≠ '.'
  | .bigInt => !Name.isPart d && d ≠ '.'
  | .braceOpen => d ≠ '|'
  | .pipe => d ≠ '}'
  | .equals => d ≠ '>'
  | .dot => d ≠ '.'
  | _ => true

private theorem apart_blank (kind : Kind) : apart kind ' ' = true := by
  cases kind <;> rfl

/-- Where no blank is written between two words, they do not run into each other. -/
private theorem apart_sign_of_tight {kind : Kind} {e : Kind × Char × List Char}
    (h : e ∈ punctuation) (htight : tight kind e.1 = true) : apart kind e.2.1 = true := by
  have hall : ∀ e ∈ punctuation, tight kind e.1 = true → apart kind e.2.1 = true := by
    cases kind <;> decide
  exact hall e h htight

/-- A word that is neither a sign nor put close to what precedes stands close only behind a sign
that goes on with a point at most. -/
private theorem apart_of_tight_start {left right : Kind} {d : Char}
    (hright : right = .identifier ∨ right = .string ∨ right = .number ∨ right = .bigInt)
    (htight : tight left right = true) (hdot : d ≠ '.') : apart left d = true := by
  rcases hright with rfl | rfl | rfl | rfl <;> cases left <;>
    first | rfl | exact decide_eq_true hdot | exact absurd htight (by decide)

/-! ### Words in front of other text -/

/-- A sign is the one that is found if no longer one goes on behind it. -/
private theorem punctuationPiece?_append {e : Kind × Char × List Char} (h : e ∈ punctuation)
    {rest : List Char} (hrest : ∀ d ∈ rest.head?, apart e.1 d = true) :
    punctuationPiece? e.2.1 (e.2.2 ++ rest) = some ⟨e.1, e.2.1, e.2.2⟩ := by
  cases rest with
  | nil => fin_cases h <;> rfl
  | cons d rest =>
    have hd := hrest d rfl
    clear hrest
    fin_cases h <;> first | rfl | (have hne := Ne.symm (of_decide_eq_true hd)
                                   simp [punctuationPiece?, punctuation, hne])

/-- A piece that begins as a sign does is looked up among the signs. -/
theorem pieceAt_sign {e : Kind × Char × List Char} (h : e ∈ punctuation) (cs : List Char) :
    pieceAt e.2.1 cs = (punctuationPiece? e.2.1 cs).getD ⟨.unexpected, e.2.1, []⟩ := by
  have hplain : ∀ e ∈ punctuation, isSpace e.2.1 = false ∧ Name.isStart e.2.1 = false ∧
      e.2.1.isDigit = false ∧ ¬(e.2.1 = '\'' ∨ e.2.1 = '\x22') ∧ e.2.1 ≠ '\x60' ∧ e.2.1 ≠ '/' := by
    decide
  obtain ⟨hspace, hstart, hdigit, hquote, htemplate, hslash⟩ := hplain e h
  rw [pieceAt]
  simp only [hspace, hstart, hdigit, hquote, htemplate, hslash, if_false, Bool.false_eq_true]

/-- A sign is taken in front of what does not make it longer. -/
theorem sign_before {e : Kind × Char × List Char} (h : e ∈ punctuation) {rest : List Char}
    (hrest : ∀ d ∈ rest.head?, apart e.1 d = true) : (⟨e.1, e.2.1, e.2.2⟩ : Piece).Before rest := by
  rw [Piece.Before, pieceAt_sign h, punctuationPiece?_append h hrest]
  rfl

private theorem isSpace_of_isStart {c : Char} (h : Name.isStart c = true) : isSpace c = false := by
  refine Bool.eq_false_iff.mpr fun hspace => ?_
  rcases isSpace_cases hspace with rfl | rfl | rfl | rfl | rfl <;> exact absurd h (by decide)

private theorem isSpace_of_isDigit {c : Char} (h : c.isDigit = true) : isSpace c = false := by
  refine Bool.eq_false_iff.mpr fun hspace => ?_
  rcases isSpace_cases hspace with rfl | rfl | rfl | rfl | rfl <;> exact absurd h (by decide)

private theorem isStart_of_isDigit {c : Char} (h : c.isDigit = true) : Name.isStart c = false := by
  have hrange := Name.isDigit_iff.mp h
  refine Bool.eq_false_iff.mpr fun hstart => ?_
  simp only [Name.isStart, Bool.or_eq_true, decide_eq_true_eq, Name.isAlpha_iff] at hstart
  obtain (hletter | rfl) | rfl := hstart
  · omega
  · exact absurd h (by decide)
  · exact absurd h (by decide)

/-- A piece that begins as a name does is a name. -/
theorem pieceAt_of_isStart {c : Char} (h : Name.isStart c = true) (cs : List Char) :
    pieceAt c cs = ⟨.identifier, c, cs.takeWhile Name.isPart⟩ := by
  rw [pieceAt, isSpace_of_isStart h, if_neg Bool.false_ne_true, if_pos h]

/-- A piece that begins with a digit is a number. -/
theorem pieceAt_of_isDigit {c : Char} (h : c.isDigit = true) (cs : List Char) :
    pieceAt c cs = numberPiece c cs := by
  rw [pieceAt, isSpace_of_isDigit h, if_neg Bool.false_ne_true, isStart_of_isDigit h,
    if_neg Bool.false_ne_true, if_pos h]

/-- A name is taken in front of what does not go on with it. -/
private theorem name_before {c : Char} {cs : List Char} (hc : Name.isStart c = true)
    (hcs : cs.all Name.isPart = true) {rest : List Char}
    (hrest : ∀ d ∈ rest.head?, apart .identifier d = true) :
    (⟨.identifier, c, cs⟩ : Piece).Before rest := by
  have hstop : ∀ d ∈ rest.head?, Name.isPart d = false := fun d hd => by
    simpa [apart] using hrest d hd
  have htake : (cs ++ rest).takeWhile Name.isPart = cs :=
    takeWhile_append_eq hstop (List.all_eq_true.mp hcs)
  rw [Piece.Before, pieceAt_of_isStart hc, htake]

/-- A number is taken in front of what does not go on with it. -/
private theorem number_before {kind : Kind} (hkind : kind = .number ∨ kind = .bigInt) {c : Char}
    {cs : List Char} (hc : c.isDigit = true) (hcs : numberPiece c cs = ⟨kind, c, cs⟩)
    {rest : List Char} (hrest : ∀ d ∈ rest.head?, apart kind d = true) :
    (⟨kind, c, cs⟩ : Piece).Before rest := by
  have hstop : StopsNumber rest := fun d hd => by
    rcases hkind with rfl | rfl <;> simpa [apart] using hrest d hd
  rw [Piece.Before, pieceAt_of_isDigit hc]
  exact numberPiece_append hstop hcs

namespace Word.Valid

variable {w : Word}

/-- A word has a first character, which is no blank and stays apart from whatever the word is put
close to; and before a character that stays apart from it the word is taken as a piece. -/
theorem exists_cons (h : w.Valid) :
    ∃ c cs, w.text.toList = c :: cs ∧ isSpace c = false ∧
      (∀ kind, tight kind w.kind = true → apart kind c = true) ∧
      ∀ rest : List Char, (∀ d ∈ rest.head?, apart w.kind d = true) →
        (⟨w.kind, c, cs⟩ : Piece).Before rest := by
  cases h with
  | sign h =>
    obtain ⟨e, he, rfl, hsign⟩ := Word.sign_eq h
    have hspace : ∀ e ∈ punctuation, isSpace e.2.1 = false := by decide
    refine ⟨e.2.1, e.2.2, ?_, hspace e he, fun kind => apart_sign_of_tight he, fun rest => ?_⟩
    · rw [hsign, String.toList_ofList]
    · exact sign_before he
  | @name text h =>
    unfold Name.isIdentifier at h
    cases hchars : text.toList with
    | nil =>
      rw [hchars] at h
      cases h
    | cons c cs =>
      rw [hchars] at h
      obtain ⟨hc, hcs⟩ := Bool.and_eq_true_iff.mp h
      refine ⟨c, cs, rfl, isSpace_of_isStart hc, fun kind htight => ?_, fun rest => ?_⟩
      · exact apart_of_tight_start (.inl rfl) htight fun hdot => absurd hc (hdot ▸ by decide)
      · exact name_before hc hcs
  | quoted value =>
    refine ⟨'\'', _, String.toList_ofList, rfl, fun kind htight => ?_, fun rest _ => ?_⟩
    · exact apart_of_tight_start (.inr (.inl rfl)) htight (by decide)
    · exact quotedPiece_before value.toList rest
  | @number kind text hkind h =>
    obtain ⟨c, cs, hchars, hc, hcs⟩ := h
    refine ⟨c, cs, hchars, isSpace_of_isDigit hc, fun left htight => ?_, fun rest => ?_⟩
    · have hright : kind = .identifier ∨ kind = .string ∨ kind = .number ∨ kind = .bigInt :=
        .inr (.inr hkind)
      exact apart_of_tight_start hright htight fun hdot => absurd hc (hdot ▸ by decide)
    · exact number_before hkind hc hcs

/-- A word that can be written is no trivia and means something. -/
theorem isTrivia (h : w.Valid) : w.kind.isTrivia = false ∧ w.kind ≠ .unexpected := by
  cases h with
  | sign h =>
    obtain ⟨e, he, rfl, -⟩ := Word.sign_eq h
    have hall : ∀ e ∈ punctuation, e.1.isTrivia = false ∧ e.1 ≠ .unexpected := by decide
    exact hall e he
  | name h => exact ⟨rfl, Kind.noConfusion⟩
  | quoted value => exact ⟨rfl, Kind.noConfusion⟩
  | number hkind h => rcases hkind with rfl | rfl <;> exact ⟨rfl, Kind.noConfusion⟩

end Word.Valid

/-! ### Writing -/

/-- What stands between two neighbouring words of given kinds. -/
def gap (left right : Kind) : List Char := if tight left right then [] else [' ']

/-- What is written behind a word of a kind. -/
def writeAfter (kind : Kind) : List Word → List Char
  | [] => []
  | w :: ws => gap kind w.kind ++ (w.text.toList ++ writeAfter w.kind ws)

/-- Words on a line. -/
def write : List Word → String
  | [] => ""
  | w :: ws => w.text ++ String.ofList (writeAfter w.kind ws)

/-- Nothing stands before the first word, as nothing stands behind an opening parenthesis. -/
theorem toList_write (ws : List Word) : (write ws).toList = writeAfter .parenOpen ws := by
  cases ws with
  | nil => rfl
  | cons w ws =>
    rw [write, String.toList_append, String.toList_ofList]
    rfl

/-- A word that is close to every other is written right behind them. -/
theorem writeAfter_concat {w : Word} (h : ∀ kind, tight kind w.kind = true) (ws : List Word)
    (kind : Kind) : writeAfter kind (ws ++ [w]) = writeAfter kind ws ++ w.text.toList := by
  induction ws generalizing kind with
  | nil =>
    have hgap : gap kind w.kind = [] := if_pos (h kind)
    rw [List.nil_append, writeAfter, writeAfter, hgap, writeAfter, List.append_nil]
  | cons v ws ih =>
    rw [List.cons_append, writeAfter, writeAfter, ih, List.append_assoc, List.append_assoc]

/-- What stands behind a word stays apart from it. -/
private theorem apart_writeAfter {ws : List Word} (h : ∀ w ∈ ws, w.Valid) (kind : Kind) :
    ∀ d ∈ (writeAfter kind ws).head?, apart kind d = true := by
  cases ws with
  | nil => exact fun d hd => absurd hd (by simp [writeAfter])
  | cons w ws =>
    obtain ⟨c, cs, hchars, -, htight, -⟩ := (h w List.mem_cons_self).exists_cons
    intro d hd
    unfold writeAfter gap at hd
    split at hd
    · rename_i hclose
      obtain rfl : c = d := by simpa [hchars] using hd
      exact htight kind hclose
    · obtain rfl : ' ' = d := by simpa using hd
      exact apart_blank kind

/-! ### Reading what is written -/

/-- The pieces of what is written behind a word of a kind. -/
def piecesBehind (kind : Kind) : List Word → List Piece
  | [] => []
  | w :: ws =>
    (if tight kind w.kind then [] else [⟨.blank, ' ', []⟩]) ++ w.piece :: piecesBehind w.kind ws

/-- The first word that is written is the first piece that is read. -/
private theorem pieces_word {w : Word} {ws : List Word} (h : ∀ v ∈ w :: ws, v.Valid) :
    pieces (w.text.toList ++ writeAfter w.kind ws) = w.piece :: pieces (writeAfter w.kind ws) := by
  obtain ⟨hw, hws⟩ := List.forall_mem_cons.mp h
  obtain ⟨c, cs, hchars, -, -, hbefore⟩ := hw.exists_cons
  have hpiece : w.piece = ⟨w.kind, c, cs⟩ := by rw [Word.piece, hchars]; rfl
  rw [hpiece, ← pieces_chars_append (hbefore _ (apart_writeAfter hws w.kind)), hchars]
  rfl

/-- The blank in front of a word is a piece by itself. -/
private theorem blank_before {w : Word} (h : w.Valid) (rest : List Char) :
    (⟨.blank, ' ', []⟩ : Piece).Before (w.text.toList ++ rest) := by
  obtain ⟨c, cs, hchars, hspace, -⟩ := h.exists_cons
  have hrun : (w.text.toList ++ rest).takeWhile isSpace = [] := by
    rw [hchars, List.cons_append, List.takeWhile_cons, hspace]
    rfl
  change (⟨.blank, ' ', (w.text.toList ++ rest).takeWhile isSpace⟩ : Piece) = _
  rw [hrun]

/-- **Words are written so that they are read again**, with a blank wherever one has been put. -/
theorem pieces_writeAfter {ws : List Word} (h : ∀ w ∈ ws, w.Valid) (kind : Kind) :
    pieces (writeAfter kind ws) = piecesBehind kind ws := by
  induction ws generalizing kind with
  | nil => rfl
  | cons w ws ih =>
    have hrest := ih (fun v hv => h v (List.mem_cons_of_mem w hv)) w.kind
    rw [writeAfter, piecesBehind, gap, ← hrest, ← pieces_word h]
    split
    · rfl
    · exact pieces_chars_append (blank_before (h w List.mem_cons_self) _)

/-- Nothing unexpected is written. -/
theorem expected_piecesBehind {ws : List Word} (h : ∀ w ∈ ws, w.Valid) (kind : Kind) :
    ∀ p ∈ piecesBehind kind ws, p.kind ≠ .unexpected := by
  induction ws generalizing kind with
  | nil => exact List.forall_mem_nil _
  | cons w ws ih =>
    obtain ⟨hw, hws⟩ := List.forall_mem_cons.mp h
    refine List.forall_mem_append.mpr ⟨?_, List.forall_mem_cons.mpr ⟨hw.isTrivia.2, ih hws _⟩⟩
    split
    · exact List.forall_mem_nil _
    · exact List.forall_mem_singleton.mpr Kind.noConfusion

end Reifier.Token

namespace Reifier.Lexeme

open Token

/-- A lexeme that is a given word, without comments or a line break before it. -/
structure Shows (l : Lexeme) (w : Word) : Prop where
  kind : l.token.kind = w.kind
  text : l.token.text = w.text
  comments : l.before.comments = []
  lineBreak : l.before.lineBreak = false

/-- Words that are written behind others, and behind trivia without comments or a line break, are
shown by their lexemes. -/
private theorem exists_ofTokensAfter {ws : List Word} (h : ∀ w ∈ ws, w.Valid) (kind : Token.Kind)
    (offset : ℕ) {before : Trivia} (hcomments : before.comments = [])
    (hlineBreak : before.lineBreak = false) :
    ∃ lexemes after, ofTokensAfter before (place offset (piecesBehind kind ws)) = (lexemes, after) ∧
      List.Forall₂ Shows lexemes ws ∧ after.comments = [] := by
  -- The trivia before a word depend on whether a blank is written there, so they vary from word to
  -- word.
  induction ws generalizing kind offset before with
  | nil => exact ⟨[], before, rfl, .nil, hcomments⟩
  | cons w ws ih =>
    obtain ⟨hw, hws⟩ := List.forall_mem_cons.mp h
    obtain ⟨c, cs, hchars, -⟩ := hw.exists_cons
    have htext : String.ofList w.piece.chars = w.text := by
      rw [Word.piece, Piece.chars, hchars, ← String.ofList_toList (s := w.text), hchars]
      rfl
    -- Whether a blank has been read before it or not, the word itself is read in the same way.
    have hword : ∀ (offset : ℕ) (before : Trivia), before.comments = [] → before.lineBreak = false →
        ∃ lexemes after,
          ofTokensAfter before (place offset (w.piece :: piecesBehind w.kind ws)) =
            (lexemes, after) ∧
          List.Forall₂ Shows lexemes (w :: ws) ∧ after.comments = [] := by
      intro offset before hcomments hlineBreak
      let stop := offset + Text.byteLength w.piece.chars
      let token : Token := ⟨w.kind, String.ofList w.piece.chars, ⟨offset, stop⟩⟩
      have hnone : Trivia.none.comments = [] := rfl
      obtain ⟨lexemes, after, hrest, hshows, hafter⟩ := ih hws w.kind stop hnone rfl
      have hshow : Shows ⟨before, token⟩ w := ⟨rfl, htext, hcomments, hlineBreak⟩
      refine ⟨⟨before, token⟩ :: lexemes, after, ?_, .cons hshow hshows, hafter⟩
      have htrivia : w.piece.kind.isTrivia = false := hw.isTrivia.1
      simp only [place, ofTokensAfter, htrivia, Bool.false_eq_true, if_false]
      rw [hrest]
      rfl
    rw [piecesBehind]
    split
    · exact hword offset before hcomments hlineBreak
    · have hblank : (Comment.ofToken? ⟨.blank, " ", ⟨offset, offset + 1⟩⟩).toList = [] := rfl
      refine hword (offset + 1) (before.push ⟨.blank, " ", ⟨offset, offset + 1⟩⟩) ?_ ?_
      · rw [Trivia.push, hcomments, hblank]
        rfl
      · rw [Trivia.push, hlineBreak]
        simp

/-- **What is written on a line reads back as the words that it was written from.** -/
theorem exists_lexemes_write {ws : List Word} (h : ∀ w ∈ ws, w.Valid) :
    ∃ lexemes after, ofTokens (scan (write ws)) = (lexemes, after) ∧
      List.Forall₂ Shows lexemes ws ∧ after.comments = [] := by
  have hscan : scan (write ws) = place 0 (piecesBehind .parenOpen ws) := by
    rw [scan, ofChars, toList_write, pieces_writeAfter h,
      joinUnexpected_of_expected (expected_piecesBehind h _)]
  have hnone : Trivia.none.comments = [] := rfl
  rw [ofTokens, hscan]
  exact exists_ofTokensAfter h .parenOpen 0 hnone rfl

end Reifier.Lexeme
