import Reifier.Proofs.Token.Lexemes
import Reifier.Proofs.Token.Words

/-!
# The words of a text

The words of a text are its tokens apart from trivia, without their places. They can be found from
token to token: `t.Before rest` says that the token `t` is taken from a text that begins with its
characters and goes on with `rest`. This holds of every token of a source and what follows it
(`lexed_scan`), and it stays so if something similar follows instead (`Before.of_similar`), since no
piece looks further than where two texts look alike, or if trivia are put behind a text
(`Before.append_gap`).
-/

namespace Reifier.Token

/-- The word that a token is. -/
def word (t : Token) : Word := ⟨t.kind, t.text⟩

/-- The words of tokens. -/
def words (ts : List Token) : List Word := (ts.filter fun t => !t.kind.isTrivia).map word

@[simp] theorem words_nil : words [] = [] := rfl

@[simp] theorem words_append (ts us : List Token) : words (ts ++ us) = words ts ++ words us := by
  rw [words, List.filter_append, List.map_append]
  rfl

/-- The words of characters. -/
def wordsOf (cs : List Char) : List Word := words (ofChars cs)

/-! ### Pieces one after another -/

/-- Pieces that are taken one after another from a text that begins with their characters and goes
on with `rest`. -/
def Piece.AllBefore : List Piece → List Char → Prop
  | [], _ => True
  | p :: ps, rest => p.Before (ps.flatMap Piece.chars ++ rest) ∧ AllBefore ps rest

/-- Pieces that are taken one after the other are the first pieces of the text. -/
theorem Piece.AllBefore.pieces_append {ps : List Piece} {rest : List Char}
    (h : AllBefore ps rest) : pieces (ps.flatMap Piece.chars ++ rest) = ps ++ pieces rest := by
  induction ps with
  | nil => rfl
  | cons p ps ih =>
    rw [List.flatMap_cons, List.append_assoc, pieces_chars_append h.1, ih h.2, List.cons_append]

/-- The pieces of a text are taken one after the other. -/
private theorem allBefore_pieces (cs : List Char) : Piece.AllBefore (pieces cs) [] := by
  induction cs using pieces_induction with
  | nil => trivial
  | cons c cs behind hbehind hsplit ih =>
    rw [hsplit]
    refine ⟨?_, ih⟩
    rw [List.append_nil, flatMap_chars_pieces, Piece.Before, (pieceAt_isPrefix c cs).1, hbehind]

/-- Two texts that are the same up to where they look alike. -/
def Similar (rest rest' : List Char) : Prop :=
  ∃ X S S', rest = X ++ S ∧ rest' = X ++ S' ∧ Alike S S'

theorem Alike.similar {S S' : List Char} (h : Alike S S') : Similar S S' := ⟨[], S, S', rfl, rfl, h⟩

/-- The same front keeps texts similar. -/
theorem Similar.append {rest rest' : List Char} (h : Similar rest rest') (front : List Char) :
    Similar (front ++ rest) (front ++ rest') := by
  obtain ⟨X, S, S', rfl, rfl, hS⟩ := h
  exact ⟨front ++ X, S, S', by simp, by simp, hS⟩

/-- A piece is taken in front of a similar text as well, since it ends where both are the same. -/
theorem Piece.Before.of_similar {p : Piece} {rest rest' : List Char} (h : p.Before rest)
    (hrest : Similar rest rest') (hspace : isSpace p.first = false) : p.Before rest' := by
  obtain ⟨X, S, S', rfl, rfl, hS⟩ := hrest
  rw [Piece.Before, ← List.append_assoc] at h ⊢
  have hle : (pieceAt p.first (p.more ++ X ++ S)).more.length ≤ (p.more ++ X).length := by
    rw [h, List.length_append]
    exact Nat.le_add_right _ _
  rw [pieceAt_append_alike hspace hS hle, h]

/-- A piece that begins with blank space is blank. -/
private theorem Piece.Before.isSpace_first {p : Piece} {rest : List Char} (h : p.Before rest)
    (hkind : p.kind ≠ .blank) : isSpace p.first = false := by
  refine Bool.eq_false_iff.mpr fun hspace => hkind ?_
  rw [← h, pieceAt, if_pos hspace]

/-- Pieces are taken in front of a similar text as well, if none is blank: blank space looks at all
that follows. -/
private theorem Piece.AllBefore.of_similar {ps : List Piece} {rest rest' : List Char}
    (h : AllBefore ps rest) (hrest : Similar rest rest')
    (hkind : ∀ p ∈ ps, p.kind ≠ .blank) : AllBefore ps rest' := by
  induction ps with
  | nil => trivial
  | cons p ps ih =>
    obtain ⟨hp, hps⟩ := List.forall_mem_cons.mp hkind
    exact ⟨h.1.of_similar (hrest.append _) (h.1.isSpace_first hp), ih h.2 hps⟩

/-! ### Words -/

/-- The word that a piece is. -/
def Piece.asWord (p : Piece) : Word := ⟨p.kind, String.ofList p.chars⟩

/-- Words do not depend on places. -/
private theorem words_place (offset : ℕ) (ps : List Piece) :
    words (place offset ps) = (ps.filter fun p => !p.kind.isTrivia).map Piece.asWord := by
  induction ps generalizing offset with
  | nil => rfl
  | cons p ps ih =>
    have hps := ih (offset + Text.byteLength p.chars)
    unfold words at hps ⊢
    rw [place, List.filter_cons, List.filter_cons]
    dsimp only
    split_ifs
    · rw [List.map_cons, List.map_cons, hps]
      rfl
    · exact hps

/-- The words of a text are its joined pieces apart from trivia. -/
private theorem wordsOf_eq (cs : List Char) : wordsOf cs =
    ((joinUnexpected (pieces cs)).filter fun p => !p.kind.isTrivia).map Piece.asWord :=
  words_place 0 _

/-- **Words on a line are the words of the text.** -/
theorem wordsOf_write {ws : List Word} (h : ∀ w ∈ ws, w.Valid) :
    wordsOf (write ws).toList = ws := by
  -- The blanks that are written between words depend on the kind of the last one, which is any one
  -- here.
  have hpieces : ∀ kind, ((piecesBehind kind ws).filter fun p => !p.kind.isTrivia).map
      Piece.asWord = ws := by
    induction ws with
    | nil => exact fun _ => rfl
    | cons w ws ih =>
      obtain ⟨hw, hws⟩ := List.forall_mem_cons.mp h
      obtain ⟨c, cs, hchars, -⟩ := hw.exists_cons
      have hpiece : w.piece.asWord = w := by
        rw [Word.piece, hchars, Piece.asWord, Piece.chars]
        exact Word.ext_iff.mpr ⟨rfl, by rw [← String.ofList_toList (s := w.text), hchars]; rfl⟩
      have htrivia : (!w.piece.kind.isTrivia) = true := by
        have hkind : w.piece.kind.isTrivia = false := hw.isTrivia.1
        rw [hkind, Bool.not_false]
      have hword : ((w.piece :: piecesBehind w.kind ws).filter fun p => !p.kind.isTrivia).map
          Piece.asWord = w :: ws := by
        rw [List.filter_cons, if_pos htrivia, List.map_cons, hpiece, ih hws]
      intro kind
      rw [piecesBehind]
      split
      · exact hword
      · exact hword
  rw [wordsOf_eq, toList_write, pieces_writeAfter h,
    joinUnexpected_of_expected (expected_piecesBehind h _), hpieces]

/-- Joining stops in front of a piece that means something. -/
theorem joinUnexpected_append_of_head? {ps : List Piece} (hps : ∀ p ∈ ps, p.kind = .unexpected)
    (hne : ps ≠ []) {qs : List Piece} (hqs : ∀ q ∈ qs.head?, q.kind ≠ .unexpected) :
    ∃ p, p.kind = .unexpected ∧ p.chars = ps.flatMap Piece.chars ∧
      joinUnexpected (ps ++ qs) = p :: joinUnexpected qs := by
  induction ps with
  | nil => exact absurd rfl hne
  | cons p ps ih =>
    obtain ⟨hp, hps⟩ := List.forall_mem_cons.mp hps
    cases ps with
    | nil =>
      refine ⟨p, hp, by simp, ?_⟩
      rw [List.singleton_append, joinUnexpected]
      cases qs with
      | nil => rfl
      | cons q qs =>
        rw [joinUnexpected_cons_of_ne (hqs q rfl)]
        exact if_neg fun hboth => hqs q rfl hboth.2
    | cons q ps =>
      obtain ⟨r, hr, hchars, hjoin⟩ := ih hps (List.cons_ne_nil q ps)
      refine ⟨⟨.unexpected, p.first, p.more ++ r.chars⟩, rfl, ?_, ?_⟩
      · rw [List.flatMap_cons, ← hchars]
        rfl
      · rw [List.cons_append, joinUnexpected, hjoin]
        exact if_pos ⟨hp, hr⟩

/-- Blank space in front of a text adds no word. -/
private theorem wordsOf_eq_dropWhile (cs : List Char) :
    wordsOf cs = wordsOf (cs.dropWhile isSpace) := by
  cases cs with
  | nil => rfl
  | cons c cs =>
    cases hspace : isSpace c with
    | false => rw [List.dropWhile_cons, hspace, if_neg Bool.false_ne_true]
    | true =>
      have hpiece : pieceAt c cs = ⟨.blank, c, cs.takeWhile isSpace⟩ := by
        rw [pieceAt, if_pos hspace]
      obtain ⟨behind, hbehind, hsplit⟩ := exists_pieces_cons c cs
      rw [hpiece] at hbehind hsplit
      have hdrop : cs.dropWhile isSpace = behind := by
        have hboth := List.takeWhile_append_dropWhile (p := isSpace) (l := cs)
        exact List.append_cancel_left (hboth.trans hbehind.symm)
      rw [List.dropWhile_cons, if_pos hspace, hdrop, wordsOf_eq, wordsOf_eq, hsplit,
        joinUnexpected_cons_of_ne Kind.noConfusion, List.filter_cons]
      rfl

/-- Blank space in front adds no word. -/
theorem wordsOf_append_of_isSpace {blank : List Char} (h : ∀ c ∈ blank, isSpace c = true)
    (cs : List Char) : wordsOf (blank ++ cs) = wordsOf cs := by
  rw [wordsOf_eq_dropWhile, List.dropWhile_append_of_pos h, ← wordsOf_eq_dropWhile]

/-- Behind a semicolon the words of what follows begin. -/
theorem wordsOf_append {cs : List Char} (h : (pieces cs).getLast? = some semicolonPiece)
    (rest : List Char) : wordsOf (cs ++ rest) = wordsOf cs ++ wordsOf rest := by
  rw [wordsOf_eq, wordsOf_eq, wordsOf_eq, pieces_append h, joinUnexpected_pieces_append h,
    List.filter_append, List.map_append]

/-! ### Tokens one after another -/

/-- The pieces that a token has been made of: itself, or unexpected pieces that are joined. -/
structure Kind.MadeOf (kind : Kind) (cs : List Char) (ps : List Piece) : Prop where
  chars : cs = ps.flatMap Piece.chars
  ne_nil : ps ≠ []
  kinds : if kind = .unexpected then ∀ p ∈ ps, p.kind = .unexpected else ps.map Piece.kind = [kind]

private theorem Kind.MadeOf.self (p : Piece) : p.kind.MadeOf p.chars [p] := by
  refine ⟨by simp, List.cons_ne_nil p [], ?_⟩
  split_ifs with hkind
  · exact List.forall_mem_singleton.mpr hkind
  · rfl

/-- A token that is taken from a text which begins with its characters and goes on with `rest`. -/
def Before (t : Token) (rest : List Char) : Prop :=
  ∃ ps, t.kind.MadeOf t.text.toList ps ∧ Piece.AllBefore ps rest

/-- Tokens each of which is taken from what is left of a text. -/
def Lexed : List Token → Prop
  | [] => True
  | t :: ts => t.Before (ts.flatMap (·.text.toList)) ∧
      (t.kind = .unexpected → ∀ u ∈ ts.head?, u.kind ≠ .unexpected) ∧ Lexed ts

theorem Lexed.of_append {ts us : List Token} (h : Lexed (ts ++ us)) : Lexed us := by
  induction ts with
  | nil => exact h
  | cons t ts ih => exact ih h.2.2

namespace Before

variable {t : Token} {rest rest' : List Char}

/-- A token that is taken first gives the kind of the first piece. -/
theorem head?_kind (h : t.Before rest) :
    (pieces (t.text.toList ++ rest)).head?.map Piece.kind = some t.kind := by
  obtain ⟨ps, ⟨hchars, hne, hkind⟩, hbefore⟩ := h
  rw [hchars, hbefore.pieces_append]
  obtain ⟨p, ps, rfl⟩ := List.exists_cons_of_ne_nil hne
  split_ifs at hkind with hunexpected
  · simp [hkind p List.mem_cons_self, hunexpected]
  · simpa using (List.cons.inj hkind).1

/-- A token is taken in front of a similar text as well, unless it is blank. -/
theorem of_similar (h : t.Before rest) (hrest : Similar rest rest') (hkind : t.kind ≠ .blank) :
    t.Before rest' := by
  obtain ⟨ps, ⟨hchars, hne, hps⟩, hbefore⟩ := h
  refine ⟨ps, ⟨hchars, hne, hps⟩, hbefore.of_similar hrest fun p hp => ?_⟩
  split_ifs at hps
  · rw [hps p hp]
    exact Kind.noConfusion
  · have hmem : p.kind ∈ [t.kind] := hps ▸ List.mem_map_of_mem hp
    rwa [List.mem_singleton.mp hmem]

/-- A token that means something is one piece. -/
theorem exists_piece (h : t.Before rest) (hkind : t.kind ≠ .unexpected) :
    ∃ p : Piece, t.text.toList = p.chars ∧ p.Before rest ∧ p.kind = t.kind := by
  obtain ⟨ps, ⟨hchars, -, hkinds⟩, hbefore⟩ := h
  rw [if_neg hkind] at hkinds
  obtain ⟨p, rfl⟩ : ∃ p, ps = [p] := List.length_eq_one_iff.mp (by
    rw [← List.length_map (f := Piece.kind), hkinds, List.length_singleton])
  exact ⟨p, by simpa using hchars, hbefore.1, by simpa using hkinds⟩

theorem of_piece {p : Piece} (h : p.Before rest) (htext : t.text.toList = p.chars)
    (hkind : p.kind = t.kind) : t.Before rest :=
  ⟨[p], hkind ▸ htext ▸ .self p, h, trivial⟩

/-- A token that means something is taken as before if what follows it goes on with trivia. -/
theorem append_gap (h : t.Before rest) (hkind : t.kind ≠ .unexpected)
    (htrivia : t.kind.isTrivia = false) (hrest' : Gap rest') : t.Before (rest ++ rest') := by
  obtain ⟨p, htext, hp, hpkind⟩ := h.exists_piece hkind
  refine .of_piece ?_ htext hpkind
  have hsame : pieceAt p.first (p.more ++ rest) = p := hp
  rw [Piece.Before, ← List.append_assoc, pieceAt_append_gap _ _ hrest', hsame]
  · rwa [hsame, hpkind]
  · rwa [hsame, hpkind]

/-- How a token that means something has been taken. -/
private theorem takes (h : t.Before rest) (hkind : t.kind ≠ .unexpected) :
    ∃ c more, t.text.toList = c :: more ∧ t.kind.Spells (c :: more) ∧
      t.kind.Takes c more (more ++ rest) := by
  obtain ⟨p, htext, hp, hpkind⟩ := h.exists_piece hkind
  have hspells := spells_pieceAt p.first (p.more ++ rest)
  have htakes := takes_pieceAt p.first (p.more ++ rest)
  rw [Piece.Before] at hp
  rw [hp, hpkind] at hspells htakes
  exact ⟨p.first, p.more, htext, hspells, htakes⟩

private theorem spells (h : t.Before rest) (hkind : t.kind ≠ .unexpected) :
    t.kind.Spells t.text.toList := by
  obtain ⟨c, more, htext, hspells, -⟩ := h.takes hkind
  rwa [htext]

/-- Blank tokens are blank. -/
theorem isSpace_of_blank (h : t.Before rest) (hkind : t.kind = .blank) :
    ∃ c more, t.text.toList = c :: more ∧ ∀ d ∈ c :: more, isSpace d = true := by
  obtain ⟨c, more, htext, -, htakes⟩ := h.takes (hkind ▸ Kind.noConfusion)
  rw [hkind] at htakes
  obtain ⟨hc, hmore⟩ := htakes
  refine ⟨c, more, htext, List.forall_mem_cons.mpr ⟨hc, fun d hd => ?_⟩⟩
  rw [hmore] at hd
  exact List.all_eq_true.mp List.all_takeWhile d hd

/-- No token is empty. -/
theorem ne_nil (h : t.Before rest) : t.text.toList ≠ [] := by
  obtain ⟨ps, ⟨hchars, hne, -⟩, -⟩ := h
  obtain ⟨p, ps, rfl⟩ := List.exists_cons_of_ne_nil hne
  rw [hchars]
  exact List.cons_ne_nil _ _

/-- No other token begins with blank space. -/
theorem isSpace_of_head? (h : t.Before rest) (hkind : t.kind ≠ .blank) :
    ∀ d ∈ t.text.toList.head?, isSpace d = false := by
  obtain ⟨ps, ⟨hchars, hne, hkinds⟩, hbefore⟩ := h
  obtain ⟨p, ps, rfl⟩ := List.exists_cons_of_ne_nil hne
  rw [hchars]
  rintro _ ⟨⟩
  refine hbefore.1.isSpace_first ?_
  split_ifs at hkinds with hunexpected
  · rw [hkinds p List.mem_cons_self]
    exact Kind.noConfusion
  · rwa [(List.cons.inj hkinds).1]

/-- A comment begins with a slash. -/
theorem exists_of_isComment (h : t.Before rest) (hkind : t.kind.isComment = true) :
    ∃ more, t.text.toList = '/' :: more := by
  have hne : t.kind ≠ .unexpected := by
    intro heq
    rw [heq] at hkind
    cases hkind
  have hspells := h.spells hne
  unfold Kind.isComment at hkind
  split at hkind
  · rename_i heq
    rw [heq] at hspells
    obtain ⟨body, hbody⟩ := hspells
    exact ⟨_, hbody⟩
  · rename_i heq
    rw [heq] at hspells
    obtain ⟨body, hbody⟩ := hspells
    exact ⟨_, hbody⟩
  · cases hkind

/-- A line comment goes up to a line feed. -/
theorem head?_of_lineComment (h : t.Before rest) (hkind : t.kind = .lineComment) :
    ∀ d ∈ rest.head?, d = '\n' := by
  obtain ⟨c, more, -, -, htakes⟩ := h.takes (hkind ▸ Kind.noConfusion)
  rw [hkind] at htakes
  obtain ⟨-, ds, hds, hmore⟩ := htakes
  rw [hmore, List.cons_append] at hds
  intro d hd
  simpa using head?_of_takeWhile_append (List.cons.inj hds).2 d hd

/-- A line comment stays on its line. -/
theorem lineFeed_not_mem_of_lineComment (h : t.Before rest) (hkind : t.kind = .lineComment) :
    '\n' ∉ t.text.toList := by
  obtain ⟨c, more, htext, -, htakes⟩ := h.takes (hkind ▸ Kind.noConfusion)
  rw [hkind] at htakes
  obtain ⟨rfl, ds, -, rfl⟩ := htakes
  rw [htext]
  intro hmem
  have htaken : '\n' ∈ ds.takeWhile (· ≠ '\n') := by simpa using hmem
  simpa using List.all_eq_true.mp List.all_takeWhile _ htaken

/-- A brace or a semicolon is taken in front of any name. -/
theorem exists_of_ender (h : t.Before rest)
    (hkind : t.kind ∈ [Kind.braceOpen, .braceClose, .semicolon]) :
    ∃ d, t.text.toList = [d] ∧ stops d = true ∧
      ∀ rest' : List Char, (∀ e ∈ rest'.head?, Name.isPart e = true) → t.Before rest' := by
  have hsigns : ∀ kind ∈ [Kind.braceOpen, .braceClose, .semicolon], ∀ c more cs,
      kind.Takes c more cs → (kind, c, more) ∈ punctuation ∧ more = [] ∧ stops c = true := by
    simp [Kind.Takes, punctuation]
    decide
  have hne : t.kind ≠ .unexpected := by
    rintro heq
    rw [heq] at hkind
    exact absurd hkind (by decide)
  obtain ⟨c, more, htext, -, htakes⟩ := h.takes hne
  obtain ⟨hsign, rfl, hstops⟩ := hsigns t.kind hkind c more _ htakes
  refine ⟨c, htext, hstops, fun rest' hrest' => ?_⟩
  refine .of_piece (p := ⟨t.kind, c, []⟩) (sign_before hsign fun e he => ?_) htext rfl
  have hbar : e ≠ '|' := by
    rintro rfl
    exact absurd (hrest' _ he) (by decide)
  simp only [List.mem_cons, List.not_mem_nil, or_false] at hkind
  rcases hkind with hkind | hkind | hkind <;> simp [apart, hkind, hbar]

/-- A token gives its word, if it is no trivia. -/
theorem wordsOf_append (h : t.Before rest)
    (hrest : t.kind = .unexpected → ∀ p ∈ (pieces rest).head?, p.kind ≠ .unexpected) :
    wordsOf (t.text.toList ++ rest) = words [t] ++ wordsOf rest := by
  obtain ⟨ps, ⟨hchars, hne, hkind⟩, hbefore⟩ := h
  rw [wordsOf_eq, wordsOf_eq, hchars, hbefore.pieces_append]
  have htext : t.text = String.ofList (ps.flatMap Piece.chars) := by
    rw [← hchars, String.ofList_toList]
  split_ifs at hkind with hunexpected
  · obtain ⟨p, hp, hpchars, hjoin⟩ := joinUnexpected_append_of_head? hkind hne (hrest hunexpected)
    rw [hjoin, List.filter_cons_of_pos (by simp [hp, Kind.isTrivia, Kind.isComment]), List.map_cons]
    have hword : p.asWord = t.word := by
      rw [Piece.asWord, word, hp, hpchars, htext, hunexpected]
    simp [hword, words, hunexpected, Kind.isTrivia, Kind.isComment]
  · obtain ⟨p, rfl⟩ : ∃ p, ps = [p] := List.length_eq_one_iff.mp (by
      rw [← List.length_map (f := Piece.kind), hkind, List.length_singleton])
    obtain hp : p.kind = t.kind := by simpa using hkind
    have hword : p.asWord = t.word := by
      rw [Piece.asWord, word, hp, htext]
      simp
    rw [List.singleton_append, joinUnexpected_cons_of_ne (hp ▸ hunexpected), words]
    simp only [List.filter_cons, hp]
    split_ifs <;> simp [hword]

end Before

/-- A piece that means something gives one word, or none if it is trivia. -/
theorem Piece.Before.wordsOf_append {p : Piece} {rest : List Char} (h : p.Before rest)
    (hkind : p.kind ≠ .unexpected) :
    wordsOf (p.chars ++ rest) =
      words [⟨p.kind, String.ofList p.chars, default⟩] ++ wordsOf rest := by
  have htoken : Token.Before ⟨p.kind, String.ofList p.chars, default⟩ rest :=
    .of_piece h String.toList_ofList rfl
  rw [← htoken.wordsOf_append fun hunexpected => absurd hunexpected hkind, String.toList_ofList]

/-! ### The tokens of a source -/

/-- Pieces that are taken one after the other can be taken in two parts. -/
private theorem Piece.AllBefore.append_iff {ps qs : List Piece} {rest : List Char} :
    AllBefore (ps ++ qs) rest ↔
      AllBefore ps (qs.flatMap Piece.chars ++ rest) ∧ AllBefore qs rest := by
  induction ps with
  | nil => simp [AllBefore]
  | cons p ps ih => simp [AllBefore, ih, and_assoc]

/-- Joining puts unexpected pieces together, and leaves no two of them side by side. -/
private theorem exists_groups (ps : List Piece) :
    ∃ groups : List (List Piece), groups.flatten = ps ∧
      List.Forall₂ (fun (p : Piece) group => p.kind.MadeOf p.chars group) (joinUnexpected ps)
        groups ∧
      (joinUnexpected ps).IsChain fun p q => p.kind = .unexpected → q.kind ≠ .unexpected := by
  induction ps with
  | nil => exact ⟨[], rfl, .nil, .nil⟩
  | cons p ps ih =>
    obtain ⟨groups, rfl, hgroups, hchain⟩ := ih
    rw [joinUnexpected]
    split
    · rename_i hnil
      rw [hnil] at hgroups
      cases hgroups
      exact ⟨[[p]], rfl, .cons (.self p) .nil, .singleton p⟩
    · rename_i q qs hcons
      rw [hcons] at hgroups hchain
      obtain ⟨group, groups, hq, hqs, rfl⟩ := List.forall₂_cons_left_iff.mp hgroups
      -- A piece joins the group behind it if both are unexpected.
      split_ifs with hboth
      · refine ⟨(p :: group) :: groups, rfl, .cons ⟨?_, List.cons_ne_nil p group, ?_⟩ hqs, ?_⟩
        · rw [List.flatMap_cons, ← hq.chars]
          rfl
        · have hkinds := hq.kinds
          rw [if_pos hboth.2] at hkinds
          exact List.forall_mem_cons.mpr ⟨hboth.1, hkinds⟩
        · obtain ⟨hnext, htail⟩ := List.isChain_cons.mp hchain
          exact List.isChain_cons.mpr ⟨fun r hr _ => hnext r hr hboth.2, htail⟩
      · refine ⟨[p] :: group :: groups, rfl, .cons (.self p) (.cons hq hqs), ?_⟩
        exact List.isChain_cons_cons.mpr ⟨fun hp hq => hboth ⟨hp, hq⟩, hchain⟩

/-- Tokens that joined pieces become are taken one after the other; unexpected ones have nothing
unexpected behind them. -/
private theorem lexed_place {ps : List Piece} {groups : List (List Piece)}
    (h : List.Forall₂ (fun (p : Piece) group => p.kind.MadeOf p.chars group) ps groups)
    (hbefore : Piece.AllBefore groups.flatten [])
    (hchain : ps.IsChain fun p q => p.kind = .unexpected → q.kind ≠ .unexpected) (offset : ℕ) :
    Lexed (place offset ps) := by
  induction h generalizing offset with
  | nil => trivial
  | @cons p group ps groups hp hps ih =>
    obtain ⟨hnext, htail⟩ := List.isChain_cons.mp hchain
    rw [List.flatten_cons, Piece.AllBefore.append_iff, List.append_nil] at hbefore
    have hchars : groups.flatten.flatMap Piece.chars = ps.flatMap Piece.chars := by
      clear ih hbefore hnext htail hchain
      induction hps with
      | nil => rfl
      | cons hq _ ih =>
        rw [List.flatten_cons, List.flatMap_append, List.flatMap_cons, ih, ← hq.chars]
    refine ⟨⟨group, ?_, ?_⟩, fun hkind u hu => ?_, ih hbefore.2 htail _⟩
    · rwa [String.toList_ofList]
    · rw [flatMap_text_place, ← hchars]
      exact hbefore.1
    · cases ps with
      | nil => cases hu
      | cons q ps =>
        cases hu
        exact hnext q rfl hkind

/-- **Each token of a source is taken from what is left of it.** -/
theorem lexed_scan (source : String) : Lexed (scan source) := by
  obtain ⟨groups, hflatten, hgroups, hchain⟩ := exists_groups (pieces source.toList)
  exact lexed_place hgroups (hflatten ▸ allBefore_pieces _) hchain 0

end Reifier.Token
