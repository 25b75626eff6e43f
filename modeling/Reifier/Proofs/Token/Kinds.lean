import Reifier.Proofs.Name
import Reifier.Proofs.Token.Boundary

/-!
# What the kind of a token says about its characters

An identifier token spells an identifier, a number is made of letters, digits, points and signs, a
comment stands between its marks, and what is neither free text nor an identifier holds no
underscore (`spells_of_mem_scan`). Strings, templates and unexpected text may hold anything.
-/

namespace Reifier.Token

/-- The characters of numbers. -/
def isNumeric (c : Char) : Bool := c.isAlphanum || c = '.' || c = '+' || c = '-'

/-- What the characters of a token are like. -/
def Kind.Spells : Kind → List Char → Prop
  | .identifier, cs => Name.isIdentifierChars cs = true
  | .lineComment, cs => ∃ body, cs = ['/', '/'] ++ body
  | .blockComment, cs => ∃ body, cs = ['/', '*'] ++ body ++ ['*', '/']
  | .number, cs | .bigInt, cs => ∀ c ∈ cs, isNumeric c = true
  | .string, _ | .template, _ | .unexpected, _ => True
  | _, cs => '_' ∉ cs

/-! ### Pieces -/

/-- A comment that is closed ends in its closing mark. -/
private theorem exists_blockRun_eq {cs : List Char} (h : (blockRun cs).closed = true) :
    ∃ body, (blockRun cs).taken = body ++ ['*', '/'] := by
  fun_induction blockRun cs with
  | case1 => cases h
  | case2 => exact ⟨[], rfl⟩
  | case3 c cs _ ih =>
    obtain ⟨body, hbody⟩ := ih h
    exact ⟨c :: body, congrArg (c :: ·) hbody⟩

/-- A run does not hold what would have ended it. -/
private theorem not_mem_takeWhile {p : Char → Bool} {d : Char} (hd : p d = false) (cs : List Char) :
    d ∉ cs.takeWhile p :=
  fun h => absurd (List.all_eq_true.mp List.all_takeWhile d h) (Bool.eq_false_iff.mp hd)

private theorem isNumeric_of_isDigit {c : Char} (h : c.isDigit = true) : isNumeric c = true := by
  have hdef : c.isAlphanum = (c.isAlpha || c.isDigit) := rfl
  rw [isNumeric, hdef, h, Bool.or_true, Bool.true_or, Bool.true_or, Bool.true_or]

/-- Hexadecimal digits may stand in a number. -/
private theorem isNumeric_of_isHexDigit {c : Char} (h : Hex.isDigit c = true) :
    isNumeric c = true := by
  have hletter : c.isAlpha = true ∨ c.isDigit = true := by
    rw [Name.isAlpha_iff, Name.isDigit_iff]
    unfold Hex.isDigit Hex.digit? at h
    dsimp only at h
    split_ifs at h with hdigit hcapital hsmall
    · exact .inr hdigit
    · exact .inl (by omega)
    · exact .inl (by omega)
    · cases h
  have hdef : c.isAlphanum = (c.isAlpha || c.isDigit) := rfl
  rw [isNumeric, hdef, Bool.or_eq_true_iff.mpr hletter, Bool.true_or, Bool.true_or, Bool.true_or]

private theorem isNumeric_of_mem_takeWhile {p : Char → Bool}
    (hp : ∀ c, p c = true → isNumeric c = true)
    (cs : List Char) : ∀ c ∈ cs.takeWhile p, isNumeric c = true :=
  fun c hc => hp c (List.all_eq_true.mp List.all_takeWhile c hc)

private theorem isNumeric_of_mem_fractionPart (cs : List Char) :
    ∀ c ∈ fractionPart cs, isNumeric c = true := by
  have hdigits := isNumeric_of_mem_takeWhile (p := Char.isDigit) fun _ => isNumeric_of_isDigit
  unfold fractionPart
  split
  · rename_i ds
    split
    · exact List.forall_mem_nil _
    · exact List.forall_mem_cons.mpr ⟨by decide, hdigits ds⟩
  · exact List.forall_mem_nil _

/-- An exponent is made of characters that may stand in a number. -/
private theorem isNumeric_of_mem_exponentPart (cs : List Char) :
    ∀ c ∈ exponentPart cs, isNumeric c = true := by
  have hdigits := isNumeric_of_mem_takeWhile (p := Char.isDigit) fun _ => isNumeric_of_isDigit
  have hmark : ∀ (a b c : Char), isNumeric a = true → isNumeric b = true → c = a ∨ c = b →
      isNumeric c = true := by
    rintro a b c ha hb (rfl | rfl)
    · exact ha
    · exact hb
  unfold exponentPart
  split
  · rename_i e cs
    split_ifs with he
    · have he' := hmark 'e' 'E' e (by decide) (by decide) he
      split
      · rename_i s rest
        split_ifs with hs
        · have hs' := hmark '+' '-' s (by decide) (by decide) hs
          split
          · exact List.forall_mem_nil _
          · exact List.forall_mem_cons.mpr ⟨he', List.forall_mem_cons.mpr ⟨hs', hdigits rest⟩⟩
        · split
          · exact List.forall_mem_nil _
          · exact List.forall_mem_cons.mpr ⟨he', hdigits _⟩
      · exact List.forall_mem_nil _
    · exact List.forall_mem_nil _
  · exact List.forall_mem_nil _

/-- A number is made of letters, digits, points and signs. -/
private theorem isNumeric_of_mem_numberPiece {c : Char} (hc : c.isDigit = true) (cs : List Char) :
    ∀ d ∈ (numberPiece c cs).chars, isNumeric d = true := by
  have hdigits := isNumeric_of_mem_takeWhile (p := Char.isDigit) fun _ => isNumeric_of_isDigit
  have hfirst := isNumeric_of_isDigit hc
  unfold numberPiece
  dsimp only
  split_ifs with hhex hbig
  · exact List.forall_mem_cons.mpr ⟨hfirst, List.forall_mem_append.mpr
      ⟨hdigits cs, List.forall_mem_singleton.mpr rfl⟩⟩
  · exact List.forall_mem_cons.mpr ⟨hfirst, List.forall_mem_append.mpr
      ⟨List.forall_mem_append.mpr ⟨hdigits cs, isNumeric_of_mem_fractionPart _⟩,
        isNumeric_of_mem_exponentPart _⟩⟩
  · refine List.forall_mem_cons.mpr ⟨hfirst, ?_⟩
    unfold hexPart at hhex ⊢
    cases cs with
    | nil => exact absurd rfl hhex
    | cons x cs =>
      dsimp only at hhex ⊢
      split_ifs at hhex ⊢ with hx
      · have hmark : isNumeric x = true := by
          rcases hx.2 with rfl | rfl <;> decide
        exact List.forall_mem_cons.mpr ⟨hmark,
          isNumeric_of_mem_takeWhile (fun _ => isNumeric_of_isHexDigit) cs⟩
      · exact absurd rfl hhex

/-- What a digit begins is a number or a big number. -/
private theorem numberPiece_kind (c : Char) (cs : List Char) :
    (numberPiece c cs).kind = .number ∨ (numberPiece c cs).kind = .bigInt := by
  unfold numberPiece
  dsimp only
  split_ifs
  · exact .inr rfl
  · exact .inl rfl
  · exact .inl rfl

/-- A number is spelled as one: it begins with a digit and goes on with characters that may stand in
a number. -/
private theorem spells_numberPiece {c : Char} (hc : c.isDigit = true) (cs : List Char) :
    (numberPiece c cs).kind.Spells (numberPiece c cs).chars := by
  have hplain := isNumeric_of_mem_numberPiece hc cs
  rcases numberPiece_kind c cs with hkind | hkind
  · rw [hkind]
    exact hplain
  · rw [hkind]
    exact hplain

/-- A run that is not closed gives unexpected text, which may hold anything. -/
private theorem Run.spells_piece {run : Run} {kind : Kind} {first : Char}
    (h : run.closed = true → kind.Spells (first :: run.taken)) :
    (run.piece kind first).kind.Spells (run.piece kind first).chars := by
  unfold Run.piece
  cases hclosed : run.closed with
  | true => exact h hclosed
  | false => trivial

/-- A comment is spelled as one. -/
private theorem spells_slashPiece (cs : List Char) :
    (slashPiece cs).kind.Spells (slashPiece cs).chars := by
  unfold slashPiece
  split
  · rename_i ds
    exact ⟨ds.takeWhile (· ≠ '\n'), rfl⟩
  · rename_i ds
    refine Run.spells_piece fun hclosed => ?_
    have hclosed' : (blockRun ds).closed = true := hclosed
    obtain ⟨body, hbody⟩ := exists_blockRun_eq hclosed'
    exact ⟨body, congrArg (['/', '*'] ++ ·) hbody⟩
  · trivial

/-- A sign is spelled as the table has it. -/
private theorem spells_of_mem_punctuation : ∀ e ∈ punctuation, e.1.Spells (e.2.1 :: e.2.2) := by
  simp [punctuation, Kind.Spells]

/-- **A piece is spelled as its kind asks.** -/
theorem spells_pieceAt (c : Char) (cs : List Char) :
    (pieceAt c cs).kind.Spells (pieceAt c cs).chars := by
  unfold pieceAt
  split_ifs with hspace hstart hdigit hquote htemplate hslash
  · have hfirst : '_' ≠ c := by
      rintro rfl
      exact absurd hspace (by decide)
    exact List.not_mem_cons_of_ne_of_not_mem hfirst (not_mem_takeWhile (by decide) cs)
  · change (Name.isStart c && (cs.takeWhile Name.isPart).all Name.isPart) = true
    rw [hstart, Bool.true_and]
    exact List.all_takeWhile
  · exact spells_numberPiece hdigit cs
  · exact Run.spells_piece fun _ => trivial
  · exact Run.spells_piece fun _ => trivial
  · subst hslash
    exact spells_slashPiece cs
  · cases hpiece : punctuationPiece? c cs with
    | none => trivial
    | some p =>
      obtain ⟨e, he, rfl, -⟩ := exists_of_punctuationPiece? hpiece
      exact spells_of_mem_punctuation e he

/-! ### Tokens -/

/-- What holds of all pieces holds of them joined, if it holds of unexpected ones anyway. -/
private theorem forall_mem_joinUnexpected {P : Piece → Prop} {ps : List Piece} (h : ∀ p ∈ ps, P p)
    (hunexpected : ∀ p : Piece, p.kind = .unexpected → P p) : ∀ p ∈ joinUnexpected ps, P p := by
  induction ps with
  | nil => exact List.forall_mem_nil P
  | cons p ps ih =>
    obtain ⟨hp, hps⟩ := List.forall_mem_cons.mp h
    have hjoined := ih hps
    rw [joinUnexpected]
    split
    · exact List.forall_mem_singleton.mpr hp
    · rename_i q qs hcons
      rw [hcons] at hjoined
      split_ifs
      · exact List.forall_mem_cons.mpr ⟨hunexpected _ rfl, (List.forall_mem_cons.mp hjoined).2⟩
      · exact List.forall_mem_cons.mpr ⟨hp, hjoined⟩

/-- A token has the kind and the text of a piece. -/
private theorem exists_of_mem_place {ps : List Piece} {offset : ℕ} {t : Token}
    (h : t ∈ place offset ps) : ∃ p ∈ ps, t.kind = p.kind ∧ t.text = String.ofList p.chars := by
  induction ps generalizing offset with
  | nil => cases h
  | cons p ps ih =>
    rcases List.mem_cons.mp h with rfl | h
    · exact ⟨p, List.mem_cons_self, rfl, rfl⟩
    · obtain ⟨q, hq, hkind, htext⟩ := ih h
      exact ⟨q, List.mem_cons_of_mem p hq, hkind, htext⟩

/-- A piece becomes a token of its kind and text. -/
theorem exists_mem_place {ps : List Piece} {p : Piece} (h : p ∈ ps) (offset : ℕ) :
    ∃ t ∈ place offset ps, t.kind = p.kind ∧ t.text = String.ofList p.chars := by
  induction ps generalizing offset with
  | nil => cases h
  | cons q ps ih =>
    rcases List.mem_cons.mp h with rfl | h
    · exact ⟨_, List.mem_cons_self, rfl, rfl⟩
    · obtain ⟨t, ht, hkind, htext⟩ := ih h (offset + Text.byteLength q.chars)
      exact ⟨t, List.mem_cons_of_mem _ ht, hkind, htext⟩

/-- Joining leaves pieces that mean something as they are, so these are spelled as their kind
asks. -/
theorem spells_of_mem_joinUnexpected {cs : List Char} {p : Piece}
    (h : p ∈ joinUnexpected (pieces cs)) : p.kind.Spells p.chars := by
  have hpieces : ∀ p ∈ pieces cs, p.kind.Spells p.chars := by
    intro p hp
    obtain ⟨c, ds, rfl⟩ := exists_of_mem_piecesAfter hp
    exact spells_pieceAt c ds
  have hunexpected : ∀ p : Piece, p.kind = .unexpected → p.kind.Spells p.chars := by
    intro p hkind
    rw [hkind]
    trivial
  exact forall_mem_joinUnexpected hpieces hunexpected p h

/-- **The characters of a token are such as its kind says.** -/
theorem spells_of_mem_scan {source : String} {t : Token} (h : t ∈ scan source) :
    t.kind.Spells t.text.toList := by
  obtain ⟨p, hp, hkind, htext⟩ := exists_of_mem_place h
  rw [hkind, htext, String.toList_ofList]
  exact spells_of_mem_joinUnexpected hp

/-- The identifiers among tokens. -/
def names (ts : List Token) : List String :=
  (ts.filter (·.kind = .identifier)).map Token.text

/-- The name of an identifier token is one of the names. -/
theorem mem_names {ts : List Token} {t : Token} (h : t ∈ ts) (hkind : t.kind = .identifier) :
    t.text ∈ names ts :=
  List.mem_map_of_mem (List.mem_filter.mpr ⟨h, decide_eq_true hkind⟩)

end Reifier.Token
