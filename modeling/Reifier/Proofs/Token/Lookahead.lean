import Reifier.Proofs.Token.Number
import Reifier.Proofs.Token.Pieces

/-!
# How far a piece looks

A piece is a part of the text, and what follows it decides how long it is. Runs look at one
character behind them at most (`Run.Local`), and so do names and signs; a number may look further,
but not past a character that neither a name nor a number goes on with (`stops`).

Two texts are `Alike` if no piece that ends in front of the first one could tell, put in front of
the second one instead (`pieceAt_append_alike`): they begin with the same such character, or the
second one is empty, or a comment has been put in place of blank space.

A piece that means something stays what it is if a text goes on where it has come to its end, with
blank space or a slash (`pieceAt_append_gap`).
-/

namespace Reifier.Token

/-! ### Pieces are parts of the text -/

/-- What a string takes stands at the front of the text. -/
private theorem stringRun_taken_isPrefix (quote : Char) (cs : List Char) :
    (stringRun quote cs).taken <+: cs := by
  fun_induction stringRun quote cs <;> simp_all [Run.after]

private theorem templateRun_taken_isPrefix (cs : List Char) : (templateRun cs).taken <+: cs := by
  fun_induction templateRun cs <;> simp_all [Run.after]

theorem blockRun_taken_isPrefix (cs : List Char) : (blockRun cs).taken <+: cs := by
  fun_induction blockRun cs <;> simp_all [Run.after]

private theorem fractionPart_isPrefix (cs : List Char) : fractionPart cs <+: cs := by
  unfold fractionPart
  split
  · rename_i cs
    have hdigits := List.takeWhile_prefix (l := cs) Char.isDigit
    split
    · exact List.nil_prefix
    · rw [List.cons_prefix_cons]
      exact ⟨rfl, hdigits⟩
  · exact List.nil_prefix

/-- An exponent stands at the front of the text, if there is one. -/
private theorem exponentPart_isPrefix (cs : List Char) : exponentPart cs <+: cs := by
  have htake : ∀ ds : List Char, ds.takeWhile Char.isDigit <+: ds := fun ds =>
    List.takeWhile_prefix Char.isDigit
  unfold exponentPart
  split
  · split_ifs
    · split
      · split_ifs
        · split
          · exact List.nil_prefix
          · simpa only [List.cons_prefix_cons, true_and] using htake _
        · split
          · exact List.nil_prefix
          · simpa only [List.cons_prefix_cons, true_and] using htake _
      · exact List.nil_prefix
    · exact List.nil_prefix
  · exact List.nil_prefix

/-- A number goes on with the text behind its first digit: the digits, the letter of a big number,
or a fraction and an exponent one behind the other. -/
theorem numberPiece_more_isPrefix (c : Char) (cs : List Char) : (numberPiece c cs).more <+: cs := by
  unfold numberPiece
  dsimp only
  split_ifs with hhex hn
  · obtain ⟨rest, hrest⟩ : ∃ rest, cs.dropWhile Char.isDigit = 'n' :: rest := by
      cases hdrop : cs.dropWhile Char.isDigit with
      | nil => simp [hdrop] at hn
      | cons d rest =>
        rw [hdrop] at hn
        cases hn
        exact ⟨rest, rfl⟩
    refine ⟨rest, ?_⟩
    rw [List.append_assoc, List.singleton_append, ← hrest, List.takeWhile_append_dropWhile]
  · obtain ⟨after, hafter⟩ := fractionPart_isPrefix (cs.dropWhile Char.isDigit)
    obtain ⟨rest, hrest⟩ := exponentPart_isPrefix after
    -- The exponent begins where the fraction ends.
    have hdrop : (cs.dropWhile Char.isDigit).drop
        (fractionPart (cs.dropWhile Char.isDigit)).length = after := by
      have hboth := congrArg (List.drop (fractionPart (cs.dropWhile Char.isDigit)).length) hafter
      rw [List.drop_left] at hboth
      exact hboth.symm
    refine ⟨rest, ?_⟩
    dsimp only
    rw [hdrop, List.append_assoc, List.append_assoc, hrest, hafter,
      List.takeWhile_append_dropWhile]
  · cases cs with
    | nil => exact absurd rfl hhex
    | cons x cs =>
      change [x] ++ hexPart c (x :: cs) <+: x :: cs
      simp only [hexPart]
      split_ifs
      · simpa only [List.take_succ_cons, List.take_zero, List.singleton_append,
          List.cons_prefix_cons, true_and] using List.takeWhile_prefix Hex.isDigit
      · simp

/-- A comment goes on with the text behind its slash. -/
private theorem slashPiece_more_isPrefix (cs : List Char) : (slashPiece cs).more <+: cs := by
  unfold slashPiece
  split
  · rw [List.cons_prefix_cons]
    exact ⟨rfl, List.takeWhile_prefix _⟩
  · simpa [Run.piece, Run.after] using blockRun_taken_isPrefix _
  · exact List.nil_prefix

/-- A piece of fixed spelling is one of the list, and its spelling stands at the front of the
text. -/
theorem exists_of_punctuationPiece? {c : Char} {cs : List Char} {p : Piece}
    (h : punctuationPiece? c cs = some p) :
    ∃ e ∈ punctuation, p = ⟨e.1, e.2.1, e.2.2⟩ ∧ e.2.1 = c ∧ e.2.2 <+: cs := by
  obtain ⟨e, hfind, rfl⟩ := Option.map_eq_some_iff.mp h
  have he := List.find?_some hfind
  rw [Bool.and_eq_true, decide_eq_true_eq, List.isPrefixOf_iff_prefix] at he
  exact ⟨e, List.mem_of_find?_eq_some hfind, rfl, he.1.symm, he.2⟩

/-- A piece begins with the character that it is taken at, and goes on with the text behind it. -/
theorem pieceAt_isPrefix (c : Char) (cs : List Char) :
    (pieceAt c cs).first = c ∧ (pieceAt c cs).more <+: cs := by
  unfold pieceAt
  split_ifs
  · exact ⟨rfl, List.takeWhile_prefix _⟩
  · exact ⟨rfl, List.takeWhile_prefix _⟩
  · refine ⟨?_, numberPiece_more_isPrefix c cs⟩
    unfold numberPiece
    dsimp only
    split_ifs <;> rfl
  · exact ⟨rfl, stringRun_taken_isPrefix c cs⟩
  · exact ⟨rfl, templateRun_taken_isPrefix cs⟩
  · refine ⟨?_, slashPiece_more_isPrefix cs⟩
    subst_vars
    unfold slashPiece
    split <;> rfl
  · cases hpiece : punctuationPiece? c cs with
    | none => exact ⟨rfl, List.nil_prefix⟩
    | some p =>
      obtain ⟨e, -, rfl, hfirst, hmore⟩ := exists_of_punctuationPiece? hpiece
      exact ⟨hfirst, hmore⟩

/-! ### Runs look at one character -/

/-- A way to take a run that looks at one more character at most. A run that is closed does not
depend on what follows; any other one ends at a line feed or with the text. -/
structure Run.Local (f : List Char → Run) : Prop where
  isPrefix : ∀ cs, (f cs).taken <+: cs
  stop : ∀ {cs rest}, (f cs).taken ++ rest = cs → (f cs).closed = false → ∀ d ∈ rest.head?, d = '\n'
  again : ∀ {cs rest rest'}, (f cs).taken ++ rest = cs →
    ((f cs).closed = true ∨ ∀ d ∈ rest'.head?, rest.head? = some d) →
    f ((f cs).taken ++ rest') = f cs

/-- What the rest of a run begins with is what it began with. -/
private theorem Run.head?_eq_of_again {run : Run} {cs rest rest' : List Char}
    (hnil : run.taken = [] → run.closed = false) (hcs : run.taken ++ rest = cs)
    (hrest : run.closed = true ∨ ∀ d ∈ rest'.head?, rest.head? = some d) :
    ∀ d ∈ (run.taken ++ rest').head?, ∃ ds, cs = d :: ds := by
  intro d hd
  rw [← List.head?_eq_some_iff, ← hcs]
  cases htaken : run.taken with
  | nil =>
    rw [htaken, List.nil_append] at hd
    exact hrest.resolve_left (by simp [hnil htaken]) d hd
  | cons e es => rwa [htaken] at hd

/-- A string of which nothing is taken is not closed, since its closing quote would have been. -/
private theorem open_stringRun_of_nil {quote : Char} {cs : List Char}
    (h : (stringRun quote cs).taken = []) : (stringRun quote cs).closed = false := by
  revert h
  fun_cases stringRun quote cs <;> simp [Run.after]

/-- **A string looks at one character behind it at most.** The induction follows the run; a
backslash that looks further finds what it looks for in what is taken. -/
theorem stringRun_local {quote : Char} (hback : quote ≠ '\\') :
    Run.Local (stringRun quote) where
  isPrefix := stringRun_taken_isPrefix quote
  stop {cs rest} h hopen := by
    fun_induction stringRun quote cs with
    | case1 => simp_all
    | case2 cs ih => exact ih (by simpa [Run.after] using h) hopen
    | case3 c cs hno ih => exact ih (by simpa [Run.after] using h) hopen
    | case4 cs => cases hopen
    | case5 cs => simp_all
    | case6 c cs _ hno hne _ ih => exact ih (by simpa [Run.after] using h) hopen
  again {cs rest rest'} h hrest := by
    -- A backslash looks at the characters behind it, and these are the same in both texts.
    fun_induction stringRun quote cs with
    | case1 =>
      obtain rfl : rest = [] := h
      cases rest' with
      | nil => rw [List.append_nil, stringRun]
      | cons d rest' => simp at hrest
    | case2 cs ih =>
      have hih := ih (by simpa [Run.after] using h) hrest
      simp only [Run.after, List.cons_append, List.nil_append, stringRun.eq_2, hih]
    | case3 c cs hno ih =>
      have hcs : (stringRun quote cs).taken ++ rest = cs := by simpa [Run.after] using h
      have hhead := Run.head?_eq_of_again open_stringRun_of_nil hcs hrest
      simp only [Run.after, List.cons_append, List.nil_append]
      rw [stringRun.eq_3 _ _ _ fun ds hc hds => ?_, ih hcs hrest]
      · rfl
      · obtain ⟨es, hes⟩ := hhead '\n' (by simp [hds])
        exact hno es hc hes
    | case4 cs =>
      rw [List.singleton_append,
        stringRun.eq_4 _ _ _ (fun _ hc _ => hback hc) fun _ _ hc _ => hback hc, if_pos rfl]
    | case5 cs _ _ hne =>
      obtain rfl : rest = '\n' :: cs := h
      cases rest' with
      | nil => rw [List.append_nil, stringRun]
      | cons d rest' =>
        obtain rfl : '\n' = d := by simpa using hrest
        rw [List.nil_append, stringRun.eq_4 _ _ _ (fun _ hc _ => absurd hc (by decide))
          fun _ _ hc _ => absurd hc (by decide), if_neg hne, if_pos rfl]
    | case6 c cs _ hno hne hlf ih =>
      have hcs : (stringRun quote cs).taken ++ rest = cs := by simpa [Run.after] using h
      have hhead := Run.head?_eq_of_again open_stringRun_of_nil hcs hrest
      have hno' : ∀ d ds, c = '\\' → (stringRun quote cs).taken ++ rest' = d :: ds → False := by
        intro d ds hc hds
        obtain ⟨es, hes⟩ := hhead d (by simp [hds])
        exact hno d es hc hes
      simp only [Run.after, List.cons_append, List.nil_append]
      rw [stringRun.eq_4 _ _ _ (fun ds hc => hno' _ _ hc) hno', if_neg hne, if_neg hlf,
        ih hcs hrest]
      rfl

private theorem open_templateRun_of_nil {cs : List Char} (h : (templateRun cs).taken = []) :
    (templateRun cs).closed = false := by
  revert h
  fun_cases templateRun cs <;> simp [Run.after]

/-- **A template looks at one character behind it at most**: the line feed behind a backslash that
ends it. -/
theorem templateRun_local : Run.Local templateRun where
  isPrefix := templateRun_taken_isPrefix
  stop {cs rest} h hopen := by
    fun_induction templateRun cs with
    | case1 => simp_all
    | case2 cs => simp_all
    | case3 c cs hlf ih => exact ih (by simpa [Run.after] using h) hopen
    | case4 cs => cases hopen
    | case5 c cs hno hne ih => exact ih (by simpa [Run.after] using h) hopen
  again {cs rest rest'} h hrest := by
    fun_induction templateRun cs with
    | case1 =>
      obtain rfl : rest = [] := h
      cases rest' with
      | nil => rfl
      | cons d rest' => simp at hrest
    | case2 cs =>
      obtain rfl : rest = '\n' :: cs := by simpa using h
      cases rest' with
      | nil => rfl
      | cons d rest' =>
        obtain rfl : '\n' = d := by simpa using hrest
        rfl
    | case3 c cs hlf ih =>
      have hih := ih (by simpa [Run.after] using h) hrest
      simp only [Run.after, List.cons_append, List.nil_append, templateRun.eq_2, if_neg hlf, hih]
    | case4 cs => rfl
    | case5 c cs hno hne ih =>
      have hcs : (templateRun cs).taken ++ rest = cs := by simpa [Run.after] using h
      have hhead := Run.head?_eq_of_again open_templateRun_of_nil hcs hrest
      simp only [Run.after, List.cons_append, List.nil_append]
      rw [templateRun.eq_3 _ _ fun d ds hc hds => ?_, if_neg hne, ih hcs hrest]
      · rfl
      · -- What follows is still begun by the same character, and so is no escape.
        obtain ⟨es, hes⟩ := hhead d (by simp [hds])
        exact hno d es hc hes

private theorem open_blockRun_of_nil {cs : List Char} (h : (blockRun cs).taken = []) :
    (blockRun cs).closed = false := by
  revert h
  fun_cases blockRun cs <;> simp [Run.after]

/-- **A block comment looks at nothing behind it** once it is closed, and takes the whole text
otherwise. -/
theorem blockRun_local : Run.Local blockRun where
  isPrefix := blockRun_taken_isPrefix
  stop {cs rest} h hopen := by
    fun_induction blockRun cs with
    | case1 => simp_all
    | case2 cs => cases hopen
    | case3 c cs hno ih => exact ih (by simpa [Run.after] using h) hopen
  again {cs rest rest'} h hrest := by
    fun_induction blockRun cs with
    | case1 =>
      obtain rfl : rest = [] := h
      cases rest' with
      | nil => rfl
      | cons d rest' => simp at hrest
    | case2 cs => rfl
    | case3 c cs hno ih =>
      have hcs : (blockRun cs).taken ++ rest = cs := by simpa [Run.after] using h
      have hhead := Run.head?_eq_of_again open_blockRun_of_nil hcs hrest
      simp only [Run.after, List.cons_append, List.nil_append]
      rw [blockRun.eq_3 _ _ fun ds hc hds => ?_, ih hcs hrest]
      · rfl
      · -- What follows still begins with the same character, and so does not close the comment.
        obtain ⟨es, hes⟩ := hhead '/' (by simp [hds])
        exact hno es hc hes

/-- The first closing mark closes a comment. -/
theorem blockRun_append {body : List Char} (h : ¬ ['*', '/'] <:+: body) (rest : List Char) :
    blockRun (body ++ '*' :: '/' :: rest) = ⟨body ++ ['*', '/'], true⟩ := by
  induction body with
  | nil => rfl
  | cons c body ih =>
    rw [List.infix_cons_iff, not_or] at h
    rw [List.cons_append, blockRun.eq_3 _ _ fun tail hc htail => ?_, ih h.2]
    · rfl
    · subst hc
      cases body with
      | nil => simp at htail
      | cons d body =>
        obtain ⟨rfl, -⟩ := List.cons.inj htail
        exact h.1 ⟨body, rfl⟩

variable {f : List Char → Run} {cs X S S' : List Char}

/-- What is left behind a run begins with a character that does not belong to it. -/
theorem head?_of_takeWhile_append {p : Char → Bool} {rest : List Char}
    (h : cs.takeWhile p ++ rest = cs) : ∀ d ∈ rest.head?, p d = false := by
  have hrest : rest = cs.dropWhile p :=
    List.append_cancel_left (h.trans (List.takeWhile_append_dropWhile (p := p)).symm)
  intro d hd
  have hstop := List.head?_dropWhile_not p cs
  rw [hrest, Option.mem_def] at hd
  rw [hd] at hstop
  exact hstop

/-- The text of a line, which nothing closes. -/
def lineRun (cs : List Char) : Run := ⟨cs.takeWhile (· ≠ '\n'), false⟩

/-- A line goes on up to a line feed, which it leaves. -/
theorem lineRun_local : Run.Local lineRun where
  isPrefix cs := List.takeWhile_prefix _
  stop h _ d hd := by simpa using head?_of_takeWhile_append h d hd
  again {cs rest rest'} h hrest := by
    have hstop : ∀ d ∈ rest'.head?, decide (d ≠ '\n') = false := fun d hd =>
      head?_of_takeWhile_append h d (hrest.resolve_left Bool.false_ne_true d hd)
    exact congrArg (Run.mk · false) (takeWhile_append_eq hstop fun d hd =>
      List.all_eq_true.mp List.all_takeWhile d hd)

/-! ### Texts that look alike -/

/-- Whether a character goes on with no name and no number, also where only the letter or the sign
of an exponent has been read. -/
def stops (d : Char) : Bool := !Name.isPart d && d ≠ '.' && d ≠ '+' && d ≠ '-'

/-- Two texts that no piece tells apart if it ends in front of the first one. -/
inductive Alike : List Char → List Char → Prop
  | same {d : Char} (hd : stops d = true) (S S' : List Char) : Alike (d :: S) (d :: S')
  | done (S : List Char) : Alike S []
  | comment {d : Char} (hd : d = '/' ∨ isSpace d = true) (S S' : List Char) :
    Alike ('/' :: S) (d :: S')

/-- A run that ends within `X` is the same run in front of a text that looks alike. -/
private theorem Run.Local.append_alike (hf : Run.Local f) (h : Alike S S')
    (hle : (f (X ++ S)).taken.length ≤ X.length) : f (X ++ S') = f (X ++ S) := by
  obtain ⟨rest, hrest⟩ := hf.isPrefix (X ++ S)
  -- What the run leaves of the front stands before what is put in place of the other text.
  obtain ⟨left, hX, hleft⟩ : ∃ left, X = (f (X ++ S)).taken ++ left ∧ rest = left ++ S := by
    rcases List.append_eq_append_iff.mp hrest with ⟨left, hX, hrest⟩ | ⟨left, htaken, hS⟩
    · exact ⟨left, hX, hrest⟩
    · have hnil : left = [] := by
        rw [htaken, List.length_append] at hle
        exact List.eq_nil_of_length_eq_zero (by omega)
      subst hnil
      exact ⟨[], by simpa using htaken.symm, by simpa using hS.symm⟩
  have hagain : f ((f (X ++ S)).taken ++ (left ++ S')) = f (X ++ S) := hf.again hrest ?_
  · rwa [← List.append_assoc, ← hX] at hagain
  · cases hopen : (f (X ++ S)).closed with
    | true => exact .inl rfl
    | false =>
      have hstop := hf.stop hrest hopen
      refine .inr fun d hd => ?_
      rw [hleft] at hstop ⊢
      cases left with
      | cons e left => exact hd
      | nil =>
        cases h with
        | same => exact hd
        | done => cases hd
        | comment => exact absurd (hstop '/' rfl) (by decide)

/-! ### Numbers -/

/-- A text that begins with a character that stops names and numbers, if it has any. -/
def Stops (rest : List Char) : Prop := ∀ d ∈ rest.head?, stops d = true

/-- What stops names and numbers, one condition at a time. -/
theorem stops_iff {d : Char} :
    stops d = true ↔ Name.isPart d = false ∧ d ≠ '.' ∧ d ≠ '+' ∧ d ≠ '-' := by
  simp [stops, and_assoc]

theorem Stops.cons {d : Char} (h : stops d = true) (rest : List Char) : Stops (d :: rest) := by
  rintro _ ⟨⟩
  exact h

private theorem Stops.number {rest : List Char} (h : Stops rest) : StopsNumber rest := fun d hd =>
  have hstops := stops_iff.mp (h d hd)
  ⟨hstops.1, hstops.2.1⟩

/-- An exponent ends where it is stopped, also where only its letter or its sign has been read. -/
private theorem exponentPart_append_stops {rest : List Char} (h : Stops rest) (cs : List Char) :
    exponentPart (cs ++ rest) = exponentPart cs := by
  have hdigits := takeWhile_append_stop h.number.digit
  match cs with
  | [] => exact exponentPart_append h.number rfl
  | [e] =>
    have hnone := hdigits []
    simp only [List.nil_append, List.takeWhile_nil] at hnone
    cases rest with
    | nil => rfl
    | cons d rest =>
      have hd := stops_iff.mp (h d rfl)
      simp [exponentPart, hnone, hd.2.2.1, hd.2.2.2]
  | e :: s :: cs =>
    have hsign := hdigits cs
    have hplain := hdigits (s :: cs)
    simp only [List.cons_append] at hplain
    simp only [List.cons_append, exponentPart, hsign, hplain]

/-- A number ends where it is stopped. -/
theorem numberPiece_append_stops {rest : List Char} (h : Stops rest) (c : Char) (cs : List Char) :
    numberPiece c (cs ++ rest) = numberPiece c cs := by
  have hstop := h.number
  obtain ⟨tail, htail⟩ : ∃ tail, cs.dropWhile Char.isDigit = tail := ⟨_, rfl⟩
  have hdrop : (tail ++ rest).drop (fractionPart tail).length =
      tail.drop (fractionPart tail).length ++ rest :=
    List.drop_append_of_le_length (fractionPart_isPrefix tail).length_le
  unfold numberPiece
  simp only [hexPart_append hstop, takeWhile_append_stop hstop.digit,
    dropWhile_append_stop hstop.digit, htail, fractionPart_append hstop, hdrop,
    exponentPart_append_stops h, head?_append_eq_letter_iff hstop]
  by_cases hhex : (hexPart c cs).isEmpty = true
  · rw [if_pos hhex, if_pos hhex]
  · rw [if_neg hhex, if_neg hhex]
    cases cs with
    | nil => exact absurd rfl hhex
    | cons x cs => rfl

/-- A run that fits into the front of a text is taken from the front alone. -/
private theorem takeWhile_of_le {p : Char → Bool} (h : ((X ++ S).takeWhile p).length ≤ X.length) :
    X.takeWhile p = (X ++ S).takeWhile p := by
  rw [List.takeWhile_append] at h ⊢
  split_ifs at h ⊢ with hall
  · rw [List.length_append] at h
    have hnil : S.takeWhile p = [] := List.eq_nil_of_length_eq_zero (by omega)
    rw [hnil, List.append_nil]
    exact (List.takeWhile_prefix p).eq_of_length hall
  · rfl

/-- An exponent that ends within a text is that of the text alone. -/
private theorem exponentPart_of_le (h : (exponentPart (X ++ S)).length ≤ X.length) :
    exponentPart X = exponentPart (X ++ S) := by
  match X with
  | [] => exact (List.eq_nil_of_length_eq_zero (Nat.le_zero.mp h)).symm
  -- With only the letter read, an exponent would take more than there is.
  | [e] =>
    by_cases he : e = 'e' ∨ e = 'E'
    · cases S with
      | nil => rfl
      | cons s S =>
        simp only [List.singleton_append, exponentPart, if_pos he] at h ⊢
        split_ifs at h ⊢ <;> split at h <;> simp_all
    · rw [List.singleton_append, exponentPart_of_not he, exponentPart_of_not he]
  | e :: s :: X =>
    by_cases he : e = 'e' ∨ e = 'E'
    · simp only [List.cons_append, exponentPart, if_pos he] at h ⊢
      split_ifs at h ⊢
      · have hdigits : X.takeWhile Char.isDigit = (X ++ S).takeWhile Char.isDigit := by
          refine takeWhile_of_le ?_
          cases hds : (X ++ S).takeWhile Char.isDigit <;> simp_all
        rw [hdigits]
      · have hdigits : (s :: X).takeWhile Char.isDigit = (s :: X ++ S).takeWhile Char.isDigit := by
          refine takeWhile_of_le ?_
          rw [List.cons_append]
          cases hds : (s :: (X ++ S)).takeWhile Char.isDigit <;> simp_all
        rw [hdigits, List.cons_append]
    · rw [List.cons_append, exponentPart_of_not he, exponentPart_of_not he]

/-- A fraction that ends within a text is that of the text alone. -/
private theorem fractionPart_of_le (h : (fractionPart (X ++ S)).length ≤ X.length) :
    fractionPart X = fractionPart (X ++ S) := by
  cases X with
  | nil => exact (List.eq_nil_of_length_eq_zero (Nat.le_zero.mp h)).symm
  | cons c X =>
    by_cases hc : c = '.'
    · subst hc
      simp only [List.cons_append, fractionPart] at h ⊢
      have hdigits : X.takeWhile Char.isDigit = (X ++ S).takeWhile Char.isDigit := by
        refine takeWhile_of_le ?_
        cases hds : (X ++ S).takeWhile Char.isDigit <;> simp_all
      rw [hdigits]
    · rw [List.cons_append, fractionPart_of_ne hc, fractionPart_of_ne hc]

/-- Hexadecimal digits that end within a text are those of the text alone. -/
private theorem hexPart_of_le {c : Char} (h : (hexPart c (X ++ S)).length < X.length) :
    hexPart c X = hexPart c (X ++ S) := by
  cases X with
  | nil => exact absurd h (Nat.not_lt_zero _)
  | cons x X =>
    simp only [List.cons_append, hexPart] at h ⊢
    split_ifs at h ⊢
    · exact takeWhile_of_le (Nat.le_of_lt_succ h)
    · rfl

/-- No hexadecimal digits appear when a text is cut off. -/
private theorem hexPart_eq_nil_of_append {c : Char} (h : hexPart c (X ++ S) = []) :
    hexPart c X = [] := by
  cases X with
  | nil => rfl
  | cons x X =>
    refine (hexPart_of_le ?_).trans h
    rw [h]
    exact Nat.succ_pos _

/-- What a run leaves of the front stands before the rest, if the run is taken from the front. -/
private theorem dropWhile_of_takeWhile_eq {p : Char → Bool}
    (h : X.takeWhile p = (X ++ S).takeWhile p) : (X ++ S).dropWhile p = X.dropWhile p ++ S := by
  have hall := List.takeWhile_append_dropWhile (p := p) (l := X ++ S)
  conv_rhs at hall => rw [← List.takeWhile_append_dropWhile (p := p) (l := X), List.append_assoc]
  rw [← h] at hall
  exact List.append_cancel_left hall

/-- A fraction and an exponent that fit into the front of a text are taken from the front alone. -/
private theorem parts_of_le (h : (fractionPart (X ++ S)).length +
      (exponentPart ((X ++ S).drop (fractionPart (X ++ S)).length)).length ≤ X.length) :
    fractionPart X = fractionPart (X ++ S) ∧
      exponentPart (X.drop (fractionPart X).length) =
        exponentPart ((X ++ S).drop (fractionPart (X ++ S)).length) := by
  have hfraction := fractionPart_of_le (X := X) (S := S) (by omega)
  have hle : (fractionPart X).length ≤ X.length := (fractionPart_isPrefix X).length_le
  rw [← hfraction, List.drop_append_of_le_length hle] at h ⊢
  refine ⟨rfl, exponentPart_of_le ?_⟩
  rw [List.length_drop]
  omega

/-- Digits of base sixteen that fit into the front of a text are taken from the front alone, with
their mark. -/
private theorem hex_of_le {c : Char} (hhex : ¬ (hexPart c (X ++ S)).isEmpty = true)
    (h : ((X ++ S).take 1 ++ hexPart c (X ++ S)).length ≤ X.length) :
    X.take 1 = (X ++ S).take 1 ∧ hexPart c X = hexPart c (X ++ S) := by
  cases X with
  | nil =>
    rw [List.nil_append, List.length_nil, Nat.le_zero, List.length_eq_zero_iff] at h
    exact absurd (List.isEmpty_iff.mpr (List.append_eq_nil_iff.mp h).2) hhex
  | cons x X =>
    refine ⟨rfl, hexPart_of_le ?_⟩
    simp only [List.cons_append, List.take_succ_cons, List.take_zero, List.length_append,
      List.length_cons, List.length_nil] at h ⊢
    omega

/-- A number that fits into the front of a text is taken from the front alone. -/
private theorem numberPiece_of_le {c : Char} (h : (numberPiece c (X ++ S)).more.length ≤ X.length) :
    numberPiece c X = numberPiece c (X ++ S) := by
  unfold numberPiece at h ⊢
  by_cases hhex : (hexPart c (X ++ S)).isEmpty = true
  · have hhex' : (hexPart c X).isEmpty = true := by
      rw [List.isEmpty_iff] at hhex ⊢
      exact hexPart_eq_nil_of_append hhex
    simp only [if_pos hhex, if_pos hhex'] at h ⊢
    have hdigits : X.takeWhile Char.isDigit = (X ++ S).takeWhile Char.isDigit := by
      refine takeWhile_of_le ?_
      split_ifs at h <;> simp at h <;> omega
    have hlength : X.length =
        (X.takeWhile Char.isDigit).length + (X.dropWhile Char.isDigit).length := by
      rw [← List.length_append, List.takeWhile_append_dropWhile]
    rw [dropWhile_of_takeWhile_eq hdigits, ← hdigits, hlength] at h
    rw [dropWhile_of_takeWhile_eq hdigits, ← hdigits]
    -- The letter of a big number and the fraction stand in what is left of the front.
    obtain ⟨tail, htail⟩ : ∃ tail, X.dropWhile Char.isDigit = tail := ⟨_, rfl⟩
    rw [htail] at h ⊢
    by_cases hn : (tail ++ S).head? = some 'n'
    · rw [if_pos hn] at h
      have htailn : tail.head? = some 'n' := by
        cases tail with
        | nil => simp at h
        | cons d tail => exact hn
      rw [if_pos hn, if_pos htailn]
    · have htailn : tail.head? ≠ some 'n' := by
        cases tail with
        | nil => simp
        | cons d tail => exact hn
      rw [if_neg hn] at h
      simp only [List.length_append] at h
      obtain ⟨hfraction, hexponent⟩ := parts_of_le (X := tail) (S := S) (by omega)
      rw [if_neg hn, if_neg htailn, hexponent, hfraction]
  · rw [if_neg hhex] at h
    obtain ⟨hmark, hhex'⟩ := hex_of_le hhex h
    rw [if_neg hhex, hhex', if_neg hhex, hmark]

/-! ### Signs -/

/-- A list does not go on into a tail that begins with something else. -/
theorem isPrefixOf_append_cons {d : Char} {more : List Char} (h : d ∉ more) (cs rest : List Char) :
    more.isPrefixOf (cs ++ d :: rest) = more.isPrefixOf cs := by
  induction more generalizing cs with
  | nil => rfl
  | cons e more ih =>
    have he : e ≠ d := fun heq => h (heq ▸ List.mem_cons_self)
    cases cs with
    | nil => simp [List.isPrefixOf, he]
    | cons c cs => simp [List.isPrefixOf, ih (fun hmem => h (List.mem_cons_of_mem e hmem))]

/-- What is found first stays so, if it is still there and nothing new is. -/
private theorem find?_eq_of_imp {α : Type} {p q : α → Bool} {l : List α}
    (hq : ∀ a ∈ l, q a = true → p a = true) (hp : ∀ a, l.find? p = some a → q a = true) :
    l.find? q = l.find? p := by
  induction l with
  | nil => rfl
  | cons a l ih =>
    obtain ⟨ha, hl⟩ := List.forall_mem_cons.mp hq
    rw [List.find?_cons, List.find?_cons]
    cases hpa : p a with
    | true =>
      have hqa : q a = true := hp a (by rw [List.find?_cons, hpa])
      rw [hqa]
    | false =>
      have hqa : q a = false := Bool.eq_false_iff.mpr fun hqa => by simp [ha hqa] at hpa
      rw [hqa]
      exact ih hl fun b hb => hp b (by rw [List.find?_cons, hpa, hb])

/-- What begins trivia is no part of a sign, except at its front. -/
private theorem not_mem_of_mem_punctuation {e : Kind × Char × List Char} (he : e ∈ punctuation)
    {d : Char} (hd : d = '/' ∨ isSpace d = true) : d ∉ e.2.2 := by
  have hplain : ∀ e ∈ punctuation, '/' ∉ e.2.2 ∧ e.2.2.all (!isSpace ·) = true := by decide
  rcases hd with rfl | hd
  · exact (hplain e he).1
  · intro hmem
    have hspace := List.all_eq_true.mp (hplain e he).2 d hmem
    rw [hd] at hspace
    cases hspace

/-- A sign in front of the second text is one in front of the first. -/
private theorem Alike.isPrefixOf {e : Kind × Char × List Char} (h : Alike S S')
    (he : e ∈ punctuation) (hmore : e.2.2 <+: X ++ S') : e.2.2 <+: X ++ S := by
  cases h with
  | done S => exact (List.append_nil X ▸ hmore).trans (List.prefix_append X S)
  | @comment d hd S S' =>
    rw [← List.isPrefixOf_iff_prefix, isPrefixOf_append_cons (not_mem_of_mem_punctuation he hd),
      List.isPrefixOf_iff_prefix] at hmore
    exact hmore.trans (List.prefix_append X _)
  | @same d hd S S' =>
    have hfront : ∀ R : List Char, X ++ [d] <+: X ++ d :: R := fun R => by simp
    rcases Nat.le_total e.2.2.length (X ++ [d]).length with hle | hle
    · exact (List.prefix_of_prefix_length_le hmore (hfront S') hle).trans (hfront S)
    · -- No sign goes on behind such a character.
      obtain ⟨more, hall⟩ := List.prefix_of_prefix_length_le (hfront S') hmore hle
      have hlast : ∀ e ∈ punctuation, e.2.2.dropLast.all (!stops ·) = true := by decide
      cases more with
      | nil =>
        rw [← hall, List.append_nil]
        exact hfront S
      | cons m more =>
        have hmem : d ∈ e.2.2.dropLast := by
          rw [← hall, List.dropLast_append_of_ne_nil (List.cons_ne_nil m more)]
          simp
        have hstops := List.all_eq_true.mp (hlast e he) d hmem
        rw [hd] at hstops
        cases hstops

/-- A sign that ends within `X` is found again in front of a text that looks alike, and none is
found before it. -/
private theorem punctuationPiece?_append_alike {c : Char} (h : Alike S S')
    (hle : ∀ p, punctuationPiece? c (X ++ S) = some p → p.more.length ≤ X.length) :
    punctuationPiece? c (X ++ S') = punctuationPiece? c (X ++ S) := by
  unfold punctuationPiece?
  congr 1
  refine find?_eq_of_imp (fun e he => ?_) fun e he => ?_
  · dsimp only
    rw [Bool.and_eq_true, Bool.and_eq_true, List.isPrefixOf_iff_prefix, List.isPrefixOf_iff_prefix]
    exact And.imp_right (h.isPrefixOf he)
  · have hlength := hle ⟨e.1, e.2.1, e.2.2⟩ (by rw [punctuationPiece?, he]; rfl)
    have hfound := List.find?_some he
    dsimp only at hfound hlength ⊢
    rw [Bool.and_eq_true, List.isPrefixOf_iff_prefix] at hfound ⊢
    have hX : e.2.2 <+: X :=
      List.prefix_of_prefix_length_le hfound.2 (List.prefix_append X S) hlength
    exact ⟨hfound.1, hX.trans (List.prefix_append X S')⟩

/-! ### Pieces -/

theorem stops_of_isSpace {d : Char} (h : isSpace d = true) : stops d = true := by
  rcases isSpace_cases h with rfl | rfl | rfl | rfl | rfl <;> decide

/-- Texts that look alike both stop names and numbers, unless the second one is empty. -/
theorem Alike.stops (h : Alike S S') : S' = [] ∨ Stops S ∧ Stops S' := by
  cases h with
  | done => exact .inl rfl
  | same hd => exact .inr ⟨.cons hd _, .cons hd _⟩
  | comment hd =>
    refine .inr ⟨.cons (by decide) _, .cons ?_ _⟩
    rcases hd with rfl | hd
    · decide
    · exact stops_of_isSpace hd

/-- A run of characters that ends within `X`, by something that stops names, does so in front of a
text that looks alike. -/
private theorem takeWhile_append_alike {p : Char → Bool}
    (hp : ∀ d, Token.stops d = true → p d = false)
    (h : Alike S S') (hle : ((X ++ S).takeWhile p).length ≤ X.length) :
    (X ++ S').takeWhile p = (X ++ S).takeWhile p := by
  obtain rfl | ⟨hS, hS'⟩ := h.stops
  · rw [List.append_nil, takeWhile_of_le hle]
  · rw [takeWhile_append_stop fun d hd => hp d (hS d hd),
      takeWhile_append_stop fun d hd => hp d (hS' d hd)]

/-- A number that ends within `X` does so in front of a text that looks alike. -/
private theorem numberPiece_append_alike {c : Char} (h : Alike S S')
    (hle : (numberPiece c (X ++ S)).more.length ≤ X.length) :
    numberPiece c (X ++ S') = numberPiece c (X ++ S) := by
  obtain rfl | ⟨hS, hS'⟩ := h.stops
  · rw [List.append_nil, numberPiece_of_le hle]
  · rw [numberPiece_append_stops hS, numberPiece_append_stops hS']

/-- A slash that begins no comment is a piece by itself. -/
theorem slashPiece_of_head? (h : ∀ d ∈ cs.head?, d ≠ '/' ∧ d ≠ '*') :
    slashPiece cs = ⟨.unexpected, '/', []⟩ := by
  unfold slashPiece
  split
  · exact absurd rfl (h '/' rfl).1
  · exact absurd rfl (h '*' rfl).2
  · rfl

/-- A slash that is a piece by itself stands in front of neither a slash nor a star. -/
private theorem head?_of_slashPiece (h : (slashPiece cs).more = []) :
    ∀ d ∈ cs.head?, d ≠ '/' ∧ d ≠ '*' := by
  unfold slashPiece at h
  split at h
  · cases h
  · simp [Run.piece, Run.after] at h
  · rename_i hline hblock
    intro d hd
    obtain ⟨ds, rfl⟩ := List.head?_eq_some_iff.mp hd
    exact ⟨fun hslash => hline ds (hslash ▸ rfl), fun hstar => hblock ds (hstar ▸ rfl)⟩

/-- What a slash begins and what ends within `X` does so in front of a text that looks alike. -/
private theorem slashPiece_append_alike (h : Alike S S')
    (hle : (slashPiece (X ++ S)).more.length ≤ X.length) :
    slashPiece (X ++ S') = slashPiece (X ++ S) := by
  cases X with
  | nil =>
    have hhead : ∀ d ∈ S.head?, d ≠ '/' ∧ d ≠ '*' :=
      head?_of_slashPiece (List.eq_nil_of_length_eq_zero (Nat.le_zero.mp hle))
    rw [List.nil_append, List.nil_append, slashPiece_of_head? hhead, slashPiece_of_head?]
    cases h with
    | same => exact hhead
    | done => exact fun d hd => nomatch hd
    | comment => exact absurd rfl (hhead '/' rfl).1
  | cons c X =>
    by_cases hline : c = '/'
    · subst hline
      have hrun : (lineRun (X ++ S)).taken.length ≤ X.length := Nat.le_of_succ_le_succ hle
      have htaken := congrArg Run.taken (lineRun_local.append_alike h hrun)
      exact congrArg (fun taken => (⟨.lineComment, '/', '/' :: taken⟩ : Piece)) htaken
    · by_cases hblock : c = '*'
      · subst hblock
        have hrun : (blockRun (X ++ S)).taken.length ≤ X.length := by
          simpa [slashPiece, Run.piece, Run.after] using hle
        simp only [List.cons_append, slashPiece, blockRun_local.append_alike h hrun]
      · -- Another character behind the slash makes no comment.
        have hhead : ∀ R : List Char, ∀ d ∈ (c :: X ++ R).head?, d ≠ '/' ∧ d ≠ '*' := by
          rintro R _ ⟨⟩
          exact ⟨hline, hblock⟩
        rw [slashPiece_of_head? (hhead S'), slashPiece_of_head? (hhead S)]

/-- **A piece looks no further than where two texts look alike.** -/
theorem pieceAt_append_alike {c : Char} (hspace : isSpace c = false) (h : Alike S S')
    (hle : (pieceAt c (X ++ S)).more.length ≤ X.length) :
    pieceAt c (X ++ S') = pieceAt c (X ++ S) := by
  unfold pieceAt at hle ⊢
  rw [hspace, if_neg Bool.false_ne_true] at hle ⊢
  rw [if_neg Bool.false_ne_true]
  split_ifs at hle ⊢ with hstart hdigit hquote htemplate hslash
  · rw [takeWhile_append_alike (fun d hd => (stops_iff.mp hd).1) h hle]
  · rw [numberPiece_append_alike h hle]
  · have hlocal : Run.Local (stringRun c) := by
      rcases hquote with rfl | rfl <;> exact stringRun_local (by decide)
    rw [hlocal.append_alike h hle]
  · rw [templateRun_local.append_alike h hle]
  · rw [slashPiece_append_alike h hle]
  · rw [punctuationPiece?_append_alike h fun p hp => by rwa [hp] at hle]

/-! ### Texts that go on -/

/-- A text that begins as trivia do, with a slash or blank space, if it is not empty. -/
def Gap (rest : List Char) : Prop := ∀ d ∈ rest.head?, d = '/' ∨ isSpace d = true

theorem Gap.stops {rest : List Char} (h : Gap rest) : Stops rest := by
  intro d hd
  rcases h d hd with rfl | hspace
  · decide
  · exact stops_of_isSpace hspace

/-- A run that is closed stays as it is, whatever follows. -/
private theorem Run.Local.append_of_closed (hf : Run.Local f) (h : (f cs).closed = true)
    (rest : List Char) : f (cs ++ rest) = f cs := by
  obtain ⟨left, hleft⟩ := hf.isPrefix cs
  have hagain : f ((f cs).taken ++ (left ++ rest)) = f cs := hf.again hleft (.inl h)
  rwa [← List.append_assoc, hleft] at hagain

/-- A piece that means something has come to its closing mark, so it stays what it is. -/
private theorem Run.Local.piece_append (hf : Run.Local f) {kind : Kind} {c : Char}
    (h : ((f cs).piece kind c).kind ≠ .unexpected) (rest : List Char) :
    (f (cs ++ rest)).piece kind c = (f cs).piece kind c := by
  rw [hf.append_of_closed]
  by_contra hopen
  exact h (if_neg hopen)

/-- No sign goes on into trivia. -/
private theorem punctuationPiece?_append_gap {c : Char} {rest : List Char} (h : Gap rest)
    (cs : List Char) : punctuationPiece? c (cs ++ rest) = punctuationPiece? c cs := by
  cases rest with
  | nil => rw [List.append_nil]
  | cons d rest =>
    refine congrArg (Option.map _) (List.find?_congr fun e he => ?_)
    dsimp only
    rw [isPrefixOf_append_cons (not_mem_of_mem_punctuation he (h d rfl))]

/-- A slash begins trivia, or it means nothing. -/
private theorem slashPiece_kind (cs : List Char) :
    (slashPiece cs).kind.isTrivia = true ∨ (slashPiece cs).kind = .unexpected := by
  unfold slashPiece
  split
  · exact .inl rfl
  · rename_i cs
    cases hclosed : ((blockRun cs).after ['*']).closed with
    | true => exact .inl (by rw [Run.piece, hclosed]; rfl)
    | false => exact .inr (by rw [Run.piece, hclosed]; rfl)
  · exact .inr rfl

/-- **A piece that means something ends where trivia begin.** -/
theorem pieceAt_append_gap {c : Char} {rest : List Char}
    (hkind : (pieceAt c cs).kind ≠ .unexpected) (htrivia : (pieceAt c cs).kind.isTrivia = false)
    (hrest : Gap rest) : pieceAt c (cs ++ rest) = pieceAt c cs := by
  unfold pieceAt at hkind htrivia ⊢
  split_ifs at hkind htrivia ⊢ with hspace hstart hdigit hquote htemplate hslash
  · cases htrivia
  · rw [takeWhile_append_stop fun d hd => (stops_iff.mp (hrest.stops d hd)).1]
  · exact numberPiece_append_stops hrest.stops c cs
  · have hlocal : Run.Local (stringRun c) := by
      rcases hquote with rfl | rfl <;> exact stringRun_local (by decide)
    exact hlocal.piece_append hkind rest
  · exact templateRun_local.piece_append hkind rest
  · rcases slashPiece_kind cs with hslash | hslash
    · rw [hslash] at htrivia
      cases htrivia
    · exact absurd hslash hkind
  · rw [punctuationPiece?_append_gap hrest]

end Reifier.Token
