import Reifier.Proofs.Token.Moved
import Reifier.Proofs.Token.Rereading

/-!
# The tokens of a part of a text

Tokens that stand one behind the other, and each of which is taken from what is left, are the tokens
of their text (`scan_of_lexed`), so a part of a source from one token to another has its tokens,
further on. A semicolon may be put behind the part if its last token is closed
(`Lexed.append_semicolon`), and a blank and what is taken in front of it may be put before it.
-/

namespace Reifier.Token

/-! ### Tokens are determined by their text -/

/-- The piece that a token is, or that its pieces are joined to. -/
def Piece.Is (p : Piece) (t : Token) : Prop := p.kind = t.kind ∧ p.chars = t.text.toList

/-- The pieces of a text are joined to the tokens that are taken from it. -/
private theorem forall₂_joinUnexpected {ts : List Token} (h : Lexed ts) :
    List.Forall₂ Piece.Is (joinUnexpected (pieces (ts.flatMap (·.text.toList)))) ts := by
  induction ts with
  | nil => exact .nil
  | cons t ts ih =>
    obtain ⟨⟨ps, ⟨hchars, hne, hkinds⟩, hbefore⟩, hnext, hts⟩ := h
    rw [List.flatMap_cons, hchars, hbefore.pieces_append]
    split_ifs at hkinds with hunexpected
    · -- Nothing unexpected follows an unexpected token, and so its pieces are joined with no other
      -- ones.
      have hhead : ∀ q ∈ (pieces (ts.flatMap (·.text.toList))).head?, q.kind ≠ .unexpected := by
        intro q hq
        cases ts with
        | nil => cases hq
        | cons u us =>
          have hu := hts.1.head?_kind
          rw [List.flatMap_cons, Option.mem_def] at hq
          rw [hq, Option.map_some, Option.some_inj] at hu
          exact hu ▸ hnext hunexpected u rfl
      obtain ⟨p, hp, hpchars, hjoin⟩ := joinUnexpected_append_of_head? hkinds hne hhead
      rw [hjoin]
      exact .cons ⟨hp.trans hunexpected.symm, hpchars.trans hchars.symm⟩ (ih hts)
    · obtain ⟨p, rfl⟩ : ∃ p, ps = [p] := List.length_eq_one_iff.mp (by
        rw [← List.length_map (f := Piece.kind), hkinds, List.length_singleton])
      obtain hp : p.kind = t.kind := by simpa using hkinds
      rw [List.singleton_append, joinUnexpected_cons_of_ne (hp ▸ hunexpected)]
      exact .cons ⟨hp, by simpa using hchars.symm⟩ (ih hts)

/-- Pieces in their places are tokens that stand one behind the other. -/
private theorem place_eq {ps : List Piece} {ts : List Token} (h : List.Forall₂ Piece.Is ps ts)
    {offset : ℕ} (hts : Contiguous offset ts) : place offset ps = ts := by
  induction h generalizing offset with
  | nil => rfl
  | @cons p t ps ts hp _ ih =>
    obtain ⟨hspan, hts⟩ := hts
    rw [hspan] at hts
    rw [place, hp.1, hp.2, String.ofList_toList, ih hts, ← hspan]

/-- **Tokens that are taken one behind the other are those of their text**, further on by where they
begin. -/
theorem scan_of_lexed {ts : List Token} (h : Lexed ts) {offset : ℕ} (hts : Contiguous offset ts) :
    (scan (String.ofList (ts.flatMap (·.text.toList)))).map (Token.moved offset) = ts := by
  rw [scan, String.toList_ofList, ofChars, ← place_add, Nat.zero_add]
  exact place_eq (forall₂_joinUnexpected h) hts

/-! ### A semicolon behind a text -/

/-- Whether a token that nothing follows ends where it does because it is closed. -/
def Kind.isClosed : Kind → Bool
  | unexpected | lineComment => false
  | _ => true

/-- A run that is closed, or that something follows, is the same in front of a semicolon. -/
private theorem Run.Local.append_semicolon {f : List Char → Run} (hf : Run.Local f)
    {X cs : List Char} (hcs : (f cs).taken ++ X = cs) (hX : X = [] → (f cs).closed = true) :
    f (cs ++ [';']) = f cs := by
  have hagain : f ((f cs).taken ++ (X ++ [';'])) = f cs := by
    refine hf.again hcs ?_
    by_cases hnil : X = []
    · exact .inl (hX hnil)
    · exact .inr fun d hd => by rwa [List.head?_append_of_ne_nil _ hnil] at hd
  rwa [← List.append_assoc, hcs] at hagain

/-- A piece of a closed kind is a run that is closed. -/
private theorem closed_of_kind {run : Run} {kind : Kind} {c : Char}
    (h : (run.piece kind c).kind.isClosed = true) : run.closed = true := by
  unfold Run.piece at h
  cases hrun : run.closed with
  | true => rfl
  | false => simp [hrun, Kind.isClosed] at h

/-- No sign goes on with a semicolon. -/
private theorem punctuationPiece?_append_semicolon (c : Char) (cs : List Char) :
    punctuationPiece? c (cs ++ [';']) = punctuationPiece? c cs := by
  have hmore : ∀ e ∈ punctuation, ';' ∉ e.2.2 := by decide
  unfold punctuationPiece?
  congr 1
  refine List.find?_congr fun e he => ?_
  dsimp only
  rw [isPrefixOf_append_cons (hmore e he)]

/-- A semicolon stops a run. -/
private theorem takeWhile_append_semicolon {p : Char → Bool} (h : p ';' = false) (cs : List Char) :
    (cs ++ [';']).takeWhile p = cs.takeWhile p := by
  refine takeWhile_append_stop ?_ cs
  rintro _ ⟨⟩
  exact h

/-- A comment in front of a semicolon stays as it is, unless the text ends in it while it is
open. -/
private theorem slashPiece_append_semicolon {cs X : List Char}
    (hcs : (slashPiece cs).more ++ X = cs) (hX : X = [] → (slashPiece cs).kind.isClosed = true) :
    slashPiece (cs ++ [';']) = slashPiece cs := by
  cases cs with
  | nil =>
    obtain rfl : X = [] := (List.append_eq_nil_iff.mp hcs).2
    cases hX rfl
  | cons d ds =>
    by_cases hline : d = '/'
    · subst hline
      have hrun : (lineRun (ds ++ [';'])).taken = (lineRun ds).taken := congrArg Run.taken
        (lineRun_local.append_semicolon (List.cons.inj hcs).2 fun hnil => nomatch hX hnil)
      exact congrArg (fun taken => (⟨.lineComment, '/', '/' :: taken⟩ : Piece)) hrun
    · by_cases hblock : d = '*'
      · subst hblock
        have hrun : blockRun (ds ++ [';']) = blockRun ds :=
          blockRun_local.append_semicolon (List.cons.inj hcs).2 fun hnil =>
            closed_of_kind (c := '/') (hX hnil)
        simp only [List.cons_append, slashPiece, hrun]
      · have hhead : ∀ R : List Char, ∀ e ∈ (d :: ds ++ R).head?, e ≠ '/' ∧ e ≠ '*' := by
          rintro R _ ⟨⟩
          exact ⟨hline, hblock⟩
        have hnone := slashPiece_of_head? (hhead [])
        rw [List.append_nil] at hnone
        rw [slashPiece_of_head? (hhead [';']), hnone]

/-- **A piece that is closed, or that something follows, is taken in front of a semicolon, too.** -/
theorem pieceAt_append_semicolon {c : Char} {cs X : List Char} (hcs : (pieceAt c cs).more ++ X = cs)
    (hX : X = [] → (pieceAt c cs).kind.isClosed = true) :
    pieceAt c (cs ++ [';']) = pieceAt c cs := by
  unfold pieceAt at hcs hX ⊢
  split_ifs at hcs hX ⊢ with hspace hstart hdigit hquote htemplate hslash
  · rw [takeWhile_append_semicolon (by decide)]
  · rw [takeWhile_append_semicolon (by decide)]
  · exact numberPiece_append_stops (.cons (by decide) []) c cs
  · have hlocal : Run.Local (stringRun c) := by
      rcases hquote with rfl | rfl <;> exact stringRun_local (by decide)
    rw [hlocal.append_semicolon hcs fun hnil => closed_of_kind (hX hnil)]
  · rw [templateRun_local.append_semicolon hcs fun hnil => closed_of_kind (hX hnil)]
  · exact slashPiece_append_semicolon hcs hX
  · rw [punctuationPiece?_append_semicolon]

private theorem Piece.Before.append_semicolon {p : Piece} {X : List Char} (h : p.Before X)
    (hX : X = [] → p.kind.isClosed = true) : p.Before (X ++ [';']) := by
  rw [Piece.Before] at h ⊢
  rw [← List.append_assoc, pieceAt_append_semicolon (X := X) (by rw [h]) (by rwa [h]), h]

/-- Pieces stay as they are in front of a semicolon if the last one of them is closed wherever it
ends the text. -/
private theorem Piece.AllBefore.append_semicolon {ps : List Piece} {X : List Char}
    (h : AllBefore ps X)
    (hX : X = [] → ∀ p ∈ ps.getLast?, p.kind.isClosed = true) : AllBefore ps (X ++ [';']) := by
  induction ps with
  | nil => trivial
  | cons p ps ih =>
    refine ⟨?_, ih h.2 fun hnil q hq => hX hnil q ?_⟩
    · rw [← List.append_assoc]
      refine h.1.append_semicolon fun hnil => ?_
      obtain ⟨hps, hnil⟩ := List.append_eq_nil_iff.mp hnil
      have hlast : ps = [] := by
        cases ps with
        | nil => rfl
        | cons q qs => simp [Piece.chars] at hps
      exact hX hnil p (by rw [hlast]; rfl)
    · rw [List.getLast?_cons, Option.mem_def.mp hq]
      rfl

/-- A token stays as it is in front of a semicolon. -/
private theorem Before.append_semicolon {t : Token} {X : List Char} (h : t.Before X)
    (hX : X = [] → t.kind.isClosed = true) : t.Before (X ++ [';']) := by
  obtain ⟨ps, ⟨hchars, hne, hkinds⟩, hbefore⟩ := h
  refine ⟨ps, ⟨hchars, hne, hkinds⟩, hbefore.append_semicolon fun hnil p hp => ?_⟩
  have hclosed := hX hnil
  split_ifs at hkinds with hunexpected
  · simp [hunexpected, Kind.isClosed] at hclosed
  · have hmem : p.kind ∈ [t.kind] := hkinds ▸ List.mem_map_of_mem (List.mem_of_getLast? hp)
    rwa [List.mem_singleton.mp hmem]

/-- The token that a semicolon is, at an offset. -/
def semicolonAt (offset : ℕ) : Token := ⟨.semicolon, ";", ⟨offset, offset + 1⟩⟩

theorem toList_semicolonAt (offset : ℕ) : (semicolonAt offset).text.toList = [';'] := by
  have hchars : ";".toList = [';'] := by decide
  exact hchars

/-- **A semicolon may be put behind tokens the last of which is closed.** -/
theorem Lexed.append_semicolon {ts : List Token} (h : Lexed ts)
    (hlast : ∀ t ∈ ts.getLast?, t.kind.isClosed = true) (offset : ℕ) :
    Lexed (ts ++ [semicolonAt offset]) := by
  induction ts with
  | nil =>
    have hpiece : semicolonPiece.Before [] := rfl
    exact ⟨.of_piece hpiece (toList_semicolonAt offset) rfl, fun _ _ hu => (nomatch hu), trivial⟩
  | cons t ts ih =>
    obtain ⟨hbefore, hnext, hts⟩ := h
    rw [List.cons_append]
    refine ⟨?_, fun hkind u hu => ?_, ih hts fun u hu => hlast u ?_⟩
    · rw [List.flatMap_append, List.flatMap_singleton, toList_semicolonAt]
      refine hbefore.append_semicolon fun hnil => ?_
      -- With no text behind it the token is the last one, as every token has some text.
      have hlast' : ts = [] := by
        cases ts with
        | nil => rfl
        | cons u us => exact absurd (List.append_eq_nil_iff.mp hnil).1 hts.1.ne_nil
      exact hlast t (by rw [hlast']; rfl)
    · cases ts with
      | nil =>
        cases hu
        exact Kind.noConfusion
      | cons v vs => exact hnext hkind u hu
    · rw [List.getLast?_cons, Option.mem_def.mp hu]
      rfl

/-! ### The start of an alias in front of a text -/

/-- The tokens of `type X = `, behind which the right side of an alias stands. -/
def aliasStart : List Token :=
  [⟨.identifier, "type", ⟨0, 4⟩⟩, ⟨.blank, " ", ⟨4, 5⟩⟩, ⟨.identifier, "X", ⟨5, 6⟩⟩,
    ⟨.blank, " ", ⟨6, 7⟩⟩, ⟨.equals, "=", ⟨7, 8⟩⟩, ⟨.blank, " ", ⟨8, 9⟩⟩]

theorem flatMap_text_aliasStart : aliasStart.flatMap (·.text.toList) = "type X = ".toList := by
  decide

theorem contiguous_aliasStart : Contiguous 0 aliasStart := by
  refine ⟨?_, ?_, ?_, ?_, ?_, ?_, trivial⟩ <;> decide

/-- **The start of an alias may be put before tokens, the first of which is not blank.** -/
theorem Lexed.behind_aliasStart {ts : List Token} (h : Lexed ts)
    (hfirst : ∀ d ∈ (ts.flatMap (·.text.toList)).head?, isSpace d = false) :
    Lexed (aliasStart ++ ts) := by
  have hpiece : ∀ (t : Token) (p : Piece) (us : List Token), p.kind = t.kind →
      t.text.toList = p.chars → p.Before (us.flatMap (·.text.toList)) → t.kind ≠ .unexpected →
      Lexed us → Lexed (t :: us) := fun t p us hkind htext hp hne hus =>
    ⟨.of_piece hp htext hkind, fun hunexpected => absurd hunexpected hne, hus⟩
  have hblank : (⟨.blank, ' ', []⟩ : Piece).Before (ts.flatMap (·.text.toList)) := by
    rw [Piece.Before, pieceAt, if_pos (by decide),
      takeWhile_append_eq hfirst (List.forall_mem_nil _)]
  refine hpiece _ ⟨.identifier, 't', ['y', 'p', 'e']⟩ _ rfl (by decide) rfl (by decide) ?_
  refine hpiece _ ⟨.blank, ' ', []⟩ _ rfl (by decide) rfl (by decide) ?_
  refine hpiece _ ⟨.identifier, 'X', []⟩ _ rfl (by decide) rfl (by decide) ?_
  refine hpiece _ ⟨.blank, ' ', []⟩ _ rfl (by decide) rfl (by decide) ?_
  refine hpiece _ ⟨.equals, '=', []⟩ _ rfl (by decide) rfl (by decide) ?_
  exact hpiece _ ⟨.blank, ' ', []⟩ _ rfl (by decide) hblank (by decide) h

end Reifier.Token
