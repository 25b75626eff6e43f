import Reifier.Proofs.Token.Lexing

/-!
# Parts of a source read again

A statement that is carried along as text keeps a part of its source, from one token to another.
Such a part, taken out of its source, has the tokens that it had there: no token before the end of
the part needs what follows (`Lexed.words_flatMap`). So the words of the text of some lexemes of a
source are those lexemes (`Lexeme.rereads_of_ofTokens`), whatever trivia stands between them.
-/

namespace Reifier

namespace Token

/-! ### Tokens at the front of a text -/

/-- A token is taken from a front part of a text as it is from the whole text. -/
private theorem Before.take {t : Token} {front back : List Char} (h : t.Before (front ++ back)) :
    t.Before front := by
  by_cases hblank : t.kind = .blank
  · have hne : t.kind ≠ .unexpected := by
      rw [hblank]
      exact Kind.noConfusion
    obtain ⟨p, htext, hp, hkind⟩ := h.exists_piece hne
    refine .of_piece (p := p) ?_ htext hkind
    have htakes := takes_pieceAt p.first (p.more ++ (front ++ back))
    rw [Piece.Before] at hp ⊢
    rw [hp, hkind, hblank] at htakes
    obtain ⟨hspace, hmore⟩ := htakes
    have hall : ∀ d ∈ p.more, isSpace d = true := by
      rw [hmore]
      exact List.all_eq_true.mp List.all_takeWhile
    -- Blank space ends where the whole text has something else, if there is anything left.
    have hstop : ∀ d ∈ front.head?, isSpace d = false := by
      intro d hd
      refine head?_of_takeWhile_append (congrArg (· ++ (front ++ back)) hmore.symm) d ?_
      rw [List.head?_append, hd]
      rfl
    have hpiece : p = ⟨.blank, p.first, p.more⟩ := by
      rw [← hblank, ← hkind]
    rw [pieceAt, if_pos hspace, takeWhile_append_eq hstop hall, ← hpiece]
  · exact h.of_similar ⟨front, back, [], rfl, (List.append_nil front).symm, .done back⟩ hblank

/-- Tokens in front of others are taken as well if the text ends behind them. -/
theorem Lexed.take {ts us : List Token} (h : Lexed (ts ++ us)) : Lexed ts := by
  induction ts with
  | nil => trivial
  | cons t ts ih =>
    rw [List.cons_append] at h
    obtain ⟨hbefore, hnext, hts⟩ := h
    rw [List.flatMap_append] at hbefore
    refine ⟨hbefore.take, fun hkind u hu => hnext hkind u ?_, ih hts⟩
    rw [List.head?_append, hu]
    rfl

/-- **The tokens of a text are found again in it.** -/
theorem Lexed.words_flatMap {ts : List Token} (h : Lexed ts) :
    wordsOf (ts.flatMap (·.text.toList)) = words ts := by
  induction ts with
  | nil => rfl
  | cons t ts ih =>
    obtain ⟨hbefore, hnext, hts⟩ := h
    rw [List.flatMap_cons, hbefore.wordsOf_append, ih hts]
    · exact (words_append [t] ts).symm
    · -- The piece behind an unexpected token is that of the next token.
      intro hkind p hp
      cases ts with
      | nil => cases hp
      | cons u ts =>
        have hu := hts.1.head?_kind
        rw [List.flatMap_cons] at hp
        rw [Option.mem_def.mp hp, Option.map_some, Option.some_inj] at hu
        rw [hu]
        exact hnext hkind u rfl

end Token

/-! ### Lexemes -/

namespace Lexeme

/-- Whether lexemes are found again in the text from any of them to any other. -/
def Rereads (ls : List Lexeme) : Prop :=
  ∀ run, run <:+: ls → Token.wordsOf (textOf run).toList = run.map (·.token.word)

theorem Rereads.of_cons {l : Lexeme} {ls : List Lexeme} (h : Rereads (l :: ls)) : Rereads ls :=
  fun run hrun => h run (hrun.trans (List.suffix_cons l ls).isInfix)

/-- What stands before the first lexeme is no part of the text. -/
theorem Rereads.head {l m : Lexeme} {ls : List Lexeme} (h : Rereads (l :: ls))
    (htoken : m.token = l.token) : Rereads (m :: ls) := by
  intro run hrun
  rcases List.infix_cons_iff.mp hrun with hprefix | hinfix
  · cases run with
    | nil => rfl
    | cons k run =>
      obtain ⟨rfl, hmore⟩ := List.cons_prefix_cons.mp hprefix
      have hfront : l :: run <+: l :: ls := List.cons_prefix_cons.mpr ⟨rfl, hmore⟩
      have hrun := h (l :: run) hfront.isInfix
      rw [List.map_cons, textOf, ← htoken] at hrun
      exact hrun
  · exact h.of_cons run hinfix

/-- The characters of lexemes at the front are those of tokens at the front. -/
private theorem exists_of_prefix_ofTokensAfter {before : Trivia} {ts : List Token}
    {run : List Lexeme} (h : run <+: (ofTokensAfter before ts).1) (hne : run ≠ []) :
    ∃ us vs, ts = us ++ vs ∧ chars run = before.text.toList ++ us.flatMap (·.text.toList) ∧
      Token.words us = run.map (·.token.word) := by
  induction ts generalizing before run with
  | nil => exact absurd (List.prefix_nil.mp h) hne
  | cons t ts ih =>
    rw [ofTokensAfter] at h
    split_ifs at h with htrivia
    · obtain ⟨us, vs, rfl, hchars, hwords⟩ := ih h hne
      refine ⟨t :: us, vs, rfl, ?_, ?_⟩
      · rw [hchars, Trivia.push, String.toList_append, List.flatMap_cons, List.append_assoc]
      · rw [← hwords, Token.words, List.filter_cons, htrivia]
        rfl
    · obtain ⟨l, run, rfl⟩ := List.exists_cons_of_ne_nil hne
      obtain ⟨rfl, hrun⟩ := List.cons_prefix_cons.mp h
      have hword : ∀ us, Token.words (t :: us) = t.word :: Token.words us := by
        intro us
        rw [Token.words, List.filter_cons, eq_false_of_ne_true htrivia]
        rfl
      -- The first lexeme ends with this token; the run may end here, too.
      by_cases hnil : run = []
      · subst hnil
        exact ⟨[t], ts, rfl, by simp, hword []⟩
      · obtain ⟨us, vs, rfl, hchars, hwords⟩ := ih hrun hnil
        refine ⟨t :: us, vs, rfl, ?_, ?_⟩
        · rw [chars_cons, hchars, List.flatMap_cons, List.append_assoc]
          rfl
        · rw [hword, hwords, List.map_cons]

/-- **Every run of lexemes reads again as itself.** What a token is taken in front of ends with the
run, and a text that has been cut off looks alike to every token. -/
private theorem rereads_ofTokensAfter {before : Trivia} {ts : List Token} (h : Token.Lexed ts) :
    Rereads (ofTokensAfter before ts).1 := by
  induction ts generalizing before with
  | nil =>
    intro run hrun
    rw [List.infix_nil.mp hrun]
    rfl
  | cons t ts ih =>
    rw [ofTokensAfter]
    split_ifs with htrivia
    · exact ih h.2.2
    · intro run hrun
      rcases List.infix_cons_iff.mp hrun with hprefix | hinfix
      · cases run with
        | nil => rfl
        | cons l run =>
          -- The text of the run is that of the tokens from its first to its last.
          have hrun : l :: run <+: (ofTokensAfter before (t :: ts)).1 := by
            rw [ofTokensAfter, if_neg htrivia]
            exact hprefix
          obtain ⟨us, vs, hts, hchars, hwords⟩ :=
            exists_of_prefix_ofTokensAfter hrun (List.cons_ne_nil l run)
          obtain ⟨rfl, -⟩ := List.cons_prefix_cons.mp hprefix
          rw [chars_cons, List.append_assoc, List.append_cancel_left_eq] at hchars
          rw [hts] at h
          rw [toList_textOf_cons, hchars, h.take.words_flatMap, hwords]
      · exact ih h.2.2 run hinfix

/-- **The lexemes of a source are found again in the text of any run of them.** -/
theorem rereads_of_ofTokens {source : String} {ls : List Lexeme} {after : Trivia}
    (h : ofTokens (Token.scan source) = (ls, after)) : Rereads ls := by
  have hrereads : Rereads (ofTokens (Token.scan source)).1 :=
    rereads_ofTokensAfter (Token.lexed_scan source)
  rwa [h] at hrereads

end Lexeme

end Reifier
