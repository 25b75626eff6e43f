import Reifier.Parser.Basic
import Reifier.Proofs.Token.Moved

/-!
# Cursors in a text and in a longer one

A `Placement` says how a text stands in a longer one: what has been found before it, by how many
bytes it is further on, and which lexemes follow it. `σ.Places c d` compares a cursor `c` in the
text with a cursor `d` in the longer one: `d` is at the same lexeme and has found the same, further
on, behind what was found before.

What is seen from both cursors is only the same as long as nothing behind the text is looked at.
`σ.Within depth c` makes sure of that. It says that nothing follows the text, or that the text goes
on up to a semicolon outside all brackets (`Lexeme.EndsOutside`), where `depth` brackets are open at
`c`. Nothing but that semicolon is ever the last lexeme, so behind any other one there is a further
one to look at.
-/

namespace Reifier

/-! ### Up to a semicolon outside all brackets -/

/-- More brackets are open after a token if more were before it. -/
private theorem Token.Kind.depthAfter_mono (kind : Token.Kind) {depth depth' : ℕ}
    (h : depth ≤ depth') : kind.depthAfter depth ≤ kind.depthAfter depth' := by
  unfold depthAfter
  split_ifs <;> omega

namespace Lexeme

/-- Whether the last lexeme is a semicolon outside all brackets, where `depth` brackets are open in
front of the first. -/
def EndsOutside (depth : ℕ) : List Lexeme → Prop
  | [] => False
  | l :: ls =>
    (ls = [] ∧ l.token.kind = .semicolon ∧ depth = 0) ∨
      EndsOutside (l.token.kind.depthAfter depth) ls

/-- A text that ends in a semicolon is not empty. -/
private theorem EndsOutside.ne_nil {depth : ℕ} {ls : List Lexeme} (h : EndsOutside depth ls) :
    ls ≠ [] := by
  rintro rfl
  exact h

/-- Brackets that are not open need not be closed. -/
theorem EndsOutside.anti {depth depth' : ℕ} {ls : List Lexeme} (h : EndsOutside depth' ls)
    (hle : depth ≤ depth') : EndsOutside depth ls := by
  induction ls generalizing depth depth' with
  | nil => exact h
  | cons l ls ih =>
    rcases h with ⟨hls, hkind, rfl⟩ | h
    · exact .inl ⟨hls, hkind, Nat.le_zero.mp hle⟩
    · exact .inr (ih h (l.token.kind.depthAfter_mono hle))

/-- Behind a lexeme that is no semicolon there is a further one. -/
private theorem EndsOutside.succ_lt_length {depth n : ℕ} {ls : List Lexeme} {l : Lexeme}
    (h : EndsOutside depth ls) (hl : ls[n]? = some l) (hkind : l.token.kind ≠ .semicolon) :
    n + 1 < ls.length := by
  induction n generalizing depth ls with
  | zero =>
    obtain _ | ⟨l', ls⟩ := ls
    · exact h.elim
    · cases hl
      rcases h with ⟨-, hsemicolon, -⟩ | h
      · exact absurd hsemicolon hkind
      · exact Nat.succ_lt_succ (List.length_pos_of_ne_nil h.ne_nil)
  | succ n ih =>
    obtain _ | ⟨l', ls⟩ := ls
    · exact h.elim
    · rw [List.getElem?_cons_succ] at hl
      rcases h with ⟨rfl, -⟩ | h
      · cases hl
      · exact Nat.succ_lt_succ (ih h hl)

/-- Trivia are no brackets. -/
private theorem isOpen_or_isClose_of_isTrivia {kind : Token.Kind} (h : kind.isTrivia = true) :
    kind.isOpen = false ∧ kind.isClose = false := by
  cases kind <;> first | exact ⟨rfl, rfl⟩ | cases h

/-- **Tokens of which no last ones open more brackets than they close end outside all brackets** if
a semicolon is the last of them. -/
theorem endsOutside_ofTokensAfter {depth : ℕ} {ts : List Token}
    (hlast : ts.getLast?.map Token.kind = some .semicolon)
    (hbalance : ∀ us, us <:+ ts →
      us.countP (·.kind.isOpen) ≤ us.countP (·.kind.isClose))
    (hdepth : depth + ts.countP (·.kind.isOpen) ≤ ts.countP (·.kind.isClose)) (before : Trivia) :
    EndsOutside depth (ofTokensAfter before ts).1 := by
  -- The condition on last tokens is kept for the tail. It is needed where a token closes a bracket
  -- at depth zero: the depth stays there, and the tail must still close all that is open.
  induction ts generalizing depth before with
  | nil => cases hlast
  | cons t ts ih =>
    rw [List.countP_cons, List.countP_cons] at hdepth
    have htail : ∀ us, us <:+ ts → us.countP (·.kind.isOpen) ≤ us.countP (·.kind.isClose) :=
      fun us hus => hbalance us (hus.trans (List.suffix_cons t ts))
    by_cases hts : ts = []
    · subst hts
      have hkind : t.kind = .semicolon := Option.some.inj hlast
      have hzero : depth = 0 := by
        simp [hkind, Token.Kind.isOpen, Token.Kind.isClose] at hdepth
        exact hdepth
      rw [ofTokensAfter, hkind]
      exact .inl ⟨rfl, hkind, hzero⟩
    · have hlast' : ts.getLast?.map Token.kind = some .semicolon := by
        obtain ⟨u, us, rfl⟩ := List.exists_cons_of_ne_nil hts
        rwa [List.getLast?_cons_cons] at hlast
      have hall := htail ts List.suffix_rfl
      rw [ofTokensAfter]
      split_ifs with htrivia
      · obtain ⟨hopen, hclose⟩ := isOpen_or_isClose_of_isTrivia htrivia
        rw [hopen, hclose] at hdepth
        exact ih hlast' htail hdepth _
      · refine .inr (ih hlast' htail ?_ _)
        dsimp only
        unfold Token.Kind.depthAfter
        split_ifs with hopen hclose
        · have hno : t.kind.isClose = false := by
            revert hopen
            cases t.kind <;> decide
          rw [hopen, hno] at hdepth
          simp only [if_true, Bool.false_eq_true, if_false] at hdepth
          omega
        · rw [hclose] at hdepth
          simp only [if_true] at hdepth
          omega
        · rw [if_neg hopen, if_neg hclose] at hdepth
          omega

end Lexeme

/-! ### Placements -/

/-- A diagnostic `n` bytes further on. -/
def Diagnostic.moved (n : ℕ) (d : Diagnostic) : Diagnostic := { d with span := d.span.moved n }

@[simp] theorem Diagnostic.moved_zero : Diagnostic.moved 0 = id := rfl

/-- How a text stands in a longer one: `offset` bytes further on, behind the comments and the
diagnostics of what is before it. The lexemes of `behind` follow it, in the `bytesBehind` bytes up
to the end of the longer text. -/
structure Placement where
  offset : ℕ
  comments : List Comment
  diagnostics : List Diagnostic
  behind : List Lexeme
  bytesBehind : ℕ

namespace Placement

/-- Whether at a cursor `d` in the longer text the same has been found as at the cursor `c` in the
text, further on, behind what was found before the text. -/
structure Finds (σ : Placement) (c d : Cursor) : Prop where
  endOffset : d.endOffset = c.endOffset + σ.offset + σ.bytesBehind
  /-- Before the text begins the last token may have ended anywhere in front of it. -/
  lastEnd : max d.lastEnd σ.offset = c.lastEnd + σ.offset
  comments : d.comments = σ.comments ++ c.comments.map (Comment.moved σ.offset)
  diagnostics : d.diagnostics = σ.diagnostics ++ c.diagnostics.map (Diagnostic.moved σ.offset)
  lastReport : ∀ start, d.lastReport = some (start + σ.offset) ↔ c.lastReport = some start

/-- Whether a cursor in the longer text stands where the cursor `c` stands in the text. Nothing is
said of the levels that are open. -/
structure Places (σ : Placement) (c d : Cursor) : Prop extends σ.Finds c d where
  rest : d.rest = c.rest.map (Lexeme.moved σ.offset) ++ σ.behind

/-- Whether the longer text ends where the text does. -/
def Ends (σ : Placement) : Prop := σ.behind = [] ∧ σ.bytesBehind = 0

/-- Whether the lexeme `n` places ahead can be looked at without looking behind the text. -/
def Visible (σ : Placement) (n : ℕ) (c : Cursor) : Prop := σ.Ends ∨ n < c.rest.length

/-- Whether reading stays within the text, where `depth` brackets are open at the cursor. -/
def Within (σ : Placement) (depth : ℕ) (c : Cursor) : Prop :=
  σ.Ends ∨ Lexeme.EndsOutside depth c.rest

/-- Behind a token of a given kind before which `depth` brackets were open: reading stays within the
text, unless the token was its last semicolon. -/
def Behind (σ : Placement) (kind : Token.Kind) (depth : ℕ) (c : Cursor) : Prop :=
  σ.Within (kind.depthAfter depth) c ∨ (kind = .semicolon ∧ depth = 0 ∧ c.rest = [])

/-- Within the text, or behind its last semicolon. -/
def Past (σ : Placement) (depth : ℕ) (c : Cursor) : Prop :=
  σ.Within depth c ∨ (depth = 0 ∧ c.rest = [])

variable {σ : Placement} {c d : Cursor} {depth n : ℕ}

/-- Less is known if fewer brackets are said to be open. -/
theorem Within.anti {depth' : ℕ} (h : σ.Within depth' c) (hle : depth ≤ depth') :
    σ.Within depth c :=
  h.imp_right fun hends => hends.anti hle

theorem Within.zero (h : σ.Within depth c) : σ.Within 0 c := h.anti (Nat.zero_le _)

/-- Wherever one is within the text the next lexeme can be seen. -/
theorem Within.visible (h : σ.Within depth c) : σ.Visible 0 c :=
  h.imp_right fun hends => List.length_pos_of_ne_nil hends.ne_nil

theorem Within.past (h : σ.Within depth c) : σ.Past depth c := .inl h

/-- Recording comments moves over no bracket. -/
theorem Within.settled (h : σ.Within depth c) : σ.Within depth c.settled := by
  refine h.imp_right fun hends => ?_
  unfold Cursor.settled
  split
  · exact hends
  · rename_i l ls hrest
    rw [hrest] at hends
    exact hends

/-- Behind a token one is within the text or behind its last semicolon. -/
theorem Behind.past_zero {kind : Token.Kind} (h : σ.Behind kind depth c) : σ.Past 0 c :=
  h.imp Within.zero fun hend => ⟨rfl, hend.2.2⟩

/-- Inside brackets the last semicolon is not reached. -/
theorem Past.within (h : σ.Past depth c) (hpos : 0 < depth) : σ.Within depth c :=
  h.resolve_right fun hend => hpos.ne' hend.1

/-- Behind a lexeme that is no semicolon there is a further one to be looked at. -/
theorem Within.visible_succ {kind : Token.Kind} (h : σ.Within depth c)
    (hkind : c.hasKind n kind = true) (hne : kind ≠ .semicolon) : σ.Visible (n + 1) c := by
  refine h.imp_right fun hends => ?_
  cases hl : c.rest[n]? with
  | none => simp [Cursor.hasKind, hl] at hkind
  | some l =>
    refine hends.succ_lt_length hl ?_
    simp only [Cursor.hasKind, hl, Option.any_some, Lexeme.hasKind, decide_eq_true_eq] at hkind
    rwa [hkind]

/-- A word is an identifier. -/
theorem hasKind_of_isWord {word : String} (h : c.isWord n word = true) :
    c.hasKind n .identifier = true := by
  unfold Cursor.isWord at h
  unfold Cursor.hasKind
  cases hl : c.rest[n]? with
  | none => simp [hl] at h
  | some l =>
    simp only [hl, Option.any_some, Lexeme.isWord, Bool.and_eq_true] at h
    exact h.1

/-- What is taken leaves the text going on, unless it is the last semicolon. -/
theorem Within.took {l : Lexeme} {ls : List Lexeme} (h : σ.Within depth c)
    (hrest : c.rest = l :: ls) : σ.Behind l.token.kind depth (c.took l ls) := by
  rcases h with hend | hends
  · exact .inl (.inl hend)
  · rw [hrest] at hends
    rcases hends with ⟨rfl, hkind, hdepth⟩ | hends
    · exact .inr ⟨hkind, hdepth, rfl⟩
    · exact .inl (.inr hends)

/-- The kind that is seen next is that of the next lexeme. -/
theorem kind_of_hasKind {kind : Token.Kind} {l : Lexeme} {ls : List Lexeme}
    (hkind : c.hasKind 0 kind = true) (hrest : c.rest = l :: ls) : l.token.kind = kind := by
  simpa [Cursor.hasKind, hrest, Lexeme.hasKind] using hkind

/-- Behind a token of a kind that is no semicolon the text goes on. -/
theorem Within.took_of_ne {kind : Token.Kind} {l : Lexeme} {ls : List Lexeme}
    (h : σ.Within depth c) (hkind : c.hasKind 0 kind = true) (hne : kind ≠ .semicolon)
    (hrest : c.rest = l :: ls) : σ.Within (kind.depthAfter depth) (c.took l ls) := by
  rw [← kind_of_hasKind hkind hrest] at hne ⊢
  exact (h.took hrest).resolve_right fun hend => hne hend.1

/-- A semicolon may be the last lexeme of the text. -/
theorem Within.took_semicolon {l : Lexeme} {ls : List Lexeme} (h : σ.Within depth c)
    (hkind : c.hasKind 0 .semicolon = true) (hrest : c.rest = l :: ls) :
    σ.Past depth (c.took l ls) := by
  refine (h.took hrest).imp (fun hwithin => ?_) And.right
  rwa [kind_of_hasKind hkind hrest] at hwithin

/-! ### What is seen from two cursors -/

namespace Finds

variable (h : σ.Finds c d)
include h

/-- Spans are the same, further on. -/
theorem spanFrom (start : ℕ) :
    d.spanFrom (start + σ.offset) = (c.spanFrom start).moved σ.offset := by
  have hlast := h.lastEnd
  have hstop : max d.lastEnd (start + σ.offset) = max c.lastEnd start + σ.offset := by omega
  rw [Cursor.spanFrom, hstop]
  rfl

/-- The places of the comments ahead, if there are equally many, behind those of the comments before
the text. -/
theorem commentIds (hahead : d.commentsAhead.length = c.commentsAhead.length) :
    List.range' d.comments.length d.commentsAhead.length =
      (List.range' c.comments.length c.commentsAhead.length).map (σ.comments.length + ·) := by
  rw [h.comments, hahead, List.length_append, List.length_map, List.map_add_range']

end Finds

namespace Places

variable (h : σ.Places c d)
include h

/-- In the longer text there are as many lexemes more as stand behind the text. -/
theorem length_eq : d.rest.length = c.rest.length + σ.behind.length := by
  rw [h.rest, List.length_append, List.length_map]

/-- A lexeme that is visible is the same, further on. -/
private theorem getElem? (hn : σ.Visible n c) :
    d.rest[n]? = c.rest[n]?.map (Lexeme.moved σ.offset) := by
  rw [h.rest]
  rcases hn with hend | hlt
  · rw [hend.1, List.append_nil, List.getElem?_map]
  · rw [List.getElem?_append_left (by rwa [List.length_map]), List.getElem?_map]

/-- Kinds are seen alike as far as lexemes are visible. -/
theorem hasKind (hn : σ.Visible n c) (kind : Token.Kind) : d.hasKind n kind = c.hasKind n kind := by
  unfold Cursor.hasKind
  rw [h.getElem? hn, Option.any_map]
  rfl

/-- Words are seen alike as far as lexemes are visible. -/
theorem isWord (hn : σ.Visible n c) (word : String) : d.isWord n word = c.isWord n word := by
  unfold Cursor.isWord
  rw [h.getElem? hn, Option.any_map]
  rfl

theorem head? (hvisible : σ.Visible 0 c) :
    d.rest.head? = c.rest.head?.map (Lexeme.moved σ.offset) := by
  rw [List.head?_eq_getElem?, List.head?_eq_getElem?, h.getElem? hvisible]

/-- Breaks before the next lexeme are seen alike. -/
theorem lineBreakAhead (hvisible : σ.Visible 0 c) : d.lineBreakAhead = c.lineBreakAhead := by
  unfold Cursor.lineBreakAhead
  rw [h.head? hvisible, Option.any_map]
  rfl

/-- The end of the text is seen from both cursors or from neither. -/
theorem isEmpty (hvisible : σ.Visible 0 c) : d.rest.isEmpty = c.rest.isEmpty := by
  rw [h.rest]
  rcases hvisible with hend | hlt
  · rw [hend.1, List.append_nil, List.isEmpty_map]
  · obtain ⟨l, ls, hrest⟩ := List.exists_cons_of_length_pos hlt
    rw [hrest]
    rfl

/-- The next lexeme is there for both, or for none of them. -/
theorem cases_rest (hvisible : σ.Visible 0 c) :
    (c.rest = [] ∧ d.rest = [] ∧ σ.bytesBehind = 0) ∨
      ∃ l ls, c.rest = l :: ls ∧ d.rest =
        l.moved σ.offset :: (ls.map (Lexeme.moved σ.offset) ++ σ.behind) := by
  have hrest := h.rest
  cases hc : c.rest with
  | nil =>
    have hend : σ.Ends := hvisible.resolve_right (by simp [hc])
    rw [hc, hend.1] at hrest
    exact .inl ⟨rfl, hrest, hend.2⟩
  | cons l ls =>
    rw [hc] at hrest
    exact .inr ⟨l, ls, rfl, hrest⟩

/-- What comes next stands at the same place, further on. At the end of the text nothing may stand
behind it. -/
private theorem nextSpan (hvisible : σ.Visible 0 c) : d.nextSpan = c.nextSpan.moved σ.offset := by
  unfold Cursor.nextSpan
  rcases h.cases_rest hvisible with ⟨hc, hd, hend⟩ | ⟨l, ls, hc, hd⟩
  · rw [hc, hd, h.endOffset, hend]
    rfl
  · rw [hc, hd]
    rfl

theorem nextStart (hvisible : σ.Visible 0 c) : d.nextStart = c.nextStart + σ.offset := by
  unfold Cursor.nextStart
  rcases h.cases_rest hvisible with ⟨hc, hd, hend⟩ | ⟨l, ls, hc, hd⟩
  · rw [hc, hd, h.endOffset, hend, Nat.add_zero]
  · rw [hc, hd]
    rfl

/-- The comments before the next lexeme are the same, further on. -/
private theorem commentsAhead (hvisible : σ.Visible 0 c) :
    d.commentsAhead = c.commentsAhead.map (Comment.moved σ.offset) := by
  unfold Cursor.commentsAhead
  rcases h.cases_rest hvisible with ⟨hc, hd, -⟩ | ⟨l, ls, hc, hd⟩
  · rw [hc, hd]
    rfl
  · rw [hc, hd]
    rfl

/-- Comments get ids behind those that were given before. -/
theorem commentIds (hvisible : σ.Visible 0 c) :
    List.range' d.comments.length d.commentsAhead.length =
      (List.range' c.comments.length c.commentsAhead.length).map (σ.comments.length + ·) := by
  refine h.toFinds.commentIds ?_
  rw [h.commentsAhead hvisible, List.length_map]

/-! ### What becomes of two cursors -/

/-- Taking the next lexeme on both sides. -/
theorem took {l : Lexeme} {ls : List Lexeme} (_ : c.rest = l :: ls) :
    σ.Places (c.took l ls) (d.took (l.moved σ.offset)
      (ls.map (Lexeme.moved σ.offset) ++ σ.behind)) where
  rest := rfl
  endOffset := h.endOffset
  lastEnd := max_eq_left (Nat.le_add_left _ _)
  comments := by
    change d.comments ++ l.before.comments.map (Comment.moved σ.offset) = _
    rw [h.comments, Cursor.took, List.map_append, List.append_assoc]
  diagnostics := h.diagnostics
  lastReport := h.lastReport

/-- Recording comments on both sides. -/
theorem settled (hvisible : σ.Visible 0 c) : σ.Places c.settled d.settled := by
  unfold Cursor.settled
  rcases h.cases_rest hvisible with ⟨hc, hd, -⟩ | ⟨l, ls, hc, hd⟩
  · rw [hc, hd]
    exact h
  · rw [hc, hd]
    refine ⟨⟨h.endOffset, h.lastEnd, ?_, h.diagnostics, h.lastReport⟩, rfl⟩
    change d.comments ++ l.before.comments.map (Comment.moved σ.offset) = _
    rw [h.comments, List.map_append, List.append_assoc]

/-- Both cursors report or neither does: a report is left out if it is at the place of the last one,
which is the same further on. -/
theorem report (hvisible : σ.Visible 0 c) (kind : Diagnostic.Kind) (detail : Option String) :
    σ.Places (c.report kind detail) (d.report kind detail) := by
  have hreported : d.lastReport = some d.nextStart ↔ c.lastReport = some c.nextStart := by
    rw [h.nextStart hvisible]
    exact h.lastReport c.nextStart
  unfold Cursor.report
  by_cases hc : c.lastReport = some c.nextStart
  · rw [if_pos hc, if_pos (hreported.mpr hc)]
    exact h
  · rw [if_neg hc, if_neg (mt hreported.mp hc)]
    refine ⟨⟨h.endOffset, h.lastEnd, h.comments, ?_, fun start => ?_⟩, h.rest⟩
    · change d.diagnostics ++ [⟨kind, d.nextSpan, detail⟩] = _
      rw [h.diagnostics, h.nextSpan hvisible, List.map_append, List.append_assoc]
      rfl
    · change some d.nextStart = _ ↔ some c.nextStart = _
      rw [h.nextStart hvisible, Option.some_inj, Option.some_inj]
      exact Nat.add_right_cancel_iff

/-- Going back, with what has been reported since. -/
theorem rewind {next next' : Cursor} (hnext : σ.Places next next') :
    σ.Places { next with rest := c.rest, comments := c.comments }
      { next' with rest := d.rest, comments := d.comments } :=
  ⟨⟨hnext.endOffset, hnext.lastEnd, h.comments, hnext.diagnostics, hnext.lastReport⟩, h.rest⟩

end Places

end Placement

end Reifier
