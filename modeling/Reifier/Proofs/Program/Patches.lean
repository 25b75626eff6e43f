import Reifier.Proofs.Program.Layout
import Reifier.Proofs.Program.Splices

/-!
# How patches read

The words of a statement into which texts have been put are those of its patches (`Sound.reads`), if
the patches fit together (`Patch.Sound`): a comment that has changed is still one comment, a
declaration is replaced by a text that ends in a semicolon, and where nothing is left of what stood
behind a token, the token ends by itself in front of what is printed next to it (`Patch.beside`).

Elsewhere a token ends where it ended before, since what follows it is similar before and after
(`Token.Before.of_similar`): both texts go on with the same tokens, up to a place where they look
alike.
-/

namespace Reifier

open Token (Before Lexed Similar Alike Stops pieces wordsOf)

/-! ### Comments -/

theorem Comment.isComment_token (comment : Comment) : comment.token.kind.isComment = true := by
  cases hkind : comment.kind <;> simp [token, hkind] <;> rfl

private theorem Comment.shown_of_not_ignored {comment : Comment} (h : comment.ignored = false) :
    comment.shown = comment.token.text := by
  rw [shown, h, if_neg Bool.false_ne_true]
  rfl

private theorem Token.Kind.isTrivia_of_isComment {kind : Kind} (h : kind.isComment = true) :
    kind.isTrivia = true := by
  cases kind <;> first | rfl | cases h

/-- The token of a comment is trivia. -/
theorem Comment.isTrivia_of_kind_eq {t : Token} {comment : Comment}
    (h : t.kind = comment.kind.token) : t.kind.isTrivia = true :=
  Token.Kind.isTrivia_of_isComment (h ▸ comment.isComment_token)

/-- Trivia are blank or comments. -/
private theorem Token.Kind.eq_blank {kind : Kind} (h : kind.isTrivia = true)
    (hcomment : kind.isComment = false) : kind = .blank := by
  cases kind <;> first | rfl | exact absurd h Bool.false_ne_true | cases hcomment

/-- A comment whose text does not close it. -/
def Comment.Fits (comment : Comment) : Prop :=
  match comment.kind with
  | .line => '\n' ∉ comment.text.toList
  | .block => ¬ ['*', '/'] <:+: comment.text.toList

/-- A comment is taken as such if a line comment goes up to a line feed. -/
theorem Comment.Fits.before {comment : Comment} (h : comment.Fits) {rest : List Char}
    (hrest : comment.kind = .line → ∀ d ∈ rest.head?, d = '\n') : comment.token.Before rest := by
  obtain ⟨kind, text, span, ignored⟩ := comment
  cases kind with
  | line =>
    have hline : (text.toList ++ rest).takeWhile (· ≠ '\n') = text.toList :=
      Token.takeWhile_append_eq (fun d hd => by simpa using hrest rfl d hd) fun d hd => by
        have hne : d ≠ '\n' := fun heq => h (heq ▸ hd)
        simpa using hne
    refine .of_piece (p := ⟨.lineComment, '/', '/' :: text.toList⟩) ?_ ?_ rfl
    · change (⟨.lineComment, '/', '/' :: (text.toList ++ rest).takeWhile (· ≠ '\n')⟩ :
        Token.Piece) = _
      rw [hline]
    · simp [token, render, Token.Piece.chars]
  | block =>
    refine .of_piece (p := ⟨.blockComment, '/', '*' :: (text.toList ++ ['*', '/'])⟩) ?_ ?_ rfl
    · have hrun := Token.blockRun_append h rest
      have hpiece : Token.pieceAt '/' ('*' :: (text.toList ++ ['*', '/']) ++ rest) =
          ((Token.blockRun (text.toList ++ '*' :: '/' :: rest)).after ['*']).piece
            .blockComment '/' := by
        simp [Token.pieceAt, Token.slashPiece, Token.isSpace, Name.isStart]
      rw [Token.Piece.Before, hpiece, hrun]
      rfl
    · simp [token, render, Token.Piece.chars]

/-! ### Patches -/

namespace Patch

/-- The words that a patch becomes. -/
def words : Patch → List Token.Word
  | keep t => Token.words [t]
  | swap _ _ => []
  | const _ s => wordsOf s.text.toList

/-- Whether nothing is printed in place of a patch. -/
def gone : Patch → Bool
  | swap _ comment => comment.ignored
  | _ => false

/-- Whether a patch is trivia. -/
def isTrivia : Patch → Bool
  | keep t => t.kind.isTrivia
  | swap _ _ => true
  | const _ _ => false

/-- What is printed in place of patches without a gap: up to trivia of which something is left, or
up to the first word of a constant. -/
def beside : List Patch → List Char
  | [] => []
  | keep t :: ps => if t.kind.isTrivia then [] else t.text.toList ++ beside ps
  | swap _ comment :: ps => if comment.ignored then beside ps else []
  | const _ _ :: _ => "const".toList

/-- Whether a gap closes: nothing is left of the trivia that come next. -/
def closes : List Patch → Bool
  | [] => false
  | keep t :: ps => !t.kind.isTrivia && closes ps
  | swap t comment :: ps => ((swap t comment :: ps).dropWhile gone).head?.all (!·.isTrivia)
  | const _ _ :: _ => false

/-- What may follow a token that stays and is no trivia: where a gap closes the token ends by itself
in front of what is printed next to it, and a constant stands behind what ends the statement before
it. -/
structure Follow (t : Token) (ps : List Patch) : Prop where
  closed : closes ps = true → t.kind ≠ .unexpected ∧ t.Before (beside ps)
  ended : ∀ ts s, ps.head? = some (.const ts s) → t.kind ∈ [.braceOpen, .braceClose, .semicolon]

/-- A patch that fits in front of others. -/
def Fits : Patch → List Patch → Prop
  | keep t, ps => t.kind.isComment = false ∧ (t.kind.isTrivia = false → Follow t ps)
  | swap t comment, _ => t.kind = comment.kind.token ∧ (comment.ignored = false → comment.Fits)
  | const fates s, _ =>
    (∃ u us, fates = u :: us ∧ u.token.kind.isTrivia = false) ∧
      "const ".toList <+: s.text.toList ∧
      (pieces s.text.toList).getLast? = some Token.semicolonPiece

/-- Patches that fit together. -/
def Sound : List Patch → Prop
  | [] => True
  | p :: ps => p.Fits ps ∧ Sound ps

theorem Sound.of_append {ps qs : List Patch} (h : Sound (ps ++ qs)) : Sound qs := by
  induction ps with
  | nil => exact h
  | cons p ps ih => exact ih h.2

/-- A patch that is gone leaves no text. -/
private theorem new_of_gone {p : Patch} (h : p.gone = true) : p.new = [] := by
  cases p with
  | keep t => cases h
  | swap t comment =>
    have hignored : comment.ignored = true := h
    simp [new, Comment.shown, hignored]
  | const ts s => cases h

private theorem flatMap_new_dropWhile (ps : List Patch) :
    (ps.dropWhile gone).flatMap new = ps.flatMap new := by
  conv_rhs => rw [← List.takeWhile_append_dropWhile (p := gone) (l := ps), List.flatMap_append]
  have hnil : (ps.takeWhile gone).flatMap new = [] := List.flatMap_eq_nil_iff.mpr fun p hp =>
    new_of_gone (List.all_eq_true.mp List.all_takeWhile p hp)
  rw [hnil, List.nil_append]

/-! ### What stands in front -/

variable {p : Patch} {ps : List Patch} {back : List Token}

/-- The text of patches before anything is put in, and what follows them. -/
def olds (ps : List Patch) (back : List Token) : List Char :=
  (ps.flatMap tokens ++ back).flatMap (·.text.toList)

private theorem olds_cons (p : Patch) (ps : List Patch) (back : List Token) :
    olds (p :: ps) back = p.tokens.flatMap (·.text.toList) ++ olds ps back := by
  simp [olds]

/-- A line feed stays where it is, since it is blank. -/
private theorem head?_new_of_head?_old (hs : Sound ps) (hl : Lexed (ps.flatMap tokens ++ back))
    (h : ∀ d ∈ (olds ps back).head?, d = '\n') : ∀ d ∈ (ps.flatMap new).head?, d = '\n' := by
  cases ps with
  | nil => exact fun d hd => nomatch hd
  | cons p ps =>
    rw [olds_cons] at h
    cases p with
    | keep t =>
      have hne := hl.1.ne_nil
      obtain ⟨c, cs, hcs⟩ := List.exists_cons_of_ne_nil hne
      simpa [tokens, new, hcs] using h
    | swap t comment =>
      have hcomment : t.kind.isComment = true := hs.1.1 ▸ comment.isComment_token
      obtain ⟨more, hmore⟩ := hl.1.exists_of_isComment hcomment
      exact absurd (h '/' (by simp [tokens, hmore])) (by decide)
    | const ts s =>
      obtain ⟨⟨u, us, rfl, hu⟩, -, -⟩ := hs.1
      -- A declaration begins with a token that can be seen, and so not with a line break.
      have hblank : u.token.kind ≠ .blank := by
        intro heq
        rw [heq] at hu
        cases hu
      obtain ⟨c, cs, hcs⟩ := List.exists_cons_of_ne_nil hl.1.ne_nil
      have hc : c = '\n' := h c (by simp [tokens, hcs])
      have hspace := hl.1.isSpace_of_head? hblank c (by simp [hcs])
      rw [hc] at hspace
      cases hspace

/-- A comment that stays is taken as one, whatever it has become. -/
private theorem before_of_swap {t : Token} {comment : Comment} (hs : Sound (swap t comment :: ps))
    (hl : Lexed ((swap t comment :: ps).flatMap tokens ++ back))
    (hstays : comment.ignored = false) : comment.token.Before (ps.flatMap new) := by
  obtain ⟨hkind, hfits⟩ := hs.1
  refine (hfits hstays).before fun hline => head?_new_of_head?_old hs.2 hl.2.2 ?_
  exact hl.1.head?_of_lineComment (by rw [hkind, hline]; rfl)

/-- Trivia of which something is left begin with the same character as before, a blank or a slash,
and are read as trivia. -/
private theorem exists_front (hs : Sound (p :: ps)) (hl : Lexed ((p :: ps).flatMap tokens ++ back))
    (htrivia : p.isTrivia = true) (hgone : p.gone = false) :
    ∃ d, (olds (p :: ps) back).head? = some d ∧ ((p :: ps).flatMap new).head? = some d ∧
      (d = '/' ∨ Token.isSpace d = true) ∧
      ∀ q ∈ (pieces ((p :: ps).flatMap new)).head?, q.kind.isTrivia = true := by
  rw [olds_cons, List.flatMap_cons]
  cases p with
  | keep t =>
    have hblank : t.kind = .blank := Token.Kind.eq_blank htrivia hs.1.1
    obtain ⟨c, more, htext, hspace⟩ := hl.1.isSpace_of_blank hblank
    have hc := hspace c List.mem_cons_self
    refine ⟨c, by simp [tokens, htext], by simp [new, htext], .inr hc, fun q hq => ?_⟩
    rw [new, htext, List.cons_append, Token.pieces_cons, List.head?_cons, Option.mem_some_iff] at hq
    rw [← hq, Token.pieceAt, if_pos hc]
    rfl
  | swap t comment =>
    have hbefore := before_of_swap hs hl hgone
    have hshown := Comment.shown_of_not_ignored hgone
    have hcomment := comment.isComment_token
    obtain ⟨more, hmore⟩ := hl.1.exists_of_isComment (hs.1.1 ▸ hcomment)
    obtain ⟨more', hmore'⟩ := hbefore.exists_of_isComment hcomment
    refine ⟨'/', by simp [tokens, hmore], by simp [new, hshown, hmore'], .inl rfl, fun q hq => ?_⟩
    have hhead := hbefore.head?_kind
    rw [new, hshown] at hq
    rw [Option.mem_def.mp hq] at hhead
    rw [Option.some.inj hhead]
    exact Token.Kind.isTrivia_of_isComment hcomment
  | const ts s => cases htrivia

/-- Trivia of which something is left begin alike before and after. -/
private theorem similar_of_not_gone (hs : Sound (p :: ps))
    (hl : Lexed ((p :: ps).flatMap tokens ++ back))
    (htrivia : p.isTrivia = true) (hgone : p.gone = false) :
    Similar (olds (p :: ps) back) ((p :: ps).flatMap new) := by
  obtain ⟨d, hold, hnew, hd, -⟩ := exists_front hs hl htrivia hgone
  obtain ⟨R, hR⟩ := List.head?_eq_some_iff.mp hold
  obtain ⟨R', hR'⟩ := List.head?_eq_some_iff.mp hnew
  have hstops : Token.stops d = true := by
    rcases hd with rfl | hd
    · decide
    · exact Token.stops_of_isSpace hd
  rw [hR, hR']
  exact (Alike.same hstops R R').similar

/-- Where a comment stood of which nothing is left, other trivia begin, or nothing follows. -/
private theorem similar_of_gone (hs : Sound (p :: ps))
    (hl : Lexed ((p :: ps).flatMap tokens ++ back))
    (hgone : p.gone = true) (hleft : ∀ r ∈ ((p :: ps).dropWhile gone).head?, r.isTrivia = true) :
    Similar (olds (p :: ps) back) ((p :: ps).flatMap new) ∧
      ∀ q ∈ (pieces ((p :: ps).flatMap new)).head?, q.kind.isTrivia = true := by
  -- What is printed begins with the first patch that is not gone.
  have hsplit := List.takeWhile_append_dropWhile (p := gone) (l := p :: ps)
  have hstop := List.head?_dropWhile_not gone (p :: ps)
  rw [← flatMap_new_dropWhile]
  rcases hrs : (p :: ps).dropWhile gone with _ | ⟨r, rs⟩
  · exact ⟨(Alike.done _).similar, fun q hq => nomatch hq⟩
  rw [hrs] at hsplit hstop hleft
  have hs' : Sound (r :: rs) := .of_append (hsplit ▸ hs)
  have hl' : Lexed ((r :: rs).flatMap tokens ++ back) := by
    rw [← hsplit, List.flatMap_append, List.append_assoc] at hl
    exact hl.of_append
  obtain ⟨d, -, hnew, hd, hq⟩ := exists_front hs' hl' (hleft r rfl) hstop
  refine ⟨?_, hq⟩
  cases p with
  | swap t comment =>
    have hcomment : t.kind.isComment = true := hs.1.1 ▸ comment.isComment_token
    obtain ⟨more, hmore⟩ := hl.1.exists_of_isComment hcomment
    obtain ⟨R', hR'⟩ := List.head?_eq_some_iff.mp hnew
    rw [hR', olds_cons, tokens, List.flatMap_singleton, hmore]
    exact (Alike.comment hd _ R').similar
  | keep t => cases hgone
  | const ts s => cases hgone

/-- A gap that does not close and of whose front nothing is left goes on with trivia that stay. -/
private theorem isTrivia_of_not_closes (hclosed : closes (p :: ps) = false)
    (hgone : p.gone = true) : ∀ r ∈ ((p :: ps).dropWhile gone).head?, r.isTrivia = true := by
  cases p with
  | keep t => cases hgone
  | const ts s => cases hgone
  | swap t comment =>
    intro r hr
    rw [closes, Option.mem_def.mp hr] at hclosed
    simpa using hclosed

/-- What is printed is what stands without a gap, and behind it trivia or nothing. -/
private theorem exists_flatMap_new_eq (hs : Sound ps) (hl : Lexed (ps.flatMap tokens ++ back)) :
    ∃ rest, ps.flatMap new = beside ps ++ rest ∧ Token.Gap rest := by
  induction ps with
  | nil => exact ⟨[], rfl, nofun⟩
  | cons p ps ih =>
    -- What is left of trivia begins with the same sign, and so is a gap itself.
    have hfront : p.isTrivia = true → p.gone = false → Token.Gap ((p :: ps).flatMap new) := by
      intro htrivia hgone d hd
      obtain ⟨d', -, hnew, hfront, -⟩ := exists_front hs hl htrivia hgone
      rw [hnew] at hd
      cases hd
      exact hfront
    have htail : Lexed (ps.flatMap tokens ++ back) := by
      rw [List.flatMap_cons, List.append_assoc] at hl
      exact hl.of_append
    obtain ⟨rest, hrest, hgap⟩ := ih hs.2 htail
    cases p with
    | keep t =>
      cases htrivia : t.kind.isTrivia with
      | true => exact ⟨_, by rw [beside, htrivia]; rfl, hfront htrivia rfl⟩
      | false =>
        refine ⟨rest, ?_, hgap⟩
        rw [beside, htrivia, if_neg Bool.false_ne_true, List.flatMap_cons, new, hrest,
          List.append_assoc]
    | swap t comment =>
      cases hignored : comment.ignored with
      | false => exact ⟨_, by rw [beside, hignored]; rfl, hfront rfl hignored⟩
      | true =>
        refine ⟨rest, ?_, hgap⟩
        rw [beside, hignored, if_pos rfl, List.flatMap_cons,
          new_of_gone (p := swap t comment) hignored, List.nil_append, hrest]
    -- A constant begins with a word, and behind this stands a blank.
    | const ts s =>
      obtain ⟨-, ⟨more, hmore⟩, -⟩ := hs.1
      refine ⟨' ' :: more ++ ps.flatMap new, ?_, ?_⟩
      · rw [List.flatMap_cons, new, ← hmore]
        rfl
      · rintro _ ⟨⟩
        exact .inr rfl

/-- What is known of what follows a token that is read: how it begins, and that it is similar before
and after unless a gap closes. -/
def Reads (ps : List Patch) (back : List Token) (u : Token) : Prop :=
  (pieces (ps.flatMap new)).head?.map Token.Piece.kind = some u.kind ∧
    (closes ps = false → Similar (olds ps back) (ps.flatMap new))

/-- Where no gap closes, what follows a token that stays is similar before and after, and what it
begins with is trivia or the next token. -/
private theorem similar_of_not_closes (hclosed : closes ps = false) (hs : Sound ps)
    (hl : Lexed (ps.flatMap tokens ++ back)) (hconst : ∀ ts s, ps.head? ≠ some (const ts s))
    (hnext : ∀ u, ps.head? = some (keep u) → u.kind.isTrivia = false → Reads ps back u) :
    Similar (olds ps back) (ps.flatMap new) ∧
      ∀ q ∈ (pieces (ps.flatMap new)).head?, q.kind.isTrivia = true ∨
        ∃ u, ps.head? = some (keep u) ∧ u.kind = q.kind := by
  cases ps with
  | nil => exact ⟨(Alike.done _).similar, fun q hq => nomatch hq⟩
  | cons p ps =>
    cases hgone : p.gone with
    | true =>
      obtain ⟨hsimilar, hq⟩ :=
        similar_of_gone hs hl hgone (isTrivia_of_not_closes hclosed hgone)
      exact ⟨hsimilar, fun q hq' => .inl (hq q hq')⟩
    | false =>
      cases htrivia : p.isTrivia with
      | true =>
        obtain ⟨-, -, -, -, hq⟩ := exists_front hs hl htrivia hgone
        exact ⟨similar_of_not_gone hs hl htrivia hgone, fun q hq' => .inl (hq q hq')⟩
      | false =>
        cases p with
        | keep u =>
          obtain ⟨hhead, hsimilar⟩ := hnext u rfl htrivia
          refine ⟨hsimilar hclosed, fun q hq => .inr ⟨u, rfl, ?_⟩⟩
          rw [Option.mem_def.mp hq] at hhead
          exact (Option.some.inj hhead).symm
        | swap t comment => cases htrivia
        | const ts s => exact absurd rfl (hconst ts s)

/-! ### What is read -/

/-- A token that stays, is no trivia and stands in front of no gap that closes is read as before. -/
private theorem reads_keep {t : Token} (htrivia : t.kind.isTrivia = false)
    (hclosed : closes ps = false)
    (hs : Sound (keep t :: ps)) (hl : Lexed (t :: (ps.flatMap tokens ++ back)))
    (hnext : ∀ u, ps.head? = some (keep u) → u.kind.isTrivia = false → Reads ps back u) :
    t.Before (ps.flatMap new) ∧
      (t.kind = .unexpected → ∀ q ∈ (pieces (ps.flatMap new)).head?, q.kind ≠ .unexpected) ∧
      Similar (t.text.toList ++ olds ps back) (t.text.toList ++ ps.flatMap new) := by
  by_cases hconst : ∃ ts s, ps.head? = some (const ts s)
  · obtain ⟨ts, s, hhead⟩ := hconst
    have hender := (hs.1.2 htrivia).ended ts s hhead
    -- In front of a constant stands a token that ends by itself, whatever is behind it.
    obtain ⟨d, htext, hstops, hbefore⟩ := hl.1.exists_of_ender hender
    obtain ⟨qs, rfl⟩ := List.head?_eq_some_iff.mp hhead
    refine ⟨hbefore _ fun e he => ?_, fun hunexpected => ?_, ?_⟩
    · obtain ⟨more, hmore⟩ := hs.2.1.2.1
      rw [List.flatMap_cons, new, ← hmore] at he
      cases he
      decide
    · rw [hunexpected] at hender
      exact absurd hender (by decide)
    · rw [htext]
      exact (Alike.same hstops _ _).similar
  · -- Otherwise what stands behind begins as before, or with what no token goes on with.
    obtain ⟨hsimilar, hhead⟩ := similar_of_not_closes hclosed hs.2 hl.2.2
      (fun ts s heq => hconst ⟨ts, s, heq⟩) hnext
    refine ⟨hl.1.of_similar hsimilar ?_, fun hunexpected q hq heq => ?_, hsimilar.append _⟩
    · rintro heq
      rw [heq] at htrivia
      cases htrivia
    · rcases hhead q hq with htrivia' | ⟨u, hu, hkind⟩
      · rw [heq] at htrivia'
        cases htrivia'
      · obtain ⟨qs, rfl⟩ := List.head?_eq_some_iff.mp hu
        exact hl.2.1 hunexpected u rfl (hkind.trans heq)

/-- A token in front of a gap that closes ends by itself. -/
private theorem before_of_closes {t : Token} (htrivia : t.kind.isTrivia = false)
    (hclosed : closes ps = true) (hs : Sound (keep t :: ps))
    (hl : Lexed (ps.flatMap tokens ++ back)) :
    t.kind ≠ .unexpected ∧ t.Before (ps.flatMap new) := by
  obtain ⟨hkind, hbefore⟩ := (hs.1.2 htrivia).closed hclosed
  obtain ⟨rest, hrest, hgap⟩ := exists_flatMap_new_eq hs.2 hl
  exact ⟨hkind, hrest ▸ hbefore.append_gap hkind htrivia hgap⟩

/-- Wherever gaps close, a token that stays and is no trivia is read as its word. -/
private theorem reads_visible {t : Token} (htrivia : t.kind.isTrivia = false)
    (hs : Sound (keep t :: ps)) (hl : Lexed (t :: (ps.flatMap tokens ++ back)))
    (hnext : ∀ u, ps.head? = some (keep u) → u.kind.isTrivia = false → Reads ps back u) :
    wordsOf ((keep t).new ++ ps.flatMap new) = (keep t).words ++ wordsOf (ps.flatMap new) ∧
      Reads (keep t :: ps) back t := by
  have hcloses : closes (keep t :: ps) = closes ps := by rw [closes, htrivia]; rfl
  rw [Reads, hcloses, new]
  cases hclosed : closes ps with
  | true =>
    obtain ⟨hkind, hbefore⟩ := before_of_closes htrivia hclosed hs hl.2.2
    exact ⟨hbefore.wordsOf_append fun hunexpected => absurd hunexpected hkind,
      hbefore.head?_kind, fun hopen => Bool.noConfusion hopen⟩
  | false =>
    obtain ⟨hbefore, hunexpected, hsimilar⟩ := reads_keep htrivia hclosed hs hl hnext
    refine ⟨hbefore.wordsOf_append hunexpected, hbefore.head?_kind, fun _ => ?_⟩
    rw [olds_cons, tokens, List.flatMap_singleton]
    exact hsimilar

/-- A blank that stays has no words. -/
private theorem wordsOf_blank {t : Token} (hblank : t.kind = .blank)
    (hl : Lexed (t :: (ps.flatMap tokens ++ back))) :
    wordsOf ((keep t).new ++ ps.flatMap new) = (keep t).words ++ wordsOf (ps.flatMap new) := by
  obtain ⟨c, more, htext, hspace⟩ := hl.1.isSpace_of_blank hblank
  have htrivia : t.kind.isTrivia = true := by rw [hblank]; rfl
  rw [new, htext, Token.wordsOf_append_of_isSpace hspace]
  simp [words, Token.words, htrivia]

/-- A comment has no words, whether it stays or not. -/
private theorem wordsOf_swap {t : Token} {comment : Comment} (hs : Sound (swap t comment :: ps))
    (hl : Lexed ((swap t comment :: ps).flatMap tokens ++ back)) :
    wordsOf ((swap t comment).new ++ ps.flatMap new) = wordsOf (ps.flatMap new) := by
  cases hgone : comment.ignored with
  | true => rw [new_of_gone (p := swap t comment) hgone, List.nil_append]
  | false =>
    have hbefore := before_of_swap hs hl hgone
    have htrivia := Token.Kind.isTrivia_of_isComment comment.isComment_token
    rw [new, Comment.shown_of_not_ignored hgone, hbefore.wordsOf_append fun hunexpected => ?_]
    · simp [Token.words, htrivia]
    · rw [hunexpected] at htrivia
      cases htrivia

/-- **The words of what is printed are those of the patches.** Before and after, what stands behind
the first of them is similar, unless a gap closes there. -/
theorem Sound.reads (hs : Sound ps) (hl : Lexed (ps.flatMap tokens ++ back)) :
    wordsOf (ps.flatMap new) = ps.flatMap words ∧
      ∀ u, ps.head? = some (keep u) → u.kind.isTrivia = false → Reads ps back u := by
  -- Where a token ends depends on what follows it, so both parts are shown in one induction.
  induction ps with
  | nil => exact ⟨rfl, by rintro u ⟨⟩⟩
  | cons p ps ih =>
    rw [List.flatMap_cons, List.append_assoc] at hl
    obtain ⟨hwords, hnext⟩ := ih hs.2 hl.of_append
    rw [List.flatMap_cons, List.flatMap_cons, ← hwords]
    cases p with
    | keep t =>
      cases htrivia : t.kind.isTrivia with
      | true =>
        refine ⟨wordsOf_blank (Token.Kind.eq_blank htrivia hs.1.1) hl, fun u hu hvisible => ?_⟩
        cases hu
        exact nomatch htrivia.symm.trans hvisible
      | false =>
        obtain ⟨hwords, hreads⟩ := reads_visible htrivia hs hl hnext
        refine ⟨hwords, fun u hu _ => ?_⟩
        cases hu
        exact hreads
    | swap t comment => exact ⟨wordsOf_swap hs hl, by rintro u ⟨⟩⟩
    | const ts s =>
      refine ⟨?_, by rintro u ⟨⟩⟩
      obtain ⟨-, -, hlast⟩ := hs.1
      rw [new, Token.wordsOf_append hlast]
      rfl

end Patch

end Reifier
