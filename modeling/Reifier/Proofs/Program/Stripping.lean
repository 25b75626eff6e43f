import Mathlib.Tactic
import Reifier.Proofs.Directive
import Reifier.Proofs.Program.Comments
import Reifier.Proofs.Program.Patches
import Reifier.Proofs.Token.Patterns

/-!
# What is left of comments without the directive

Each comment of a program is stripped on its own (`applyAll_scan`): one that does not hold the
directive stays as it is, any other loses the first occurrence and is ignored exactly if only blank
space and stars are left. What is printed for it is read as one comment again, unless it is a block
comment in which a star stood before the directive and a slash behind it: these two close the
comment where they meet (`stripped_of_parse`).

A printed comment is read as one comment if and only if its text does not close it
(`alone_iff_fits`), and the text of a comment that was read never does (`fits_of_ofToken?`).
-/

namespace Reifier

/-! ### First occurrences -/

namespace Text

/-- What a cut finds is an occurrence, and none is before it. -/
theorem cut?_spec {needle text before after : List Char}
    (h : cut? needle text = some (before, after)) :
    text = before ++ needle ++ after ∧
      ∀ front rest, text = front ++ needle ++ rest → before.length ≤ front.length := by
  induction text generalizing before with
  | nil =>
    unfold cut? at h
    split_ifs at h with hempty
    cases h
    rw [List.isEmpty_iff.mp hempty]
    exact ⟨rfl, fun _ _ _ => Nat.zero_le _⟩
  | cons c cs ih =>
    rw [cut?] at h
    split_ifs at h with hprefix
    · cases h
      refine ⟨?_, fun _ _ _ => Nat.zero_le _⟩
      obtain ⟨rest, hrest⟩ := List.isPrefixOf_iff_prefix.mp hprefix
      rw [List.nil_append, ← hrest, List.drop_left]
    · obtain ⟨⟨front, rest⟩, hcut, hboth⟩ := Option.map_eq_some_iff.mp h
      cases hboth
      obtain ⟨htext, hfirst⟩ := ih hcut
      refine ⟨by rw [htext]; simp, fun front' rest' htext' => ?_⟩
      -- An occurrence at the very front would have been found here.
      cases front' with
      | nil => exact absurd (List.isPrefixOf_iff_prefix.mpr ⟨rest', htext'.symm⟩) hprefix
      | cons d front' => exact Nat.succ_le_succ (hfirst _ _ (List.cons.inj htext').2)

/-- Two neighbours stand in texts put together where they stand in one of them, or at the seam. -/
private theorem pair_infix_append_iff {a b : Char} {xs ys : List Char} :
    [a, b] <:+: xs ++ ys ↔
      [a, b] <:+: xs ∨ [a, b] <:+: ys ∨ xs.getLast? = some a ∧ ys.head? = some b := by
  induction xs with
  | nil => simp
  | cons c xs ih =>
    cases xs with
    | nil =>
      have hfront : [a, b] <+: c :: ys ↔ some c = some a ∧ ys.head? = some b := by
        rw [List.cons_prefix_cons, Option.some_inj, List.head?_eq_some_iff, @eq_comm _ a c]
        exact and_congr_right fun _ => exists_congr fun _ => eq_comm
      have hone : ¬ [a, b] <:+: [c] := fun h => absurd h.length_le (by simp)
      rw [List.singleton_append, List.infix_cons_iff, hfront, or_iff_right hone, or_comm]
      rfl
    | cons d xs =>
      have hfront : [a, b] <+: c :: (d :: xs ++ ys) ↔ [a, b] <+: c :: d :: xs := by
        simp [List.cons_prefix_cons]
      rw [List.cons_append, List.infix_cons_iff, ih, hfront, @List.infix_cons_iff _ _ c,
        List.getLast?_cons_cons, or_assoc]

end Text

/-! ### One comment -/

/-- A line comment is a body on one line behind its signs. -/
private theorem Token.Kind.Matches.exists_lineComment {kind : Token.Kind} {cs : List Char}
    (h : kind.Matches cs) (hkind : kind = .lineComment) :
    ∃ body, cs = '/' :: '/' :: body ∧ '\n' ∉ body := by
  have hsigns : ∀ e ∈ Token.punctuation, e.1 ≠ .lineComment := by decide
  cases h with
  | sign he => exact absurd hkind (hsigns _ he)
  | lineComment hcs => exact ⟨_, rfl, hcs⟩
  | _ => cases hkind

/-- A block comment is a body between its signs, in which the closing ones do not occur. -/
private theorem Token.Kind.Matches.exists_blockComment {kind : Token.Kind} {cs : List Char}
    (h : kind.Matches cs) (hkind : kind = .blockComment) :
    ∃ body, cs = '/' :: '*' :: (body ++ ['*', '/']) ∧ ¬ ['*', '/'] <:+: body := by
  have hsigns : ∀ e ∈ Token.punctuation, e.1 ≠ .blockComment := by decide
  cases h with
  | sign he => exact absurd hkind (hsigns _ he)
  | blockComment hbody => exact ⟨_, rfl, hbody⟩
  | _ => cases hkind

namespace Comment

/-- A comment that is taken as a token is not closed by its text. -/
private theorem fits_of_before {comment : Comment} {t : Token} {rest : List Char}
    (h : t.Before rest)
    (hkind : t.kind = comment.kind.token) (htext : t.text = comment.render) : comment.Fits := by
  obtain ⟨kind, text, span, ignored⟩ := comment
  have hne : t.kind ≠ .unexpected := by
    rw [hkind]
    cases kind <;> exact Token.Kind.noConfusion
  have hmatches := h.kind_matches hne
  rw [htext] at hmatches
  cases kind with
  | line =>
    obtain ⟨body, hbody, hfeed⟩ := hmatches.exists_lineComment hkind
    have hsame : text.toList = body := by simpa [render] using hbody
    unfold Fits
    rwa [hsame]
  | block =>
    obtain ⟨body, hbody, hclose⟩ := hmatches.exists_blockComment hkind
    have hsame : text.toList = body := by simpa [render] using hbody
    unfold Fits
    rwa [hsame]

/-- **The text of a comment that was read does not close it.** -/
theorem fits_of_ofToken? {source : String} {t : Token} (ht : t ∈ Token.scan source)
    {comment : Comment} (h : ofToken? t = some comment) : comment.Fits := by
  obtain ⟨rfl, -⟩ := token_of_ofToken? ht h
  obtain ⟨front, back, hsplit⟩ := List.append_of_mem ht
  have hlexed : Token.Lexed (comment.token :: back) := .of_append (hsplit ▸ Token.lexed_scan source)
  exact fits_of_before hlexed.1 rfl rfl

/-- The comment is read as one when it is printed alone, a line comment with the line feed that ends
it. -/
def Alone (comment : Comment) : Prop :=
  match comment.kind with
  | .line => (Token.scan (comment.render ++ "\n")).map Token.word =
      [⟨.lineComment, comment.render⟩, ⟨.blank, "\n"⟩]
  | .block => (Token.scan comment.render).map Token.word = [⟨.blockComment, comment.render⟩]

/-- A comment that is the first token of a text is not closed by its text. -/
private theorem fits_of_scan {comment : Comment} {source : String} {word : Token.Word}
    {words : List Token.Word} (h : (Token.scan source).map Token.word = word :: words)
    (hkind : word.kind = comment.kind.token) (htext : word.text = comment.render) :
    comment.Fits := by
  obtain ⟨t, ts, hscan, rfl, -⟩ := List.map_eq_cons_iff.mp h
  have hlexed : Token.Lexed (t :: ts) := hscan ▸ Token.lexed_scan source
  exact fits_of_before hlexed.1 hkind htext

private theorem word_place (offset : ℕ) (ps : List Token.Piece) :
    (Token.place offset ps).map Token.word = ps.map Token.Piece.asWord := by
  induction ps generalizing offset with
  | nil => rfl
  | cons p ps ih => rw [Token.place, List.map_cons, List.map_cons, ih]; rfl

/-- A comment whose text does not close it is the first token of what it is printed in front of. -/
private theorem Fits.word_ofChars {comment : Comment} (h : comment.Fits) (rest : List Char)
    (hrest : comment.kind = .line → ∀ d ∈ rest.head?, d = '\n') :
    (Token.ofChars (comment.render.toList ++ rest)).map Token.word =
      ⟨comment.kind.token, comment.render⟩ :: (Token.ofChars rest).map Token.word := by
  have hne : comment.token.kind ≠ .unexpected := fun hkind => by
    have hcomment := comment.isComment_token
    rw [hkind] at hcomment
    cases hcomment
  obtain ⟨p, hchars, hp, hpkind⟩ := (h.before hrest).exists_piece hne
  have hword : p.asWord = ⟨comment.kind.token, comment.render⟩ := by
    rw [Token.Piece.asWord, hpkind, ← hchars, String.ofList_toList]
    rfl
  have hrender : comment.render.toList = p.chars := hchars
  rw [Token.ofChars, Token.ofChars, word_place, word_place, hrender, Token.pieces_chars_append hp,
    Token.joinUnexpected_cons_of_ne (hpkind ▸ hne), List.map_cons, hword]

/-- **A printed comment is read as one if and only if its text does not close it.** -/
theorem alone_iff_fits {comment : Comment} : comment.Alone ↔ comment.Fits := by
  cases hkind : comment.kind with
  | line =>
    have hfeed : (Token.ofChars ['\n']).map Token.word = [⟨.blank, "\n"⟩] := rfl
    rw [Alone, hkind]
    refine ⟨fun h => fits_of_scan h (by rw [hkind]; rfl) rfl, fun h => ?_⟩
    have hword := h.word_ofChars ['\n'] fun _ d hd => (Option.some.inj hd).symm
    rw [hkind, hfeed] at hword
    rw [Token.scan, String.toList_append]
    exact hword
  | block =>
    rw [Alone, hkind]
    refine ⟨fun h => fits_of_scan h (by rw [hkind]; rfl) rfl, fun h => ?_⟩
    have hword := h.word_ofChars [] fun hline => by rw [hkind] at hline; cases hline
    rw [hkind, List.append_nil] at hword
    exact hword

end Comment

/-! ### All comments of a program -/

namespace Directive

variable {directive : String}

/-- What becomes of one comment. -/
def strip (directive : String) (comment : Comment) : Comment :=
  match edit? directive 0 comment with
  | some e => { comment with text := e.text, ignored := e.ignored }
  | none => comment

/-- The edit of a comment does not depend on its place. -/
theorem edit?_eq (id : CommentId) (comment : Comment) :
    edit? directive id comment =
      (edit? directive 0 comment).map fun e => { e with comment := id } := by
  unfold edit?
  split_ifs
  · rfl
  · rw [Option.map_map]
    rfl

private theorem applyAll_append (edits more : List Edit) (comments : List Comment) :
    applyAll (edits ++ more) comments = applyAll more (applyAll edits comments) :=
  List.foldl_append

/-- **Taking the directive out of comments takes it out of each.** -/
theorem applyAll_scan (comments : List Comment) :
    applyAll (scan directive comments) comments = comments.map (strip directive) := by
  have hfrom : ∀ front : List Comment,
      applyAll (scanFrom directive front.length comments) (front ++ comments) =
        front ++ comments.map (strip directive) := by
    induction comments with
    | nil => exact fun _ => rfl
    | cons c cs ih =>
      intro front
      have hnext := ih (front ++ [strip directive c])
      rw [List.length_append, List.length_singleton] at hnext
      have hhere : applyAll ((edit? directive front.length c).toList) (front ++ c :: cs) =
          front ++ strip directive c :: cs := by
        rw [edit?_eq, strip]
        cases edit? directive 0 c with
        | none => rfl
        | some e => simp [applyAll, Edit.apply, List.modify_eq_take_drop]
      rw [List.append_assoc, List.singleton_append] at hnext
      rw [scanFrom, applyAll_append, hhere, hnext, List.append_assoc]
      rfl
  exact hfrom []

end Directive

/-- What is left of a comment without the directive: everything, or all but the first occurrence. It
is ignored exactly if only blank space and stars are left, and it is read as one comment again
unless the parts before and behind the directive close it where they meet. -/
inductive Comment.Stripped (directive : List Char) (comment next : Comment) : Prop
  | kept (habsent : ¬ directive <:+: comment.text.toList) (hnext : next = comment)
      (halone : next.Alone)
  | taken {before after : List Char} (htext : comment.text.toList = before ++ directive ++ after)
      (hfirst : ∀ front rest, comment.text.toList = front ++ directive ++ rest →
        before.length ≤ front.length)
      (hkind : next.kind = comment.kind) (hspan : next.span = comment.span)
      (hnext : next.text.toList = before ++ after)
      (hignored : next.ignored = true ↔ ∀ c ∈ before ++ after, c = '*' ∨ Text.isBlank c = true)
      (halone : next.Alone ↔
        ¬ (comment.kind = .block ∧ before.getLast? = some '*' ∧ after.head? = some '/'))

namespace Directive

/-- Parts of a text that does not close a comment close it at most where they meet. -/
private theorem fits_append_iff {comment next : Comment} {before after directive : List Char}
    (h : comment.Fits) (hkind : next.kind = comment.kind)
    (htext : comment.text.toList = before ++ directive ++ after)
    (hnext : next.text.toList = before ++ after) :
    next.Fits ↔
      ¬ (comment.kind = .block ∧ before.getLast? = some '*' ∧ after.head? = some '/') := by
  unfold Comment.Fits at h ⊢
  rw [hkind, hnext]
  rw [htext] at h
  cases hform : comment.kind with
  | line =>
    rw [hform] at h
    simp only [List.mem_append, not_or] at h ⊢
    exact iff_of_true ⟨h.1.1, h.2⟩ fun hblock => Comment.Kind.noConfusion hblock.1
  | block =>
    rw [hform] at h
    have hbefore : ¬ ['*', '/'] <:+: before := fun hpair => h <| by
      rw [List.append_assoc]
      exact hpair.trans (List.prefix_append _ _).isInfix
    have hafter : ¬ ['*', '/'] <:+: after := fun hpair =>
      h (hpair.trans (List.suffix_append _ _).isInfix)
    simp only [Text.pair_infix_append_iff, hbefore, hafter, false_or, true_and]

/-- One comment that does not close itself. -/
private theorem stripped_strip {directive : String} (hdirective : directive ≠ "")
    {comment : Comment} (h : comment.Fits) :
    comment.Stripped directive.toList (strip directive comment) := by
  have hempty : directive.isEmpty = false :=
    Bool.eq_false_iff.mpr fun h => hdirective (String.isEmpty_iff.mp h)
  cases hcut : Text.cut? directive.toList comment.text.toList with
  | none =>
    -- Where nothing is cut out the directive does not occur, and the comment stays.
    have habsent : ¬ directive.toList <:+: comment.text.toList := fun hpair => by
      have hsome := Text.isSome_cut?_iff.mpr hpair
      rw [hcut] at hsome
      cases hsome
    have hsame : strip directive comment = comment := by
      simp [strip, edit?, Text.erase?, hempty, hcut]
    rw [hsame]
    exact .kept habsent rfl (Comment.alone_iff_fits.mpr h)
  | some parts =>
    obtain ⟨before, after⟩ := parts
    obtain ⟨htext, hfirst⟩ := Text.cut?_spec hcut
    have hstrip : strip directive comment = { comment with
        text := String.ofList (before ++ after),
        ignored := (before ++ after).all fun c => c = '*' || Text.isBlank c } := by
      simp [strip, edit?, Text.erase?, hempty, hcut]
    have hnext : (strip directive comment).text.toList = before ++ after := by
      rw [hstrip, String.toList_ofList]
    have hkind : (strip directive comment).kind = comment.kind := by rw [hstrip]
    refine .taken htext hfirst hkind (by rw [hstrip]) hnext ?_ ?_
    · rw [hstrip]
      simp only [List.all_eq_true, Bool.or_eq_true, decide_eq_true_eq]
    · rw [Comment.alone_iff_fits, fits_append_iff h hkind htext hnext]

end Directive

namespace Program

/-- **Taking the directive out of the comments of a program.** A comment that does not hold it is
unchanged, any other loses exactly the first occurrence and is ignored exactly if only blank space
and stars are left. What is printed for it is read as one comment of the same kind, unless it is a
block comment with a star before the directive and a slash behind it. -/
theorem stripped_of_parse {limit : Option ℕ} {source : String} {reading : Reading}
    (h : parse limit source = .ok reading) {directive : String} (hdirective : directive ≠ "") :
    List.Forall₂ (Comment.Stripped directive.toList) reading.program.comments
      (Directive.applyAll (Directive.scan directive reading.program.comments)
        reading.program.comments) := by
  rw [Directive.applyAll_scan, List.forall₂_map_right_iff, List.forall₂_same]
  intro comment hcomment
  rw [comments_of_parse h] at hcomment
  obtain ⟨t, ht, hread⟩ := List.mem_filterMap.mp hcomment
  exact Directive.stripped_strip hdirective (Comment.fits_of_ofToken? ht hread)

/-- The comments of a source without the directive. -/
def strippedOf (directive source : String) : Option (List Comment) :=
  match parse none source with
  | .ok reading => some (Directive.applyAll (Directive.scan directive reading.program.comments)
      reading.program.comments)
  | .error _ => none

/-- Stripped comments come from a source that is read. -/
private theorem exists_of_strippedOf {directive source : String} {comments : List Comment}
    (h : strippedOf directive source = some comments) :
    ∃ reading, parse none source = .ok reading ∧
      Directive.applyAll (Directive.scan directive reading.program.comments)
        reading.program.comments = comments := by
  unfold strippedOf at h
  split at h
  · rename_i reading hreading
    exact ⟨reading, hreading, Option.some.inj h⟩
  · cases h

/-- A line comment that holds the directive twice, a block comment of which stars are left, and one
without the directive. -/
theorem stripped_of_parse_mixed :
    "@tcomb" ≠ "" ∧ ∃ reading,
      parse none "// @tcomb @tcomb\n/** @tcomb */ type A = /* b */ string" = .ok reading ∧
        List.Forall₂ (Comment.Stripped "@tcomb".toList) reading.program.comments
          [⟨.line, "  @tcomb", ⟨0, 16⟩, false⟩, ⟨.block, "*  ", ⟨17, 30⟩, true⟩,
            ⟨.block, " b ", ⟨40, 47⟩, false⟩] := by
  have hstripped : strippedOf "@tcomb"
      "// @tcomb @tcomb\n/** @tcomb */ type A = /* b */ string" =
        some [⟨.line, "  @tcomb", ⟨0, 16⟩, false⟩, ⟨.block, "*  ", ⟨17, 30⟩, true⟩,
          ⟨.block, " b ", ⟨40, 47⟩, false⟩] := by
    decide +kernel
  obtain ⟨reading, hreading, hcomments⟩ := exists_of_strippedOf hstripped
  refine ⟨by decide, reading, hreading, ?_⟩
  rw [← hcomments]
  exact stripped_of_parse hreading (by decide)

/-- A star and a slash that meet where the directive was: what is printed ends too early. -/
theorem exists_not_alone :
    ∃ reading, parse none "/* *@tcomb/ y */\ntype A = string" = .ok reading ∧
      ∃ comment ∈ Directive.applyAll (Directive.scan "@tcomb" reading.program.comments)
        reading.program.comments,
        comment.ignored = false ∧ comment.render = "/* */ y */" ∧ ¬ comment.Alone := by
  have hstripped : strippedOf "@tcomb" "/* *@tcomb/ y */\ntype A = string" =
      some [⟨.block, " */ y ", ⟨0, 16⟩, false⟩] := by
    decide +kernel
  obtain ⟨reading, hreading, hcomments⟩ := exists_of_strippedOf hstripped
  refine ⟨reading, hreading, ?_⟩
  rw [hcomments]
  refine ⟨_, List.mem_singleton_self _, rfl, by decide, fun halone => ?_⟩
  have hfits := Comment.alone_iff_fits.mp halone
  exact hfits ⟨[' '], [' ', 'y', ' '], rfl⟩

end Program

end Reifier
