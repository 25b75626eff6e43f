import Reifier.Proofs.Program.Rendering
import Reifier.Proofs.SourceUnit

/-!
# The words of statements without a structure

A statement that has no structure is carried through a transformation: it is printed as the words of
its tokens, with those of each declaration inside its brackets replaced by the words of the constant
that it has become (`words_of_transform`). That is so as long as the tokens stay apart without what
is taken out of comments (`Verbatim.Parted`): where nothing is left between two tokens, the first
one must end by itself in front of what it is put next to, and what is left of a comment must not
close it.
-/

namespace Reifier

open Token (wordsOf)

/-! ### The words of a statement -/

/-- The constant that a declaration is, if it is one. -/
def Declaration.const? : Declaration → Option Const
  | .const decl => some decl
  | _ => none

namespace Verbatim

/-- The tokens of a source that stand in a statement. -/
def tokens (text : Verbatim) (source : String) : List Token :=
  (Token.scan source).filter fun t => text.span.encloses t.span

/-- The constants inside a statement. -/
def consts (text : Verbatim) : List Const := text.nested.filterMap (·.node.const?)

/-- The constant in the place of a token, if there is one. -/
def constAt? (text : Verbatim) (t : Token) : Option Const :=
  text.consts.find? (·.span.encloses t.span)

/-- What is to be read in place of a token: its word, or the words of a constant, in place of the
first token of its declaration. -/
def wordsAt (text : Verbatim) (t : Token) : List Token.Word :=
  match text.constAt? t with
  | none => Token.words [t]
  | some decl => if decl.span.start = t.span.start then wordsOf decl.render.toList else []

/-- The words of a statement whose declarations have become constants. -/
def words (text : Verbatim) (source : String) : List Token.Word :=
  (text.tokens source).flatMap text.wordsAt

end Verbatim

namespace Token

/-- Whether a token that means something is what a text begins with that begins with its characters
and goes on with `rest`. -/
def stands (t : Token) (rest : List Char) : Bool :=
  t.kind ≠ .unexpected &&
    (pieces (t.text.toList ++ rest)).head?.map (fun p => (p.kind, p.chars)) =
      some (t.kind, t.text.toList)

section Spaced

variable (counts stays : Token → Bool)

/-- What tokens put together are, without the trivia that do not stay: up to trivia that do, or up
to the first word of a constant, which is in the place of tokens that do not count. -/
def joined : List Token → List Char
  | [] => []
  | t :: ts =>
    if t.kind.isTrivia then if stays t then [] else joined ts
    else if counts t then t.text.toList ++ joined ts
    else "const".toList

/-- Whether nothing stays of the trivia that come next, unless a constant comes before them. -/
def closes : List Token → Bool
  | [] => false
  | t :: ts =>
    if t.kind.isTrivia then !((t :: ts).takeWhile (·.kind.isTrivia)).any stays
    else counts t && closes ts

/-- Whether the tokens that count end by themselves wherever the trivia behind them close up. -/
def spaced : List Token → Bool
  | [] => true
  | t :: ts =>
    (!counts t || !closes counts stays ts || t.stands (joined counts stays ts)) && spaced ts

end Spaced

end Token

/-- Tokens of a statement that stay apart whatever its comments have become: where nothing stays of
the trivia behind a token that is in no constant, the token ends by itself in front of what it is
put next to, and the text of a block comment does not close it. -/
structure Verbatim.Parted (text : Verbatim) (source : String) (comments : List Comment) : Prop where
  spaced : Token.spaced (fun t => !t.kind.isTrivia && (text.constAt? t).isNone)
    (fun t => comments.all fun c => c.span ≠ t.span || !c.ignored) (text.tokens source) = true
  closed : ∀ comment ∈ comments, text.span.encloses comment.span = true →
    comment.ignored = false → comment.kind = .block → ¬ ['*', '/'] <:+: comment.text.toList

instance (text : Verbatim) (source : String) (comments : List Comment) :
    Decidable (text.Parted source comments) :=
  decidable_of_iff (_ ∧ _) ⟨fun h => ⟨h.1, h.2⟩, fun h => ⟨h.spaced, h.closed⟩⟩

/-! ### Patches that fit together -/

private theorem Token.spaced_of_append {counts stays : Token → Bool} {ts us : List Token}
    (h : spaced counts stays (ts ++ us) = true) : spaced counts stays us = true := by
  induction ts with
  | nil => exact h
  | cons t ts ih => exact ih (Bool.and_eq_true_iff.mp h).2

/-- A token that stands in front of a text is taken from it, also if the text is cut off. -/
private theorem Token.before_of_stands {t : Token} {front rest : List Char}
    (h : t.stands rest = true) (htrivia : t.kind.isTrivia = false) (hfront : front <+: rest) :
    t.kind ≠ .unexpected ∧ t.Before front := by
  obtain ⟨hkind, hhead⟩ := Bool.and_eq_true_iff.mp h
  rw [decide_eq_true_eq] at hkind hhead
  obtain ⟨p, hp, hsame⟩ := Option.map_eq_some_iff.mp hhead
  obtain ⟨hpkind, hchars⟩ := Prod.mk.inj hsame
  have hpiece : p.Before rest := by
    rw [← hchars, Piece.chars, List.cons_append, pieces_cons, List.head?_cons] at hp
    exact Option.some.inj hp
  obtain ⟨back, rfl⟩ := hfront
  have hsimilar : Similar (front ++ back) front := ⟨front, back, [], rfl, by simp, .done back⟩
  refine ⟨hkind, (Before.of_piece hpiece hchars.symm hpkind).of_similar hsimilar ?_⟩
  rintro heq
  rw [heq] at htrivia
  cases htrivia

namespace Patch

variable {counts stays : Token → Bool} {ps : List Patch}

/-- A patch that fits wherever there is something left between the tokens, or they stand. -/
def Holds (counts stays : Token → Bool) : Patch → Prop
  | keep t => t.kind.isComment = false ∧ (t.kind.isTrivia = false → counts t = true)
  | swap t comment => t.kind = comment.kind.token ∧ (comment.ignored = false → comment.Fits) ∧
      (comment.ignored = true → stays t = false)
  | const fates s =>
      (∃ u us, fates = u :: us ∧ u.token.kind.isTrivia = false ∧ counts u.token = false) ∧
      "const ".toList <+: s.text.toList ∧
      (Token.pieces s.text.toList).getLast? = some Token.semicolonPiece

/-- A patch that leaves nothing of its token stands for a comment that goes. -/
private theorem exists_of_gone {p : Patch} (h : p.Holds counts stays) (hgone : p.gone = true) :
    ∃ t, p.tokens = [t] ∧ t.kind.isTrivia = true ∧ stays t = false := by
  cases p with
  | keep t => cases hgone
  | const fates s => cases hgone
  | swap t comment =>
    obtain ⟨hkind, -, hstays⟩ := h
    exact ⟨t, rfl, Comment.isTrivia_of_kind_eq hkind, hstays hgone⟩

/-- A patch that is no trivia begins with a token that is none. -/
private theorem exists_tokens_of_not_isTrivia {p : Patch} (h : p.Holds counts stays)
    (htrivia : p.isTrivia = false) : ∃ u us, p.tokens = u :: us ∧ u.kind.isTrivia = false := by
  cases p with
  | keep u => exact ⟨u, [], rfl, htrivia⟩
  | swap u comment => cases htrivia
  | const fates s =>
    obtain ⟨⟨u, us, rfl, hu, -⟩, -⟩ := h
    exact ⟨u.token, us.map Fate.token, rfl, hu⟩

/-- The gap of whose trivia nothing is left: it goes up to the next patch that is no trivia. -/
private theorem any_takeWhile_eq_false (h : ∀ p ∈ ps, p.Holds counts stays)
    (hclosed : (ps.dropWhile gone).head?.all (!·.isTrivia) = true) :
    ((ps.flatMap tokens).takeWhile (·.kind.isTrivia)).any stays = false := by
  have hsplit := List.takeWhile_append_dropWhile (p := gone) (l := ps)
  have hfront : ∀ u ∈ (ps.takeWhile gone).flatMap tokens,
      u.kind.isTrivia = true ∧ stays u = false := by
    intro u hu
    obtain ⟨p, hp, hu⟩ := List.mem_flatMap.mp hu
    obtain ⟨v, htokens, hv⟩ := exists_of_gone (h p ((List.takeWhile_prefix gone).subset hp))
      (List.all_eq_true.mp List.all_takeWhile p hp)
    rw [htokens] at hu
    rwa [List.mem_singleton.mp hu]
  -- The trivia in front are those that go, since what comes next is none.
  have hgap : (ps.flatMap tokens).takeWhile (·.kind.isTrivia) =
      (ps.takeWhile gone).flatMap tokens := by
    conv_lhs => rw [← hsplit]
    rw [List.flatMap_append, List.takeWhile_append_of_pos fun v hv => (hfront v hv).1]
    cases hrest : ps.dropWhile gone with
    | nil => exact List.append_nil _
    | cons r rs =>
      have hr : r ∈ ps := hsplit ▸ List.mem_append_right _ (hrest ▸ List.mem_cons_self)
      rw [hrest] at hclosed
      obtain ⟨u, us, htokens, hu⟩ :=
        exists_tokens_of_not_isTrivia (h r hr) (by simpa using hclosed)
      rw [List.flatMap_cons, htokens, List.cons_append,
        List.takeWhile_cons_of_neg (by simp [hu]), List.append_nil]
  rw [hgap]
  exact List.any_eq_false.mpr fun u hu => Bool.eq_false_iff.mp (hfront u hu).2

/-- A gap that closes in what is printed closes in the source, once what does not stay is left
out. -/
private theorem closes_tokens (h : ∀ p ∈ ps, p.Holds counts stays) (hclosed : closes ps = true) :
    Token.closes counts stays (ps.flatMap tokens) = true := by
  induction ps with
  | nil => cases hclosed
  | cons p ps ih =>
    obtain ⟨hp, hps⟩ := List.forall_mem_cons.mp h
    cases p with
    | keep t =>
      obtain ⟨htrivia, hclosed⟩ := Bool.and_eq_true_iff.mp hclosed
      rw [Bool.not_eq_true'] at htrivia
      rw [List.flatMap_cons, tokens, List.singleton_append, Token.closes, htrivia,
        if_neg Bool.false_ne_true, hp.2 htrivia, ih hps hclosed]
      rfl
    | swap t comment =>
      have htrivia := Comment.isTrivia_of_kind_eq hp.1
      have hany := any_takeWhile_eq_false h hclosed
      rw [List.flatMap_cons, tokens, List.singleton_append] at hany ⊢
      rw [Token.closes, if_pos htrivia, hany]
      rfl
    | const fates s => cases hclosed

/-- What is printed next to a token is what the tokens behind it are, put together. -/
private theorem beside_isPrefix (h : ∀ p ∈ ps, p.Holds counts stays) :
    beside ps <+: Token.joined counts stays (ps.flatMap tokens) := by
  induction ps with
  | nil => exact List.nil_prefix
  | cons p ps ih =>
    obtain ⟨hp, hps⟩ := List.forall_mem_cons.mp h
    rw [List.flatMap_cons]
    cases p with
    | keep t =>
      cases htrivia : t.kind.isTrivia with
      | true =>
        rw [beside, htrivia]
        exact List.nil_prefix
      | false =>
        rw [beside, tokens, List.singleton_append, Token.joined, htrivia, hp.2 htrivia]
        exact (List.prefix_append_right_inj _).mpr (ih hps)
    | swap t comment =>
      cases hignored : comment.ignored with
      | false =>
        rw [beside, hignored]
        exact List.nil_prefix
      | true =>
        have htrivia := Comment.isTrivia_of_kind_eq hp.1
        rw [beside, hignored, tokens, List.singleton_append, Token.joined, htrivia,
          hp.2.2 hignored]
        exact ih hps
    | const fates s =>
      obtain ⟨⟨u, us, rfl, htrivia, hcounts⟩, -⟩ := hp
      rw [beside, tokens, List.map_cons, List.cons_append, Token.joined, htrivia, hcounts]
      exact List.prefix_rfl

/-- Patches fit together if the tokens that count end by themselves where gaps close. -/
private theorem sound_of_spaced {previous : Option Token.Kind} (h : ∀ p ∈ ps, p.Holds counts stays)
    (hbegin : Begin previous ps) (hspaced : Token.spaced counts stays (ps.flatMap tokens) = true) :
    Sound ps := by
  induction ps generalizing previous with
  | nil => trivial
  | cons p ps ih =>
    obtain ⟨hp, hps⟩ := List.forall_mem_cons.mp h
    have hrest := Token.spaced_of_append hspaced
    cases p with
    | swap t comment => exact ⟨⟨hp.1, hp.2.1⟩, ih hps hbegin hrest⟩
    | const fates s =>
      obtain ⟨⟨u, us, hfates, hu, -⟩, hfits⟩ := hp
      exact ⟨⟨⟨u, us, hfates, hu⟩, hfits⟩, ih hps hbegin.2 hrest⟩
    | keep t =>
      refine ⟨⟨hp.1, fun htrivia => ⟨fun hclosed => ?_, fun fates s hhead => ?_⟩⟩,
        ih hps hbegin hrest⟩
      · rw [List.flatMap_cons, tokens, List.singleton_append, Token.spaced] at hspaced
        have hstands := (Bool.and_eq_true_iff.mp hspaced).1
        rw [hp.2 htrivia, closes_tokens hps hclosed] at hstands
        exact Token.before_of_stands hstands htrivia (beside_isPrefix hps)
      · obtain ⟨qs, rfl⟩ := List.head?_eq_some_iff.mp hhead
        exact (hbegin.1 t.kind rfl).resolve_left (by simp [htrivia])

end Patch

/-! ### Constants -/

/-- The indentation of a line consists of blanks. -/
private theorem isSpace_of_mem_lineIndent {cs : List Char} {offset : ℕ} :
    ∀ c ∈ lineIndent cs offset, Token.isSpace c = true := by
  intro c hc
  unfold lineIndent at hc
  dsimp only at hc
  split_ifs at hc with hblank
  · have hall := List.all_eq_true.mp hblank c hc
    simp only [Bool.or_eq_true, decide_eq_true_eq] at hall
    rcases hall with rfl | rfl <;> rfl
  · cases hc

namespace Verbatim

variable (text : Verbatim)

/-- What goes into the place of the declaration that a constant was. -/
def constSplice (decl : Const) : Splice :=
  ⟨decl.span, String.ofList (reindent
    (lineIndent text.text.toList (decl.span.start - text.span.start)) decl.render.toList)⟩

/-- The splices inside a statement are those of its constants. -/
theorem filterMap_constSplice? :
    text.nested.filterMap text.constSplice? = text.consts.map text.constSplice := by
  rw [consts, List.map_filterMap]
  refine List.filterMap_congr fun inner _ => ?_
  rw [constSplice?]
  cases inner.node <;> rfl

theorem plain_of_mem_consts (h : (Statement.verbatim text).PlainInside) :
    ∀ decl ∈ text.consts, decl.Plain := by
  intro decl hdecl
  obtain ⟨inner, hinner, hconst⟩ := List.mem_filterMap.mp hdecl
  obtain ⟨other, hother, hplain⟩ := h inner hinner
  rw [hother] at hconst
  cases hconst
  exact hplain

/-- A constant goes into its place as its words, and ends in a semicolon. -/
private theorem reads_constSplice {decl : Const} (h : decl.Plain) :
    "const ".toList <+: (text.constSplice decl).text.toList ∧
      (Token.pieces (text.constSplice decl).text.toList).getLast? = some Token.semicolonPiece ∧
      wordsOf (text.constSplice decl).text.toList = wordsOf decl.render.toList := by
  have htext : (text.constSplice decl).text.toList = reindent
      (lineIndent text.text.toList (decl.span.start - text.span.start)) decl.render.toList :=
    String.toList_ofList
  rw [htext]
  exact Const.reindent_render h.id h.init isSpace_of_mem_lineIndent

end Verbatim

/-! ### The words of patches -/

namespace Verbatim.MadeOf

variable {text : Verbatim} {source : String} {comments : List Comment} {front back : List Fate}
  {ps : List Patch} (h : text.MadeOf source comments front ps back)

include h

/-- Where a constant stands, its splice is the one that the patch holds. -/
private theorem map_constAt? {p : Patch} (hp : p ∈ ps) {t : Token} (ht : t ∈ p.tokens) :
    (text.constAt? t).map text.constSplice = p.constant? := by
  rw [← h.find?_splice hp ht, filterMap_constSplice?, List.find?_map]
  rfl

/-- The place of a constant begins with the first token of its declaration. -/
private theorem start_const {fates : List Fate} {s : Splice} (hp : .const fates s ∈ ps) :
    ∃ u us, fates.map Fate.token = u :: us ∧ s.span.start = u.span.start ∧
      ∀ v ∈ us, s.span.start ≠ v.span.start := by
  have hplaced := h.covers.placed
  have hts := h.contiguous.2.1
  obtain ⟨f, fs, rfl, -⟩ := h.covers.headed _ hp
  have hlt := Token.start_lt_stop_of_mem_scan (h.mem_scan hp (t := f.token) List.mem_cons_self)
  obtain ⟨qs, rs, rfl⟩ := List.append_of_mem hp
  rw [List.flatMap_append, Token.Contiguous.append_iff, ← Patch.flatMap_old, List.flatMap_cons,
    Token.Contiguous.append_iff] at hts
  obtain ⟨hspan, hrest⟩ := hts.2.1
  have hplace := (Patch.Placed.append_iff.mp hplaced).2.1 s rfl
  have hstart : s.span.start = f.token.span.start := by rw [hplace, hspan]
  refine ⟨f.token, fs.map Fate.token, rfl, hstart, fun v hv => ?_⟩
  rw [hstart]
  exact (hlt.trans_le (hrest.within v hv).1).ne

/-- **The words of the patches of a statement are those of the statement.** -/
theorem flatMap_words (hplain : ∀ decl ∈ text.consts, decl.Plain) :
    ps.flatMap Patch.words = text.words source := by
  rw [words, tokens, h.filter_scan, List.flatMap_assoc]
  refine List.flatMap_congr fun p hp => ?_
  have hnone : p.constant? = none → ∀ t ∈ p.tokens, text.wordsAt t = Token.words [t] := by
    intro hconst t ht
    have hmap := h.map_constAt? hp ht
    rw [hconst, Option.map_eq_none_iff] at hmap
    rw [wordsAt, hmap]
  cases p with
  | keep t =>
    rw [Patch.words, Patch.tokens, List.flatMap_singleton, hnone rfl t (List.mem_singleton_self t)]
  | swap t comment =>
    have hkind : t.kind = comment.kind.token := (h.possible hp _ (List.mem_singleton_self _)).1
    have htrivia := Comment.isTrivia_of_kind_eq hkind
    rw [Patch.words, Patch.tokens, List.flatMap_singleton, hnone rfl t (List.mem_singleton_self t)]
    simp [Token.words, htrivia]
  | const fates s =>
    have hsome : ∀ t ∈ fates.map Fate.token, text.wordsAt t =
        if s.span.start = t.span.start then wordsOf s.text.toList else [] := by
      intro t ht
      obtain ⟨decl, hdecl, rfl⟩ := Option.map_eq_some_iff.mp (h.map_constAt? hp ht)
      rw [wordsAt, hdecl,
        (text.reads_constSplice (hplain decl (List.mem_of_find?_eq_some hdecl))).2.2]
      rfl
    obtain ⟨u, us, htokens, hstart, hrest⟩ := h.start_const hp
    rw [Patch.words, Patch.tokens, htokens, List.flatMap_cons,
      hsome u (htokens ▸ List.mem_cons_self), if_pos hstart]
    have hnil : us.flatMap text.wordsAt = [] := List.flatMap_eq_nil_iff.mpr fun v hv => by
      rw [hsome v (htokens ▸ List.mem_cons_of_mem u hv), if_neg (hrest v hv)]
    rw [hnil, List.append_nil]

/-- The patches of a statement whose tokens stay apart fit together. -/
private theorem sound (hplain : ∀ decl ∈ text.consts, decl.Plain)
    (hparted : text.Parted source comments) : Patch.Sound ps := by
  have hspaced := hparted.spaced
  rw [tokens, h.filter_scan] at hspaced
  -- What a patch is like comes from the source, except where a comment has been changed.
  refine Patch.sound_of_spaced (fun p hp => ?_) h.covers.begin hspaced
  cases p with
  | keep t =>
    refine ⟨h.possible hp _ (List.mem_singleton_self _), fun htrivia => ?_⟩
    have hnone : (text.constAt? t).map text.constSplice = none :=
      h.map_constAt? hp (List.mem_singleton_self t)
    simp [htrivia, Option.map_eq_none_iff.mp hnone]
  | swap t comment =>
    obtain ⟨hkind, hspan, hline⟩ := h.possible hp _ (List.mem_singleton_self _)
    have hmem : comment ∈ comments := by
      rw [← h.fates.comments]
      refine List.mem_filterMap.mpr ⟨⟨t, some comment⟩, ?_, rfl⟩
      exact List.mem_append_right _ (List.mem_append_left _
        (List.mem_flatMap.mpr ⟨_, hp, List.mem_singleton_self _⟩))
    refine ⟨hkind, fun hstays => ?_, fun hignored => ?_⟩
    · unfold Comment.Fits
      cases hk : comment.kind with
      | line => exact hline hk
      | block =>
        have hencloses : text.span.encloses comment.span = true := by
          rw [hspan]
          exact h.encloses.2.1 t (List.mem_flatMap.mpr ⟨_, hp, List.mem_singleton_self t⟩)
        exact hparted.closed comment hmem hencloses hstays hk
    · have hspan' : comment.span = t.span := hspan
      exact List.all_eq_false.mpr ⟨comment, hmem, by simp [hspan', hignored]⟩
  | const fates s =>
    obtain ⟨u, us, hfates, hu⟩ := h.covers.headed _ hp
    have hmem : u.token ∈ (Patch.const fates s).tokens := by
      rw [Patch.tokens, hfates]
      exact List.mem_cons_self
    obtain ⟨decl, hdecl, rfl⟩ := Option.map_eq_some_iff.mp (h.map_constAt? hp hmem)
    obtain ⟨hhead, hlast, -⟩ :=
      text.reads_constSplice (hplain decl (List.mem_of_find?_eq_some hdecl))
    exact ⟨⟨u, us, hfates, hu, by simp [hdecl]⟩, hhead, hlast⟩

/-- **A statement whose tokens stay apart is printed as its words.** -/
theorem wordsOf_render (hplain : ∀ decl ∈ text.consts, decl.Plain)
    (hparted : text.Parted source comments) :
    wordsOf (text.render source.toList comments).toList = text.words source := by
  have hlexed := Token.lexed_scan source
  rw [h.scan_eq] at hlexed
  rw [h.toList_render, ((h.sound hplain hparted).reads hlexed.of_append).1, h.flatMap_words hplain]

end Verbatim.MadeOf

/-! ### Statements of a session -/

namespace Program

open Segment (Laid)

variable {limit : Option ℕ} {source : String} {reading : Reading}

/-- A statement without a structure is read from tokens that follow each other, and the declarations
inside its brackets are laid out in their lexemes. -/
theorem ReadsAs.exists_from {segs : List (Segment Statement)} {after : Trivia}
    (h : ReadsAs limit source reading segs after) {item : Item Statement}
    (hitem : item ∈ reading.program.body) {text : Verbatim} (htext : item.node = .verbatim text) :
    ∃ us ts vs n l run inside, Token.scan source = us ++ (ts ++ vs) ∧
      Lexeme.From ts (Segment.bare l :: run) ∧ Segment.lexemes inside = Segment.bare l :: run ∧
      text.span = Lexeme.spanOf (Segment.bare l :: run) ∧
      text.text = Lexeme.textOf (Segment.bare l :: run) ∧ text.nested = Segment.items inside ∧
      Laid (DeclarationReads source) n inside ∧ DeclarationsBegin none inside := by
  rw [h.body] at hitem
  obtain ⟨front, l, run, back, hlexemes, hstmt⟩ := h.laid.exists_run hitem
  rw [htext] at hstmt
  obtain ⟨hspan, hstext, inside, hinside, hnested, hlaid, hbegin⟩ := hstmt
  obtain ⟨all, tail, hscan, hfrom⟩ := Lexeme.exists_from_of_ofTokens h.lexemes
  rw [hlexemes] at hfrom
  obtain ⟨_, vs, rfl, hfront, -⟩ := hfrom.exists_append
  obtain ⟨us, _, rfl, -, hrun⟩ := hfront.exists_append
  cases hrun with
  | @cons trivia ts t _ _ ht hrest =>
    have hbare : Lexeme.From (t :: ts)
        (Segment.bare ⟨trivia.foldl Trivia.push Trivia.none, t⟩ :: run) :=
      @Lexeme.From.cons [] _ _ _ (List.forall_mem_nil _) ht hrest
    refine ⟨us ++ trivia, t :: ts, vs ++ tail, _, _, run, inside, ?_, hbare, hinside, hspan, hstext,
      hnested, hlaid, hbegin⟩
    rw [hscan]
    simp

end Program

namespace Session

open Program (ReadsAs)
open Token (Contiguous)

variable {settings : Settings} {limit : Option ℕ} {source : String} {reading : Program.Reading}
  {done : Program}

/-- The places of constants are those of the declarations that they were. -/
theorem forall₂_span (text : Verbatim) {nested others : List (Item Declaration)}
    (h : List.Forall₂ Item.DeclarationReplacedBy nested others) :
    List.Forall₂ (fun (item : Item Declaration) s => s.span = item.node.span) nested
      (others.filterMap text.constSplice?) := by
  induction h with
  | nil => exact .nil
  | @cons item other items others hitem _ ih =>
    obtain ⟨comments, node⟩ := item
    obtain ⟨ids, node'⟩ := other
    obtain ⟨-, hnode⟩ := hitem
    have hnode : node.ReplacedBy node' := hnode
    cases hnode <;> exact .cons rfl ih

/-- **A statement of a program that a session has been run on falls into patches of the source.** -/
theorem exists_madeOf (hreading : Program.parse limit source = .ok reading)
    (hrun : run settings reading.program = .ok done)
    (hactive : Directive.scan settings.directive reading.program.comments ≠ [])
    {item : Item Statement} (hitem : item ∈ done.body) {text : Verbatim}
    (htext : item.node = .verbatim text) :
    ∃ front ps back, text.MadeOf source done.comments front ps back := by
  have hbecomes : List.Forall₂ Comment.Becomes ((Token.scan source).filterMap Comment.ofToken?)
      done.comments := by
    rw [comments_of_run hrun hactive, ← Program.comments_of_parse hreading]
    exact Directive.becomes_applyAll _ _
  obtain ⟨fs, hfates⟩ := Fate.exists_of hbecomes
  obtain ⟨before, hbefore, nested, hnode, hnested⟩ :=
    exists_of_verbatim_mem hrun hactive hitem htext
  obtain ⟨segs, after, hreads, -⟩ := Program.exists_readsAs_of_parse hreading
  obtain ⟨us, ts, vs, n, l, run, inside, hscan, hfrom, hinside, hspan, hstext, rfl, hlaid,
    hbegin⟩ := hreads.exists_from hbefore hnode
  -- What becomes of the tokens of the statement stands between what becomes of the other ones.
  rw [← hfates.tokens] at hscan
  obtain ⟨front, rest, rfl, rfl, hrest⟩ := List.map_eq_append_iff.mp hscan
  obtain ⟨mid, back, rfl, rfl, rfl⟩ := List.map_eq_append_iff.mp hrest
  have hcontiguous := Token.contiguous_scan source
  rw [← hfates.tokens, List.map_append, List.map_append, Contiguous.append_iff,
    Contiguous.append_iff, Nat.zero_add] at hcontiguous
  obtain ⟨-, hmid, -⟩ := hcontiguous
  obtain ⟨ps, hcovers⟩ := Program.exists_patches hlaid hbegin (hinside ▸ hfrom) hmid
    (forall₂_span text hnested)
  have hold : ps.flatMap Patch.old = (mid.map Fate.token).flatMap (·.text.toList) := by
    rw [Patch.flatMap_old, ← Verbatim.MadeOf.tokens_eq, hcovers.fates]
  have hplace := hspan.trans (hfrom.spanOf rfl hmid)
  dsimp only at hplace hstext
  refine ⟨front, ps, back, ?_, ?_, ?_, ?_, ?_⟩
  · rwa [hcovers.fates]
  · rw [hcovers.fates, hplace]
    exact hcovers
  · rw [hplace]
  · rw [hplace, hold]
  · rw [hstext, hfrom.textOf rfl, hold]

end Session

/-! ### Units -/

namespace SourceUnit

variable {limit : Option ℕ} {settings : Settings} {source : String} {unit done : SourceUnit}

/-- **A statement without a structure keeps its words, and its declarations become the words of
constants**, if its tokens stay apart whatever its comments have become. -/
theorem words_of_transform (hunit : parse limit source = .ok unit)
    (hdone : unit.transform settings = .ok done) (hreified : done.reified = true)
    {item : Item Statement} (hitem : item ∈ done.program.body) {text : Verbatim}
    (htext : item.node = .verbatim text) (hparted : text.Parted source done.program.comments) :
    wordsOf (text.render source.toList done.program.comments).toList = text.words source := by
  obtain ⟨reading, hreading, hprogram⟩ := parse_program hunit
  have htakes := takesPart_of_reified hdone hreified
  obtain ⟨-, program, hrun, rfl⟩ := transform_of_takesPart htakes hdone
  rw [takesPart_iff] at htakes
  rw [hprogram] at hrun htakes
  obtain ⟨front, ps, back, hmade⟩ := Session.exists_madeOf hreading hrun htakes hitem htext
  obtain ⟨segs, after, hreads, -⟩ := Program.exists_readsAs_of_parse hreading
  have hplain :=
    Session.plainInside_of_run hrun htakes (hreads.ofSource hreading).statements item hitem
  rw [htext] at hplain
  exact hmade.wordsOf_render (text.plain_of_mem_consts hplain) hparted

/-- Whether a source is rewritten, and one of its statements without a structure passes a test. -/
def rewrites (limit : Option ℕ) (settings : Settings) (source : String)
    (test : List Comment → Verbatim → Bool) : Bool :=
  match parse limit source with
  | .error _ => false
  | .ok unit =>
    match unit.transform settings with
    | .error _ => false
    | .ok done => done.reified && done.program.body.any fun item =>
      match item.node with
      | .verbatim text => test done.program.comments text
      | _ => false

/-- A test on the rewritten statements of a source finds one that passes it. -/
theorem exists_of_rewrites {test : List Comment → Verbatim → Bool}
    (h : rewrites limit settings source test = true) :
    ∃ unit done item text, parse limit source = .ok unit ∧ unit.transform settings = .ok done ∧
      done.reified = true ∧ item ∈ done.program.body ∧ item.node = .verbatim text ∧
      test done.program.comments text = true := by
  unfold rewrites at h
  split at h
  · cases h
  · rename_i unit hunit
    split at h
    · cases h
    · rename_i done hdone
      obtain ⟨hreified, hany⟩ := Bool.and_eq_true_iff.mp h
      obtain ⟨item, hitem, htest⟩ := List.any_eq_true.mp hany
      split at htest
      · rename_i text htext
        exact ⟨unit, done, item, text, hunit, hdone, hreified, hitem, htext, htest⟩
      · cases htest

/-- A source with marked comments in a statement, and with a declaration inside its brackets. -/
def markedInside : String :=
  "// @tcomb\nf(/* @tcomb */1 /* @tcomb x */, \x7b/* @tcomb */type A = B; \x7d);"

/-- The directive is taken out of three comments here. Two of them are left out, and nothing else
stands behind the brackets in front of them. -/
theorem words_of_transform_nested :
    ∃ unit done item text, parse (some 2) markedInside = .ok unit ∧
      unit.transform .default = .ok done ∧ done.reified = true ∧ item ∈ done.program.body ∧
      item.node = .verbatim text ∧ text.Parted markedInside done.program.comments ∧
      (wordsOf (text.render markedInside.toList done.program.comments).toList).map Token.Word.text =
        ["f", "(", "1", ",", "\x7b", "const", "A", "=", "B", ";", "\x7d", ")", ";"] := by
  have hrewrites : rewrites (some 2) .default markedInside (fun comments text =>
      decide (text.Parted markedInside comments) &&
        (text.words markedInside).map Token.Word.text =
          ["f", "(", "1", ",", "\x7b", "const", "A", "=", "B", ";", "\x7d", ")", ";"]) = true := by
    decide +kernel
  obtain ⟨unit, done, item, text, hunit, hdone, hreified, hitem, htext, htest⟩ :=
    exists_of_rewrites hrewrites
  obtain ⟨hparted, hwords⟩ := Bool.and_eq_true_iff.mp htest
  rw [decide_eq_true_eq] at hparted hwords
  refine ⟨unit, done, item, text, hunit, hdone, hreified, hitem, htext, hparted, ?_⟩
  rw [words_of_transform hunit hdone hreified hitem htext hparted, hwords]

/-- A source with a marked comment that is all that stands between two names. -/
def markedBetween : String := "// @tcomb\nfunction f(x) \x7b return/* @tcomb */x \x7d"

/-- Nothing is left of the comment here, and the names around it become one. -/
theorem exists_words_ne :
    ∃ unit done item text, parse (some 2) markedBetween = .ok unit ∧
      unit.transform .default = .ok done ∧ done.reified = true ∧ item ∈ done.program.body ∧
      item.node = .verbatim text ∧
      (text.words markedBetween).map Token.Word.text =
        ["function", "f", "(", "x", ")", "\x7b", "return", "x", "\x7d"] ∧
      (wordsOf (text.render markedBetween.toList done.program.comments).toList).map
          Token.Word.text =
        ["function", "f", "(", "x", ")", "\x7b", "returnx", "\x7d"] := by
  have hrewrites : rewrites (some 2) .default markedBetween (fun comments text =>
      (text.words markedBetween).map Token.Word.text =
          ["function", "f", "(", "x", ")", "\x7b", "return", "x", "\x7d"] &&
        (wordsOf (text.render markedBetween.toList comments).toList).map Token.Word.text =
          ["function", "f", "(", "x", ")", "\x7b", "returnx", "\x7d"]) = true := by
    decide +kernel
  obtain ⟨unit, done, item, text, hunit, hdone, hreified, hitem, htext, htest⟩ :=
    exists_of_rewrites hrewrites
  obtain ⟨hwords, hprinted⟩ := Bool.and_eq_true_iff.mp htest
  rw [decide_eq_true_eq] at hwords hprinted
  exact ⟨unit, done, item, text, hunit, hdone, hreified, hitem, htext, hwords, hprinted⟩

end SourceUnit

end Reifier
