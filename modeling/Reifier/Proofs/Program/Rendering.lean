import Reifier.Proofs.Program.Patching
import Reifier.Proofs.Session.Nested

/-!
# How a statement is printed

The tokens of a source stay or are comments that may have changed (`Fate.Of`), and those of a
statement without a structure fall into patches (`Verbatim.MadeOf`). The statement is printed as
what becomes of its patches (`MadeOf.toList_render`): a constant goes into the place that encloses
the tokens of its declaration and no other token, so what the printer puts in are the splices of the
patches.
-/

namespace Reifier

open Token (Contiguous)

/-! ### Where tokens and splices stand -/

/-- Contiguous tokens lie between the offset and the end of their text. -/
theorem Token.Contiguous.within {offset : ℕ} {ts : List Token} (h : Contiguous offset ts) :
    ∀ t ∈ ts, offset ≤ t.span.start ∧
      t.span.stop ≤ offset + Text.byteLength (ts.flatMap (·.text.toList)) := by
  induction ts generalizing offset with
  | nil => exact List.forall_mem_nil _
  | cons t ts ih =>
    obtain ⟨hspan, hts⟩ := h
    have hstop : t.span.stop = offset + Text.byteLength t.text.toList := by rw [hspan]
    have hrest := ih hts
    rw [hstop] at hrest
    rw [List.flatMap_cons, Text.byteLength_append]
    refine List.forall_mem_cons.mpr ⟨⟨?_, by omega⟩, fun u hu => ?_⟩
    · rw [hspan]
    · obtain ⟨hstart, hstop⟩ := hrest u hu
      exact ⟨by omega, by omega⟩

namespace Patch

variable {ps qs : List Patch} {offset : ℕ}

theorem flatMap_old (ps : List Patch) :
    ps.flatMap old = (ps.flatMap tokens).flatMap (·.text.toList) := by
  rw [List.flatMap_assoc]
  rfl

/-- Patches in two parts are placed if each part is, where the second begins at the end of the
first. -/
theorem Placed.append_iff : Placed offset (ps ++ qs) ↔
    Placed offset ps ∧ Placed (offset + Text.byteLength (ps.flatMap old)) qs := by
  induction ps generalizing offset with
  | nil => simp [Placed]
  | cons p ps ih =>
    rw [List.cons_append, Placed, Placed, ih, and_assoc, List.flatMap_cons, Text.byteLength_append,
      Nat.add_assoc]

/-- The splices of placed patches lie between the offset and the end of the text. -/
theorem Placed.within (h : Placed offset ps) : ∀ s ∈ ps.filterMap splice?,
    offset ≤ s.span.start ∧ s.span.stop ≤ offset + Text.byteLength (ps.flatMap old) := by
  induction ps generalizing offset with
  | nil => exact List.forall_mem_nil _
  | cons p ps ih =>
    obtain ⟨hspan, hps⟩ := h
    intro s hs
    rw [List.flatMap_cons, Text.byteLength_append]
    obtain ⟨q, hq, hsplice⟩ := List.mem_filterMap.mp hs
    rcases List.mem_cons.mp hq with rfl | hq
    · rw [hspan s hsplice]
      exact ⟨le_rfl, Nat.add_le_add_left (Nat.le_add_right _ _) offset⟩
    · obtain ⟨hstart, hstop⟩ := ih hps s (List.mem_filterMap.mpr ⟨q, hq, hsplice⟩)
      exact ⟨by omega, by omega⟩

/-- Splices of patches that are not empty begin one behind the other. -/
private theorem Placed.pairwise (h : Placed offset ps) (hne : ∀ p ∈ ps, 0 < Text.byteLength p.old) :
    (ps.filterMap splice?).Pairwise fun s t => s.span.start < t.span.start := by
  induction ps generalizing offset with
  | nil => exact .nil
  | cons p ps ih =>
    obtain ⟨hp, hps⟩ := List.forall_mem_cons.mp hne
    obtain ⟨hspan, hplaced⟩ := h
    rw [List.filterMap_cons]
    split
    · exact ih hplaced hps
    · rename_i s hs
      refine List.pairwise_cons.mpr ⟨fun t ht => ?_, ih hplaced hps⟩
      rw [hspan s hs]
      exact (Nat.lt_add_of_pos_right hp).trans_le (hplaced.within t ht).1

theorem splice?_of_constant? {p : Patch} {s : Splice} (h : p.constant? = some s) :
    p.splice? = some s := by
  cases p with
  | const fates splice => exact h
  | _ => cases h

/-- The comment that is put in place of a patch, if it is one. -/
def comment? : Patch → Option Comment
  | swap _ comment => some comment
  | _ => none

/-- What goes into the place of a comment, if that is not what stands there. -/
def change? : Patch → Option Splice
  | swap t comment => (swap t comment).splice?
  | _ => none

/-- The splices of patches are those of declarations and those of comments. -/
private theorem perm_splices (ps : List Patch) :
    (ps.filterMap constant? ++ ps.filterMap change?).Perm (ps.filterMap splice?) := by
  induction ps with
  | nil => exact .refl _
  | cons p ps ih =>
    cases p with
    | keep t => exact ih
    | const fates s => exact ih.cons s
    | swap t comment =>
      have hconst : (swap t comment :: ps).filterMap constant? = ps.filterMap constant? := rfl
      rw [hconst, List.filterMap_cons, List.filterMap_cons, change?]
      cases (swap t comment).splice? with
      | none => exact ih
      | some s => exact List.perm_middle.trans (ih.cons s)

/-- **A token is in the place of a constant if that is in the place of its declaration.** -/
theorem Placed.find?_constant? {p : Patch} (h : Placed offset (ps ++ p :: qs))
    (hts : Contiguous offset ((ps ++ p :: qs).flatMap tokens)) {t : Token} (ht : t ∈ p.tokens)
    (hlt : t.span.start < t.span.stop) :
    ((ps ++ p :: qs).filterMap constant?).find? (·.span.encloses t.span) = p.constant? := by
  rw [List.flatMap_append, Contiguous.append_iff, ← flatMap_old, List.flatMap_cons,
    Contiguous.append_iff] at hts
  obtain ⟨hstart, hstop⟩ := hts.2.1.within t ht
  obtain ⟨hps, hspan, hqs⟩ := Placed.append_iff.mp h
  -- Other patches lie apart from the token, which has a character at least.
  have hnone : ∀ rs : List Patch, (∀ s ∈ rs.filterMap splice?, s.span.Apart t.span) →
      (rs.filterMap constant?).find? (·.span.encloses t.span) = none := by
    intro rs hrs
    refine List.find?_eq_none.mpr fun s hs => ?_
    obtain ⟨r, hr, hconst⟩ := List.mem_filterMap.mp hs
    have hsplice := List.mem_filterMap.mpr ⟨r, hr, splice?_of_constant? hconst⟩
    exact (hrs s hsplice).not_encloses hlt
  have hbefore := hnone ps fun s hs => .inl ((hps.within s hs).2.trans hstart)
  have hbehind := hnone qs fun s hs => .inr (hstop.trans (hqs.within s hs).1)
  rw [List.filterMap_append, List.filterMap_cons, List.find?_append, hbefore, Option.none_or]
  cases hconst : p.constant? with
  | none => exact hbehind
  | some s =>
    have hplace := hspan s (splice?_of_constant? hconst)
    have hencloses : s.span.encloses t.span = true := by
      rw [hplace]
      exact Span.encloses_iff.mpr ⟨hstart, hstop⟩
    exact List.find?_cons_of_pos hencloses

end Patch

/-! ### What becomes of the tokens of a source -/

/-- What may become of a token: a comment becomes one of its kind in its place, which stays on its
line, and any other token stays. -/
def Fate.Possible (f : Fate) : Prop :=
  match f.comment? with
  | none => f.token.kind.isComment = false
  | some comment => f.token.kind = comment.kind.token ∧ comment.span = f.token.span ∧
      (comment.kind = .line → '\n' ∉ comment.text.toList)

private theorem Fate.Possible.span {f : Fate} (h : f.Possible) {comment : Comment}
    (hcomment : f.comment? = some comment) : comment.span = f.token.span := by
  rw [Possible, hcomment] at h
  exact h.2.1

/-- The tokens of a source, and what has become of the comments. -/
structure Fate.Of (source : String) (comments : List Comment) (fs : List Fate) : Prop where
  tokens : fs.map Fate.token = Token.scan source
  comments : fs.filterMap Fate.comment? = comments
  possible : ∀ f ∈ fs, f.Possible

/-- What becomes of a comment by taking out parts of it stays a comment of its kind, and a line
comment on its line. -/
private theorem Comment.Becomes.possible {source : String} {t : Token} (ht : t ∈ Token.scan source)
    {comment next : Comment} (hcomment : Comment.ofToken? t = some comment)
    (h : comment.Becomes next) : Fate.Possible ⟨t, some next⟩ := by
  obtain ⟨htoken, -⟩ := Comment.token_of_ofToken? ht hcomment
  refine ⟨?_, ?_, fun hline hmem => ?_⟩
  · rw [← htoken, h.kind]
    rfl
  · rw [← htoken]
    exact h.span
  · -- The text had no line feed before, and none has been put in.
    obtain ⟨front, back, hscan⟩ := List.append_of_mem ht
    have hlexed := Token.lexed_scan source
    rw [hscan] at hlexed
    have hkind : t.kind = .lineComment := by
      rw [← htoken, token, ← h.kind, hline]
      rfl
    refine hlexed.of_append.1.lineFeed_not_mem_of_lineComment hkind ?_
    have hbody := Token.encloses_of_ofToken? ht hcomment
    cases hbody with
    | line _ htext =>
      rw [htext]
      exact List.mem_append_right _ (h.text hmem)
    | block hblock =>
      rw [hkind] at hblock
      cases hblock

/-- Comments that have become others say what has become of the tokens. -/
theorem Fate.exists_of {source : String} {comments : List Comment}
    (h : List.Forall₂ Comment.Becomes ((Token.scan source).filterMap Comment.ofToken?) comments) :
    ∃ fs, Fate.Of source comments fs := by
  -- For the induction the tokens are any tokens of the source.
  have hall : ∀ (ts : List Token) (comments : List Comment), (∀ t ∈ ts, t ∈ Token.scan source) →
      List.Forall₂ Comment.Becomes (ts.filterMap Comment.ofToken?) comments →
      ∃ fs : List Fate, fs.map Fate.token = ts ∧ fs.filterMap Fate.comment? = comments ∧
        ∀ f ∈ fs, f.Possible := by
    intro ts
    induction ts with
    | nil =>
      intro comments _ h
      cases h
      exact ⟨[], rfl, rfl, List.forall_mem_nil _⟩
    | cons t ts ih =>
      intro comments hts h
      obtain ⟨ht, hts⟩ := List.forall_mem_cons.mp hts
      rw [List.filterMap_cons] at h
      cases hcomment : Comment.ofToken? t with
      | none =>
        rw [hcomment] at h
        obtain ⟨fs, rfl, rfl, hfs⟩ := ih comments hts h
        have hkind := Comment.isComment_of_ofToken?_eq_none hcomment
        exact ⟨⟨t, none⟩ :: fs, rfl, rfl, List.forall_mem_cons.mpr ⟨hkind, hfs⟩⟩
      | some comment =>
        rw [hcomment] at h
        obtain ⟨next, rest, hnext, hrest, rfl⟩ := List.forall₂_cons_left_iff.mp h
        obtain ⟨fs, rfl, rfl, hfs⟩ := ih rest hts hrest
        exact ⟨⟨t, some next⟩ :: fs, rfl, rfl,
          List.forall_mem_cons.mpr ⟨hnext.possible ht hcomment, hfs⟩⟩
  obtain ⟨fs, htokens, hcomments, hfs⟩ := hall _ comments (fun _ => id) h
  exact ⟨fs, htokens, hcomments, hfs⟩

/-! ### Statements made of patches -/

namespace Verbatim

/-- A statement that is made of patches: `front` and `back` are the tokens of the source before it
and behind it. -/
structure MadeOf (text : Verbatim) (source : String) (comments : List Comment) (front : List Fate)
    (ps : List Patch) (back : List Fate) : Prop where
  fates : Fate.Of source comments (front ++ (ps.flatMap Patch.fates ++ back))
  covers : Patch.Covers ps none text.span.start (ps.flatMap Patch.fates)
    (text.nested.filterMap text.constSplice?)
  start : text.span.start = Text.byteLength ((front.map Fate.token).flatMap (·.text.toList))
  stop : text.span.stop = text.span.start + Text.byteLength (ps.flatMap Patch.old)
  text : text.text.toList = ps.flatMap Patch.old

namespace MadeOf

variable {text : Verbatim} {source : String} {comments : List Comment} {front back : List Fate}
  {ps : List Patch}

theorem tokens_eq (ps : List Patch) :
    (ps.flatMap Patch.fates).map Fate.token = ps.flatMap Patch.tokens := by
  rw [List.map_flatMap]
  exact List.flatMap_congr fun p _ => p.tokens_eq.symm

variable (h : text.MadeOf source comments front ps back)

include h

theorem scan_eq : Token.scan source =
    front.map Fate.token ++ (ps.flatMap Patch.tokens ++ back.map Fate.token) := by
  rw [← h.fates.tokens, List.map_append, List.map_append, tokens_eq]

theorem contiguous : Contiguous 0 (front.map Fate.token) ∧
    Contiguous text.span.start (ps.flatMap Patch.tokens) ∧
      Contiguous text.span.stop (back.map Fate.token) := by
  have hall := Token.contiguous_scan source
  rwa [h.scan_eq, Contiguous.append_iff, Contiguous.append_iff, Nat.zero_add, ← h.start,
    ← Patch.flatMap_old, ← h.stop] at hall

private theorem start_lt_stop {t : Token}
    (ht : t ∈ front.map Fate.token ++ (ps.flatMap Patch.tokens ++ back.map Fate.token)) :
    t.span.start < t.span.stop := by
  rw [← h.scan_eq] at ht
  exact Token.start_lt_stop_of_mem_scan ht

/-- The statement encloses its tokens, and no other one. -/
theorem encloses : (∀ t ∈ front.map Fate.token, text.span.encloses t.span = false) ∧
    (∀ t ∈ ps.flatMap Patch.tokens, text.span.encloses t.span = true) ∧
      ∀ t ∈ back.map Fate.token, text.span.encloses t.span = false := by
  obtain ⟨hfront, hps, hback⟩ := h.contiguous
  refine ⟨fun t ht => ?_, fun t ht => ?_, fun t ht => ?_⟩
  · have hlt := h.start_lt_stop (List.mem_append_left _ ht)
    have hstop := (hfront.within t ht).2
    rw [Nat.zero_add, ← h.start] at hstop
    have hapart : text.span.Apart t.span := .inr hstop
    exact Bool.eq_false_iff.mpr (hapart.not_encloses hlt)
  · obtain ⟨hstart, hstop⟩ := hps.within t ht
    rw [← Patch.flatMap_old, ← h.stop] at hstop
    exact Span.encloses_iff.mpr ⟨hstart, hstop⟩
  · have hlt := h.start_lt_stop (List.mem_append_right _ (List.mem_append_right _ ht))
    have hapart : text.span.Apart t.span := .inl (hback.within t ht).1
    exact Bool.eq_false_iff.mpr (hapart.not_encloses hlt)

/-- The tokens of the source that stand in the statement are those of its patches. -/
theorem filter_scan : (Token.scan source).filter (fun t => text.span.encloses t.span) =
    ps.flatMap Patch.tokens := by
  obtain ⟨hfront, hps, hback⟩ := h.encloses
  rw [h.scan_eq, List.filter_append, List.filter_append,
    List.filter_eq_nil_iff.mpr fun t ht => Bool.eq_false_iff.mp (hfront t ht),
    List.filter_eq_self.mpr hps,
    List.filter_eq_nil_iff.mpr fun t ht => Bool.eq_false_iff.mp (hback t ht), List.nil_append,
    List.append_nil]

/-- The place of a constant encloses the tokens of its declaration, and no other one. -/
theorem find?_splice {p : Patch} (hp : p ∈ ps) {t : Token} (ht : t ∈ p.tokens) :
    (text.nested.filterMap text.constSplice?).find? (·.span.encloses t.span) = p.constant? := by
  have hlt := h.start_lt_stop
    (List.mem_append_right _ (List.mem_append_left _ (List.mem_flatMap.mpr ⟨p, hp, ht⟩)))
  have hplaced := h.covers.placed
  have hts := h.contiguous.2.1
  obtain ⟨qs, rs, rfl⟩ := List.append_of_mem hp
  rw [← h.covers.constants]
  exact hplaced.find?_constant? hts ht hlt

theorem mem_scan {p : Patch} (hp : p ∈ ps) {t : Token} (ht : t ∈ p.tokens) :
    t ∈ Token.scan source := by
  rw [h.scan_eq]
  exact List.mem_append_right _ (List.mem_append_left _ (List.mem_flatMap.mpr ⟨p, hp, ht⟩))

/-- A token is in the place of a constant if its patch is a declaration. -/
private theorem any_splice {p : Patch} (hp : p ∈ ps) {t : Token} (ht : t ∈ p.tokens) :
    ((text.nested.filterMap text.constSplice?).any fun s => s.span.encloses t.span) =
      p.constant?.isSome := by
  rw [← h.find?_splice hp ht, Bool.eq_iff_iff, List.any_eq_true, List.find?_isSome]

/-- No patch is empty. -/
private theorem pos {p : Patch} (hp : p ∈ ps) : 0 < Text.byteLength p.old := by
  have hnonempty : ∃ t, t ∈ p.tokens := by
    cases p with
    | keep t => exact ⟨t, List.mem_singleton_self t⟩
    | swap t comment => exact ⟨t, List.mem_singleton_self t⟩
    | const fates s =>
      obtain ⟨f, fs, rfl, -⟩ := h.covers.headed _ hp
      exact ⟨f.token, List.mem_cons_self⟩
  obtain ⟨t, ht⟩ := hnonempty
  obtain ⟨-, -, -, -, hne⟩ := Token.exists_append_of_mem_scan (h.mem_scan hp ht)
  refine Nat.pos_of_ne_zero fun hzero => hne ?_
  exact List.flatMap_eq_nil_iff.mp (Text.eq_nil_of_byteLength_eq_zero hzero) t ht

theorem possible {p : Patch} (hp : p ∈ ps) : ∀ f ∈ p.fates, f.Possible := fun f hf =>
  h.fates.possible f (List.mem_append_right _
    (List.mem_append_left _ (List.mem_flatMap.mpr ⟨p, hp, hf⟩)))

/-- The comments of a statement that are in the place of no constant are those of its patches. -/
private theorem filter_comments :
    (comments.filter fun c => text.span.encloses c.span &&
      !(text.nested.filterMap text.constSplice?).any fun s => s.span.encloses c.span) =
    ps.filterMap Patch.comment? := by
  obtain ⟨hfront, hps, hback⟩ := h.encloses
  -- What stands in front of the statement or behind it is not enclosed by its span.
  have houter : ∀ fs : List Fate, (∀ f ∈ fs, f.Possible) →
      (∀ t ∈ fs.map Fate.token, text.span.encloses t.span = false) →
      ((fs.filterMap Fate.comment?).filter fun c => text.span.encloses c.span &&
        !(text.nested.filterMap text.constSplice?).any fun s => s.span.encloses c.span) = [] := by
    intro fs hfs hencloses
    refine List.filter_eq_nil_iff.mpr fun c hc => ?_
    obtain ⟨f, hf, hcomment⟩ := List.mem_filterMap.mp hc
    rw [(hfs f hf).span hcomment, hencloses _ (List.mem_map_of_mem hf), Bool.false_and]
    exact Bool.false_ne_true
  have hpossible := h.fates.possible
  rw [List.forall_mem_append, List.forall_mem_append] at hpossible
  rw [← h.fates.comments, List.filterMap_append, List.filterMap_append, List.filter_append,
    List.filter_append, houter front hpossible.1 hfront, houter back hpossible.2.2 hback,
    List.nil_append, List.append_nil, List.filterMap_flatMap, List.filter_flatMap,
    List.filterMap_eq_flatMap_toList Patch.comment?]
  refine List.flatMap_congr fun p hp => ?_
  -- In the statement a comment is left out exactly if its patch is that of a constant.
  have hinside : ∀ f ∈ p.fates, ∀ comment, f.comment? = some comment →
      (text.span.encloses comment.span &&
        !(text.nested.filterMap text.constSplice?).any fun s => s.span.encloses comment.span) =
      p.constant?.isNone := by
    intro f hf comment hcomment
    have ht : f.token ∈ p.tokens := p.tokens_eq ▸ List.mem_map_of_mem hf
    rw [(h.possible hp f hf).span hcomment, hps _ (List.mem_flatMap.mpr ⟨p, hp, ht⟩), Bool.true_and,
      h.any_splice hp ht, Option.not_isSome]
  cases p with
  | keep t => rfl
  | swap t comment =>
    have hkept := hinside _ (List.mem_singleton_self _) comment rfl
    rw [Patch.fates, List.filterMap_cons, List.filterMap_nil, List.filter_cons, hkept]
    rfl
  | const fates s =>
    refine List.filter_eq_nil_iff.mpr fun comment hcomment => ?_
    obtain ⟨f, hf, hcomment⟩ := List.mem_filterMap.mp hcomment
    rw [hinside f hf comment hcomment]
    exact Bool.false_ne_true

/-- What goes into the place of a comment is what goes into the place of its patch. -/
private theorem commentSplice?_eq {p : Patch} (hp : p ∈ ps) :
    p.comment?.bind (commentSplice? source.toList) = p.change? := by
  cases p with
  | keep t => rfl
  | const fates s => rfl
  | swap t comment =>
    have hspan : comment.span = t.span :=
      (h.possible hp ⟨t, some comment⟩ (List.mem_singleton_self _)).span rfl
    have hslice := Token.slice?_of_mem_scan (h.mem_scan hp (t := t) (List.mem_singleton_self _))
    have hshown : (if comment.ignored then "" else comment.render) = comment.shown := rfl
    rw [Patch.comment?, Option.bind_some, commentSplice?, hspan, hslice, hshown, Patch.change?,
      Patch.splice?, Option.getD_some]
    simp only [String.toList_inj]

/-- **The splices of a statement are those of its patches.** -/
theorem splices_eq : text.splices source.toList comments = ps.filterMap Patch.splice? := by
  have hchanges : (ps.filterMap Patch.comment?).filterMap (commentSplice? source.toList) =
      ps.filterMap Patch.change? := by
    rw [List.filterMap_filterMap]
    exact List.filterMap_congr fun p hp => h.commentSplice?_eq hp
  unfold splices
  dsimp only
  rw [h.filter_comments, hchanges, ← h.covers.constants]
  exact Splice.sort_eq_of_perm (Patch.perm_splices ps)
    (h.covers.placed.pairwise fun p hp => h.pos hp)

/-- **A statement is printed as what becomes of its patches.** -/
theorem toList_render :
    (text.render source.toList comments).toList = ps.flatMap Patch.new := by
  have hweave := @Splice.weave_splices ps text.span.start [] h.covers.placed
  rw [render, String.toList_ofList, h.splices_eq, h.text]
  exact hweave

end MadeOf

end Verbatim

end Reifier
