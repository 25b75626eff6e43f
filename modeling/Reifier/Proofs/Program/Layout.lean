import Reifier.Proofs.Program.Course

/-!
# Where items and their comments stand

The comments and tokens of a source stand one before the other, and so do the items that are laid
out in them, each behind the comments above it (`Segment.Laid.marks`). A lexeme is in the span of
one item and apart from all others, unless it belongs to none (`Segment.Laid.placed`).

What carries this is that each item begins where a token of its run begins and ends where one ends,
and that the runs follow each other (`Span.Marks`).
-/

namespace Reifier

namespace Span

/-! ### Spans inside spans -/

theorem encloses_iff {outer inner : Span} :
    outer.encloses inner = true ↔ outer.start ≤ inner.start ∧ inner.stop ≤ outer.stop := by
  rw [encloses, Bool.and_eq_true, decide_eq_true_iff, decide_eq_true_iff]

@[simp] theorem encloses_refl (s : Span) : s.encloses s = true :=
  encloses_iff.mpr ⟨le_rfl, le_rfl⟩

theorem encloses_trans {s t u : Span} (h : s.encloses t = true) (h' : t.encloses u = true) :
    s.encloses u = true := by
  rw [encloses_iff] at h h' ⊢
  exact ⟨h.1.trans h'.1, h'.2.trans h.2⟩

/-! ### Marks among spans -/

/-- A span that begins where one of some spans begins, and ends where one of them ends. -/
def Joins (spans : List Span) (s : Span) : Prop :=
  (∃ t ∈ spans, s.start = t.start) ∧ ∃ t ∈ spans, s.stop = t.stop

/-- Two spans that do not overlap. -/
def Apart (s t : Span) : Prop := s.Precedes t ∨ t.Precedes s

/-- A span encloses nothing that it stands apart from, unless that is empty. -/
theorem Apart.not_encloses {s t : Span} (h : s.Apart t) (ht : t.start < t.stop) :
    ¬ s.encloses t = true := by
  rw [encloses_iff]
  rintro ⟨hstart, hstop⟩
  rcases h with h | h
  · exact absurd (hstop.trans h) (Nat.not_le.mpr ht)
  · exact absurd (h.trans hstart) (Nat.not_le.mpr ht)

/-- Marks, one before the other, each of which joins some of the spans. -/
structure Marks (spans marks : List Span) : Prop where
  pairwise : marks.Pairwise Precedes
  joins : ∀ s ∈ marks, s.Joins spans

variable {spans more marks : List Span}

theorem Joins.mono {s : Span} (h : s.Joins spans) (hsub : spans ⊆ more) : s.Joins more := by
  obtain ⟨⟨t, ht, hstart⟩, u, hu, hstop⟩ := h
  exact ⟨⟨t, hsub ht, hstart⟩, u, hsub hu, hstop⟩

private theorem Joins.of_mem {s : Span} (h : s ∈ spans) : s.Joins spans := ⟨⟨s, h, rfl⟩, s, h, rfl⟩

/-- What encloses spans encloses what joins them. -/
theorem Joins.enclosed {s outer : Span} (h : s.Joins spans)
    (houter : ∀ t ∈ spans, outer.encloses t = true) : outer.encloses s = true := by
  obtain ⟨⟨t, ht, hstart⟩, u, hu, hstop⟩ := h
  have htouter := houter t ht
  have huouter := houter u hu
  rw [encloses, Bool.and_eq_true, decide_eq_true_eq, decide_eq_true_eq] at htouter huouter ⊢
  rw [hstart, hstop]
  exact ⟨htouter.1, huouter.2⟩

/-- What joins spans stands before all that they stand before. -/
private theorem Joins.precedes {s t : Span} (hs : s.Joins spans) (ht : t.Joins more)
    (h : ∀ a ∈ spans, ∀ b ∈ more, a.Precedes b) : s.Precedes t := by
  obtain ⟨-, a, ha, hstop⟩ := hs
  obtain ⟨⟨b, hb, hstart⟩, -⟩ := ht
  rw [Precedes, hstop, hstart]
  exact h a ha b hb

namespace Marks

protected theorem nil : Marks spans [] := ⟨.nil, List.forall_mem_nil _⟩

/-- Spans that stand one before the other are marks among themselves. -/
protected theorem refl (h : spans.Pairwise Precedes) : Marks spans spans :=
  ⟨h, fun _ => .of_mem⟩

private theorem singleton {s : Span} (h : s.Joins spans) : Marks spans [s] :=
  ⟨List.pairwise_singleton _ _, List.forall_mem_singleton.mpr h⟩

theorem mono (h : Marks spans marks) (hsub : spans ⊆ more) : Marks more marks :=
  ⟨h.pairwise, fun s hs => (h.joins s hs).mono hsub⟩

/-- Marks of two lists of spans are marks of both if these are in order. -/
theorem append {marks' : List Span} (h : Marks spans marks) (h' : Marks more marks')
    (hspans : (spans ++ more).Pairwise Precedes) :
    Marks (spans ++ more) (marks ++ marks') := by
  obtain ⟨-, -, hcross⟩ := List.pairwise_append.mp hspans
  refine ⟨List.pairwise_append.mpr ⟨h.pairwise, h'.pairwise, fun s hs t ht => ?_⟩, ?_⟩
  · exact (h.joins s hs).precedes (h'.joins t ht) hcross
  · exact List.forall_mem_append.mpr
      ⟨fun s hs => (h.joins s hs).mono (List.subset_append_left _ _),
        fun s hs => (h'.joins s hs).mono (List.subset_append_right _ _)⟩

end Marks

end Span

/-! ### Spans of lexemes -/

namespace Lexeme

/-- Where the comments before some lexemes and the lexemes themselves stand, in their order. -/
def spans (ls : List Lexeme) : List Span :=
  ls.flatMap fun l => l.before.comments.map Comment.span ++ [l.token.span]

@[simp] theorem spans_nil : spans [] = [] := rfl

@[simp] theorem spans_cons (l : Lexeme) (ls : List Lexeme) :
    spans (l :: ls) = l.before.comments.map Comment.span ++ l.token.span :: spans ls := by
  simp [spans]

@[simp] theorem spans_append (ls ms : List Lexeme) : spans (ls ++ ms) = spans ls ++ spans ms :=
  List.flatMap_append

theorem span_mem_spans {l m : Lexeme} {run : List Lexeme} (hm : m ∈ l :: run) :
    m.token.span ∈ l.token.span :: spans run := by
  rcases List.mem_cons.mp hm with rfl | hm
  · exact List.mem_cons_self
  · exact List.mem_cons_of_mem _ (List.mem_flatMap.mpr ⟨m, hm, by simp⟩)

theorem token_mem_spans {l : Lexeme} {ls : List Lexeme} (hl : l ∈ ls) :
    l.token.span ∈ spans ls :=
  List.mem_flatMap.mpr ⟨l, hl, by simp⟩

/-- Comments and tokens one before the other, none of them empty. -/
structure Ordered (ls : List Lexeme) : Prop where
  pairwise : (spans ls).Pairwise Span.Precedes
  lt : ∀ s ∈ spans ls, s.start < s.stop

/-- Parts of lexemes in order are in order. -/
theorem Ordered.append {ls ms : List Lexeme} (h : Ordered (ls ++ ms)) :
    Ordered ls ∧ Ordered ms := by
  obtain ⟨hpairwise, hlt⟩ := h
  rw [spans_append] at hpairwise hlt
  obtain ⟨hls, hms, -⟩ := List.pairwise_append.mp hpairwise
  obtain ⟨hlt, hlt'⟩ := List.forall_mem_append.mp hlt
  exact ⟨⟨hls, hlt⟩, ⟨hms, hlt'⟩⟩

theorem Ordered.bare {l : Lexeme} {run : List Lexeme} (h : Ordered (l :: run)) :
    Ordered (Segment.bare l :: run) := by
  have hsub : (spans (Segment.bare l :: run)).Sublist (spans (l :: run)) := by
    rw [spans_cons, spans_cons]
    exact List.sublist_append_right _ _
  exact ⟨h.pairwise.sublist hsub, fun s hs => h.lt s (hsub.subset hs)⟩

/-- The end of a run is that of a token of it, and nothing in the run ends behind it. -/
private theorem lastStop_spec {l : Lexeme} {run : List Lexeme}
    (h : (l.token.span :: spans run).Pairwise Span.Precedes)
    (hlt : ∀ s ∈ l.token.span :: spans run, s.start < s.stop) :
    (∃ m ∈ l :: run, lastStop run l.token.span.stop = m.token.span.stop) ∧
      ∀ s ∈ l.token.span :: spans run, s.stop ≤ lastStop run l.token.span.stop := by
  induction run generalizing l with
  | nil => exact ⟨⟨l, List.mem_cons_self, rfl⟩, List.forall_mem_singleton.mpr le_rfl⟩
  | cons m run ih =>
    rw [spans_cons] at h hlt
    have hsub : (m.token.span :: spans run).Sublist
        (m.before.comments.map Comment.span ++ m.token.span :: spans run) :=
      List.sublist_append_right _ _
    obtain ⟨hfirst, hrest⟩ := List.pairwise_cons.mp h
    obtain ⟨hlt₀, hlts⟩ := List.forall_mem_cons.mp hlt
    obtain ⟨⟨last, hlast, hstop⟩, hle⟩ := ih (hrest.sublist hsub) fun s hs => hlts s (hsub.subset hs)
    rw [lastStop_cons]
    refine ⟨⟨last, List.mem_cons_of_mem l hlast, hstop⟩, ?_⟩
    -- What stands before the token `m` ends before it does.
    have hm : m.token.span.stop ≤ lastStop run m.token.span.stop := hle _ List.mem_cons_self
    have hmlt : m.token.span.start < m.token.span.stop := hlts _ (hsub.subset List.mem_cons_self)
    rw [spans_cons]
    refine List.forall_mem_cons.mpr ⟨?_, List.forall_mem_append.mpr ⟨fun s hs => ?_, hle⟩⟩
    · have hpre : l.token.span.stop ≤ m.token.span.start :=
        hfirst _ (hsub.subset List.mem_cons_self)
      omega
    · have hpre : s.stop ≤ m.token.span.start :=
        (List.pairwise_append.mp hrest).2.2 s hs _ List.mem_cons_self
      omega

/-- The span of a run goes from its first token to its last one, with all that stands in between. -/
theorem spanOf_spec {l : Lexeme} {run : List Lexeme} (h : Ordered (l :: run)) :
    (∃ m ∈ l :: run, spanOf (l :: run) = ⟨l.token.span.start, m.token.span.stop⟩) ∧
      ∀ s ∈ l.token.span :: spans run, (spanOf (l :: run)).encloses s = true := by
  obtain ⟨hpairwise, hlt⟩ := h
  rw [spans_cons] at hpairwise hlt
  obtain ⟨-, hpairwise, -⟩ := List.pairwise_append.mp hpairwise
  obtain ⟨-, hlt⟩ := List.forall_mem_append.mp hlt
  obtain ⟨⟨m, hm, hstop⟩, hle⟩ := lastStop_spec hpairwise hlt
  obtain ⟨hfirst, -⟩ := List.pairwise_cons.mp hpairwise
  have hl := hlt _ List.mem_cons_self
  have hlast := hle _ List.mem_cons_self
  have hspan : spanOf (l :: run) = ⟨l.token.span.start, lastStop run l.token.span.stop⟩ := by
    rw [spanOf, max_eq_left (by omega)]
  refine ⟨⟨m, hm, by rw [hspan, hstop]⟩, fun s hs => ?_⟩
  rw [hspan, Span.encloses_iff]
  refine ⟨?_, hle s hs⟩
  rcases List.mem_cons.mp hs with rfl | hs
  · exact le_rfl
  · have hpre : l.token.span.stop ≤ s.start := hfirst s hs
    dsimp only
    omega

private theorem joins_spanOf {l : Lexeme} {run : List Lexeme} (h : Ordered (l :: run)) :
    (spanOf (l :: run)).Joins (spans (l :: run)) := by
  obtain ⟨⟨m, hm, hspanOf⟩, -⟩ := spanOf_spec h
  rw [hspanOf]
  exact ⟨⟨l.token.span, token_mem_spans List.mem_cons_self, rfl⟩, m.token.span,
    token_mem_spans hm, rfl⟩

theorem encloses_spanOf_bare {l : Lexeme} {run : List Lexeme} (h : Ordered (l :: run)) :
    ∀ s ∈ spans (Segment.bare l :: run), (spanOf (Segment.bare l :: run)).encloses s = true :=
  (spanOf_spec h.bare).2

/-- A run of lexemes ends where the last one does. -/
theorem stop_spanOf {l : Lexeme} {run : List Lexeme} (h : Ordered (l :: run)) :
    (spanOf (l :: run)).stop = lastStop run l.token.span.stop := by
  obtain ⟨-, hencloses⟩ := spanOf_spec h
  have hl := hencloses _ List.mem_cons_self
  have hlt : l.token.span.start < l.token.span.stop :=
    h.lt _ (token_mem_spans List.mem_cons_self)
  have hstop : l.token.span.stop ≤ (spanOf (l :: run)).stop := by
    rw [Span.encloses_iff] at hl
    exact hl.2
  unfold spanOf at hstop ⊢
  dsimp only at hstop ⊢
  omega

/-- What begins where a run ends, or behind that, is what stands behind the run. -/
theorem find?_behind {front run back : List Lexeme} {l : Lexeme}
    (h : Ordered (front ++ l :: run ++ back)) :
    (front ++ l :: run ++ back).find?
      (fun m => (spanOf (l :: run)).stop ≤ m.token.span.start) = back.head? := by
  obtain ⟨⟨last, hlast, hspan⟩, hencloses⟩ := spanOf_spec h.append.1.append.2
  have hlt : ∀ m ∈ front ++ l :: run ++ back, m.token.span.start < m.token.span.stop :=
    fun m hm => h.lt _ (token_mem_spans hm)
  obtain ⟨hpairwise, -⟩ := h
  rw [spans_append, spans_append] at hpairwise
  obtain ⟨hbefore, -, hbehind⟩ := List.pairwise_append.mp hpairwise
  obtain ⟨-, -, hfront⟩ := List.pairwise_append.mp hbefore
  rw [hspan] at hencloses ⊢
  -- What stands before the end of the run begins before it, too.
  have hnone : (front ++ l :: run).find?
      (fun m => last.token.span.stop ≤ m.token.span.start) = none := by
    refine List.find?_eq_none.mpr fun m hm => ?_
    have hmlt := hlt m (List.mem_append_left _ hm)
    rw [decide_eq_true_eq, Nat.not_le]
    rcases List.mem_append.mp hm with hm | hm
    · have hpre : m.token.span.stop ≤ last.token.span.start :=
        hfront _ (token_mem_spans hm) _ (token_mem_spans hlast)
      have hlastlt := hlt last (List.mem_append_left _ (List.mem_append_right _ hlast))
      omega
    · have hstop := hencloses _ (span_mem_spans hm)
      rw [Span.encloses_iff] at hstop
      exact hmlt.trans_le hstop.2
  rw [List.find?_append, hnone, Option.none_or]
  cases back with
  | nil => rfl
  | cons m back =>
    have hpre : last.token.span.stop ≤ m.token.span.start :=
      hbehind _ (List.mem_append_right _ (token_mem_spans hlast)) _
        (token_mem_spans List.mem_cons_self)
    exact List.find?_cons_of_pos (decide_eq_true hpre)

/-- The tokens of lexemes are those that are not trivia. -/
theorem tokens_ofTokensAfter (before : Trivia) (ts : List Token) :
    (ofTokensAfter before ts).1.map Lexeme.token = ts.filter fun t => !t.kind.isTrivia := by
  induction ts generalizing before with
  | nil => rfl
  | cons t ts ih =>
    rw [ofTokensAfter]
    split_ifs with htrivia
    · rw [ih, List.filter_cons_of_neg (by simp [htrivia])]
    · rw [List.map_cons, ih, List.filter_cons_of_pos (by simp [htrivia])]

/-- Where comments and lexemes stand is where the tokens stand that they come from. -/
private theorem spans_ofTokensAfter (before : Trivia) (ts : List Token) :
    (spans (ofTokensAfter before ts).1 ++
        (ofTokensAfter before ts).2.comments.map Comment.span).Sublist
      (before.comments.map Comment.span ++ ts.map Token.span) := by
  induction ts generalizing before with
  | nil => simp [ofTokensAfter]
  | cons t ts ih =>
    rw [ofTokensAfter]
    split_ifs with htrivia
    · refine (ih _).trans ?_
      have hspan : ∀ comment, Comment.ofToken? t = some comment → comment.span = t.span := by
        intro comment h
        unfold Comment.ofToken? at h
        split at h <;> cases h <;> rfl
      rw [Trivia.push]
      cases hcomment : Comment.ofToken? t with
      | none => simp
      | some comment => simp [hspan comment hcomment]
    · have hrest := ih Trivia.none
      have hnone : Trivia.none.comments = [] := rfl
      rw [hnone, List.map_nil, List.nil_append] at hrest
      simp [hrest]

/-- The lexemes of a source stand one before the other, with the comments before them and those
after the last of them. -/
theorem ordered_ofTokens {source : String} {ls : List Lexeme} {after : Trivia}
    (h : ofTokens (Token.scan source) = (ls, after)) :
    (spans ls ++ after.comments.map Comment.span).Pairwise Span.Precedes ∧ Ordered ls := by
  have hsub := spans_ofTokensAfter Trivia.none (Token.scan source)
  have hnone : Trivia.none.comments = [] := rfl
  rw [hnone, List.map_nil, List.nil_append, ← ofTokens, h] at hsub
  have hpairwise : ((Token.scan source).map Token.span).Pairwise Span.Precedes :=
    List.pairwise_map.mpr (Token.pairwise_precedes_scan source)
  have hall := hpairwise.sublist hsub
  refine ⟨hall, (List.pairwise_append.mp hall).1, fun s hs => ?_⟩
  obtain ⟨t, ht, rfl⟩ := List.mem_map.mp (hsub.subset (List.mem_append_left _ hs))
  exact Token.start_lt_stop_of_mem_scan ht

end Lexeme

/-! ### Comments and their places -/

/-- The kind of token that a comment is. -/
def Comment.Kind.token : Comment.Kind → Token.Kind
  | line => .lineComment
  | block => .blockComment

/-- The token that a comment is. -/
def Comment.token (comment : Comment) : Token :=
  ⟨comment.kind.token, comment.render, comment.span⟩

/-- A comment of a source keeps all of its token. -/
theorem Comment.token_of_ofToken? {source : String} {t : Token} (ht : t ∈ Token.scan source)
    {comment : Comment} (h : ofToken? t = some comment) :
    comment.token = t ∧ comment.ignored = false := by
  have hencloses := Token.encloses_of_ofToken? ht h
  -- Either form of comment is recorded with its kind and place.
  obtain ⟨kind, htoken, hcomment⟩ : ∃ kind : Kind, t.kind = kind.token ∧
      comment = ⟨kind, comment.text, t.span, false⟩ := by
    unfold ofToken? at h
    split at h
    · exact ⟨.line, ‹_›, by rw [← Option.some.inj h]⟩
    · exact ⟨.block, ‹_›, by rw [← Option.some.inj h]⟩
    · cases h
  obtain ⟨_, text, _, _⟩ := comment
  cases hcomment
  have hrender : (render ⟨kind, text, t.span, false⟩).toList = t.text.toList := by
    cases hencloses with
    | line hkind htext =>
      cases kind with
      | line => rw [htext, render, String.toList_append]; rfl
      | block => exact absurd (hkind.symm.trans htoken) (by decide)
    | block hkind htext =>
      cases kind with
      | line => exact absurd (hkind.symm.trans htoken) (by decide)
      | block => rw [htext, render, String.toList_append, String.toList_append]; rfl
  refine ⟨?_, rfl⟩
  rw [token, String.toList_inj.mp hrender, ← htoken]

/-- A token that gives no comment is none. -/
theorem Comment.isComment_of_ofToken?_eq_none {t : Token} (h : ofToken? t = none) :
    t.kind.isComment = false := by
  unfold ofToken? at h
  split at h
  · cases h
  · cases h
  · rename_i hline hblock
    exact Bool.eq_false_iff.mpr fun hkind => by
      unfold Token.Kind.isComment at hkind
      split at hkind
      · exact hline ‹_›
      · exact hblock ‹_›
      · cases hkind

/-- The comments of tokens keep all of the comment tokens. -/
theorem Comment.map_token_filterMap {source : String} {ts : List Token}
    (h : ∀ t ∈ ts, t ∈ Token.scan source) :
    (ts.filterMap ofToken?).map token = ts.filter (·.kind.isComment) := by
  induction ts with
  | nil => rfl
  | cons t ts ih =>
    obtain ⟨ht, hts⟩ := List.forall_mem_cons.mp h
    rw [List.filterMap_cons, List.filter_cons]
    cases hcomment : ofToken? t with
    | none =>
      have hkind := isComment_of_ofToken?_eq_none hcomment
      simp [hkind, ih hts]
    | some comment =>
      obtain ⟨htoken, -⟩ := token_of_ofToken? ht hcomment
      have hkind : t.kind.isComment = true := by
        rw [← htoken]
        cases comment with
        | mk kind => cases kind <;> rfl
      simp [hkind, htoken, ih hts]

namespace Program

variable {α : Type}

/-- The places of the comments above items. -/
def leading (items : List (Item α)) : List CommentId := items.flatMap (·.comments)

/-- Where items stand, each after the comments above it. -/
def marks (program : Program) (span : α → Span) (items : List (Item α)) : List Span :=
  items.flatMap fun item =>
    (program.commentsAt item.comments).map Comment.span ++ [span item.node]

@[simp] theorem leading_nil : leading ([] : List (Item α)) = [] := rfl

@[simp] theorem leading_cons (item : Item α) (items : List (Item α)) :
    leading (item :: items) = item.comments ++ leading items := rfl

@[simp] theorem marks_nil (program : Program) (span : α → Span) : program.marks span [] = [] := rfl

@[simp] theorem marks_cons (program : Program) (span : α → Span) (item : Item α)
    (items : List (Item α)) : program.marks span (item :: items) =
      (program.commentsAt item.comments).map Comment.span ++ [span item.node] ++
        program.marks span items := rfl

/-- The spans of the items are among the marks, in this order. -/
theorem map_span_sublist_marks (program : Program) (span : α → Span) (items : List (Item α)) :
    (items.map fun item => span item.node).Sublist (program.marks span items) := by
  induction items with
  | nil => exact .slnil
  | cons item items ih =>
    rw [List.map_cons, marks_cons]
    exact (List.sublist_append_right _ [span item.node]).append ih

/-- The comments of a program with places in a row. -/
private theorem commentsAt_range' {program : Program} {pre mid post : List Comment}
    (h : program.comments = pre ++ mid ++ post) :
    program.commentsAt (List.range' pre.length mid.length) = mid := by
  unfold commentsAt
  induction mid generalizing pre with
  | nil => rfl
  | cons comment mid ih =>
    have hnext := @ih (pre ++ [comment]) (by simpa using h)
    rw [List.length_append, List.length_singleton] at hnext
    have hfirst : program.comments[pre.length]? = some comment := by simp [h]
    rw [List.length_cons, List.range'_succ, List.filterMap_cons, hfirst, hnext]

/-- Items and the comments above them, with further comments behind them, are in the order of their
source: the places of the comments increase, and each comment stands before its item and behind the
item before that. -/
structure InOrder (program : Program) (span : α → Span) (items : List (Item α))
    (more : List CommentId) : Prop where
  increasing : (leading items ++ more).Pairwise (· < ·)
  recorded : ∀ id ∈ leading items ++ more, id < program.comments.length
  marks : (program.marks span items ++
    (program.commentsAt more).map Comment.span).Pairwise Span.Precedes

end Program

/-! ### Segments in order -/

namespace Segment.Laid

open Lexeme (Ordered spanOf)

variable {α : Type} {reads : ℕ → List Lexeme → α → Prop} {span : α → Span} {n : ℕ}
  {segs : List (Segment α)} {program : Program} {pre post : List Comment}

/-- The places of the comments above the items are some of those of all comments of the segments. -/
private theorem leading_sublist (h : Laid reads n segs) :
    (Program.leading (items segs)).Sublist
      (List.range' n (Lexeme.comments (lexemes segs)).length) := by
  induction h with
  | nil n => exact .slnil
  | @item n l run node segs hnode rest ih =>
    have hrun : (List.range' n l.before.comments.length).Sublist
        (List.range' n (Lexeme.comments (l :: run)).length) := by
      rw [Lexeme.comments_cons, List.length_append, ← List.range'_append_1]
      exact List.sublist_append_left _ _
    rw [lexemes_cons, Lexeme.comments_append, List.length_append, ← List.range'_append_1]
    exact hrun.append ih
  | @other n run segs hrun rest ih =>
    rw [lexemes_cons, Lexeme.comments_append, List.length_append, ← List.range'_append_1]
    exact ih.trans (List.sublist_append_right _ _)

/-- An item is read from a run of lexemes of the segments, behind the comments above it. -/
theorem exists_run (h : Laid reads n segs) {i : Item α} (hi : i ∈ items segs) :
    ∃ front l run back, lexemes segs = front ++ (l :: run) ++ back ∧
      reads (n + (Lexeme.comments front ++ l.before.comments).length) (bare l :: run) i.node := by
  induction h with
  | nil n => cases hi
  | @item n l run node segs hnode rest ih =>
    rcases List.mem_cons.mp hi with rfl | hi
    · exact ⟨[], l, run, lexemes segs, rfl, hnode⟩
    · obtain ⟨front, m, more, back, hlexemes, hreads⟩ := ih hi
      refine ⟨(l :: run) ++ front, m, more, back, ?_, ?_⟩
      · rw [lexemes_item_cons, hlexemes]
        simp
      · rwa [Lexeme.comments_append, List.append_assoc, List.length_append, ← Nat.add_assoc]
  | @other n run segs hrun rest ih =>
    obtain ⟨front, m, more, back, hlexemes, hreads⟩ := ih hi
    refine ⟨run ++ front, m, more, back, ?_, ?_⟩
    · rw [lexemes_other_cons, hlexemes]
      simp
    · rwa [Lexeme.comments_append, List.append_assoc, List.length_append, ← Nat.add_assoc]

variable (hspan : ∀ n run node, reads n run node → span node = spanOf run)

include hspan

/-- The items with the comments above them stand one before the other, among the lexemes of the
segments. -/
theorem marks (h : Laid reads n segs) (hn : n = pre.length)
    (hcomments : program.comments = pre ++ Lexeme.comments (lexemes segs) ++ post)
    (hordered : Ordered (lexemes segs)) :
    Span.Marks (Lexeme.spans (lexemes segs)) (program.marks span (items segs)) := by
  induction h generalizing pre with
  | nil n => exact .nil
  | @item n l run node segs hnode rest ih =>
    rw [lexemes_item_cons] at hcomments hordered ⊢
    rw [Lexeme.comments_append] at hcomments
    obtain ⟨hrun, hsegs⟩ := hordered.append
    have hpairwise := hordered.pairwise
    rw [Lexeme.spans_append] at hpairwise ⊢
    rw [items_item_cons, Program.marks_cons]
    refine .append ?_ (ih (by rw [hn, List.length_append]) (by rw [hcomments]; simp) hsegs) hpairwise
    -- The comments above the item are those before its first lexeme.
    have hleading : program.commentsAt (List.range' n l.before.comments.length) =
        l.before.comments := by
      have hall : program.comments = pre ++ l.before.comments ++
          (Lexeme.comments run ++ (Lexeme.comments (lexemes segs) ++ post)) := by
        rw [hcomments]
        simp
      rw [hn, Program.commentsAt_range' hall]
    obtain ⟨⟨m, hm, hspanOf⟩, -⟩ := Lexeme.spanOf_spec hrun
    have hpairwise := hrun.pairwise
    rw [Lexeme.spans_cons] at hpairwise ⊢
    rw [hleading, hspan _ _ _ hnode, spanOf_bare_cons, hspanOf]
    refine .append (.refl (List.pairwise_append.mp hpairwise).1) (.singleton ?_) hpairwise
    exact ⟨⟨l.token.span, List.mem_cons_self, rfl⟩, m.token.span, Lexeme.span_mem_spans hm, rfl⟩
  | @other n run segs hrun rest ih =>
    rw [lexemes_other_cons] at hcomments hordered ⊢
    rw [Lexeme.comments_append] at hcomments
    rw [Lexeme.spans_append, items_other_cons]
    exact (ih (by rw [hn, List.length_append]) (by rw [hcomments]; simp) hordered.append.2).mono
      (List.subset_append_right _ _)

/-- The items, and the comments `tail` behind the segments, are in order. -/
theorem inOrder {tail : List Comment} (h : Laid reads pre.length segs)
    (hcomments : program.comments = pre ++ Lexeme.comments (lexemes segs) ++ tail ++ post)
    (hordered : Ordered (lexemes segs))
    (hpairwise : (Lexeme.spans (lexemes segs) ++ tail.map Comment.span).Pairwise Span.Precedes) :
    program.InOrder span (items segs)
      (List.range' (pre.length + (Lexeme.comments (lexemes segs)).length) tail.length) := by
  have hids := h.leading_sublist.append_right
    (List.range' (pre.length + (Lexeme.comments (lexemes segs)).length) tail.length)
  rw [List.range'_append_1] at hids
  have htail := Program.commentsAt_range' hcomments
  rw [List.length_append] at htail
  have hincreasing : (List.range' pre.length
      ((Lexeme.comments (lexemes segs)).length + tail.length)).Pairwise (· < ·) :=
    List.pairwise_lt_range' _ Nat.zero_lt_one
  refine ⟨hincreasing.sublist hids, fun id hid => ?_, ?_⟩
  · obtain ⟨-, hlt⟩ := List.mem_range'_1.mp (hids.subset hid)
    have hlength : pre.length + ((Lexeme.comments (lexemes segs)).length + tail.length) ≤
        program.comments.length := by
      rw [hcomments]
      simp only [List.length_append]
      omega
    exact hlt.trans_le hlength
  · rw [List.append_assoc] at hcomments
    rw [htail]
    exact ((h.marks hspan rfl hcomments hordered).append
      (.refl (List.pairwise_append.mp hpairwise).2.1) hpairwise).pairwise

/-- An item stands from the start of a token of the segments to the end of one. -/
theorem exists_tokens (h : Laid reads n segs) (hordered : Ordered (lexemes segs)) {i : Item α}
    (hi : i ∈ items segs) :
    ∃ l ∈ lexemes segs, ∃ m ∈ lexemes segs,
      span i.node = ⟨l.token.span.start, m.token.span.stop⟩ ∧
        l.token.span.start < m.token.span.stop := by
  obtain ⟨front, l, run, back, hlexemes, hreads⟩ := h.exists_run hi
  rw [hlexemes] at hordered ⊢
  obtain ⟨⟨m, hm, hspanOf⟩, henclosed⟩ := Lexeme.spanOf_spec hordered.append.1.append.2
  have hrun : ∀ k ∈ l :: run, k ∈ front ++ (l :: run) ++ back := fun k hk =>
    List.mem_append_left _ (List.mem_append_right _ hk)
  refine ⟨l, hrun l List.mem_cons_self, m, hrun m hm, (hspan _ _ _ hreads).trans hspanOf, ?_⟩
  have hfirst := henclosed _ List.mem_cons_self
  rw [hspanOf, Span.encloses_iff] at hfirst
  exact (hordered.append.1.append.2.lt _ (Lexeme.token_mem_spans List.mem_cons_self)).trans_le
    hfirst.2

/-- An item stands apart from the tokens around the segments. -/
theorem joins (h : Laid reads n segs) (hordered : Ordered (lexemes segs)) {i : Item α}
    (hi : i ∈ items segs) : (span i.node).Joins (Lexeme.spans (lexemes segs)) := by
  obtain ⟨l, hl, m, hm, hspanOf, -⟩ := h.exists_tokens hspan hordered hi
  rw [hspanOf]
  exact ⟨⟨l.token.span, Lexeme.token_mem_spans hl, rfl⟩, m.token.span, Lexeme.token_mem_spans hm,
    rfl⟩

/-- A lexeme is in the span of one item and apart from the others, or it is one of those left out,
which are apart from all items. -/
theorem placed (h : Laid reads n segs) (hordered : Ordered (lexemes segs)) :
    (∀ l ∈ omitted segs, ∀ i ∈ items segs, (span i.node).Apart l.token.span) ∧
      ∀ l ∈ lexemes segs, l ∈ omitted segs ∨
        ∃ before i after, items segs = before ++ i :: after ∧
          (span i.node).encloses l.token.span = true ∧
          ∀ j ∈ before ++ after, (span j.node).Apart l.token.span := by
  induction h with
  | nil n => exact ⟨List.forall_mem_nil _, List.forall_mem_nil _⟩
  | @item n l run node segs hnode rest ih =>
    rw [lexemes_item_cons] at hordered ⊢
    obtain ⟨hrun, hsegs⟩ := hordered.append
    obtain ⟨hout, hin⟩ := ih hsegs
    have hpairwise := hordered.pairwise
    rw [Lexeme.spans_append] at hpairwise
    have hcross := (List.pairwise_append.mp hpairwise).2.2
    -- The item joins lexemes of its run, which all stand before what is behind the run.
    have hspanOf := hspan _ _ _ hnode
    rw [spanOf_bare_cons] at hspanOf
    have hitem : (span node).Joins (Lexeme.spans (l :: run)) := by
      rw [hspanOf]
      exact Lexeme.joins_spanOf hrun
    have hbehind : ∀ k ∈ lexemes segs, (span node).Apart k.token.span := fun k hk =>
      .inl (hitem.precedes (.of_mem (Lexeme.token_mem_spans hk)) hcross)
    refine ⟨fun k hk => List.forall_mem_cons.mpr ⟨hbehind k (omitted_subset segs hk), hout k hk⟩,
      List.forall_mem_append.mpr ⟨fun k hk => .inr ?_, fun k hk => ?_⟩⟩
    · refine ⟨[], _, items segs, rfl, ?_, fun j hj => .inr ?_⟩
      · exact hspanOf ▸ (Lexeme.spanOf_spec hrun).2 _ (Lexeme.span_mem_spans hk)
      · exact Span.Joins.precedes (.of_mem (Lexeme.token_mem_spans hk))
          (rest.joins hspan hsegs hj) hcross
    · refine (hin k hk).imp_right fun ⟨before, i, after, hitems, hencloses, hothers⟩ => ?_
      refine ⟨_ :: before, i, after, congrArg _ hitems, hencloses, ?_⟩
      exact List.forall_mem_cons.mpr ⟨hbehind k hk, hothers⟩
  | @other n run segs hrun rest ih =>
    rw [lexemes_other_cons] at hordered ⊢
    obtain ⟨-, hsegs⟩ := hordered.append
    obtain ⟨hout, hin⟩ := ih hsegs
    have hpairwise := hordered.pairwise
    rw [Lexeme.spans_append] at hpairwise
    have hcross := (List.pairwise_append.mp hpairwise).2.2
    rw [omitted_other_cons, items_other_cons]
    refine ⟨List.forall_mem_append.mpr ⟨fun k hk j hj => .inr ?_, hout⟩,
      List.forall_mem_append.mpr ⟨fun k hk => .inl (List.mem_append_left _ hk), fun k hk => ?_⟩⟩
    · exact Span.Joins.precedes (.of_mem (Lexeme.token_mem_spans hk))
        (rest.joins hspan hsegs hj) hcross
    · exact (hin k hk).imp_left (List.mem_append_right _)

/-- A lexeme that is not left out is in the span of exactly one item. -/
theorem countP_encloses (h : Laid reads n segs) (hordered : Ordered (lexemes segs)) {l : Lexeme}
    (hl : l ∈ lexemes segs) (hread : l ∉ omitted segs) :
    (items segs).countP (fun i => (span i.node).encloses l.token.span) = 1 := by
  obtain ⟨before, i, after, hitems, hencloses, hothers⟩ :=
    ((h.placed hspan hordered).2 l hl).resolve_left hread
  obtain ⟨hbefore, hafter⟩ := List.forall_mem_append.mp hothers
  have hlt := hordered.lt _ (Lexeme.token_mem_spans hl)
  have hnone : ∀ others : List (Item α), (∀ j ∈ others, (span j.node).Apart l.token.span) →
      others.countP (fun j => (span j.node).encloses l.token.span) = 0 := fun others hapart =>
    List.countP_eq_zero.mpr fun j hj => (hapart j hj).not_encloses hlt
  rw [hitems, List.countP_append, List.countP_cons, hnone before hbefore, hnone after hafter,
    if_pos hencloses]

end Segment.Laid

end Reifier
