import Reifier.Proofs.Program.Weaving
import Reifier.Proofs.SourceUnit.Verbatim

/-!
# What rewriting changes in a statement without a structure

A statement without a structure is printed as it stands in the source, except that constants stand
in the places of the declarations inside its brackets, and what is left of the edited comments in
the places of those that are in no declaration (`Verbatim.Rewritten`). These places lie apart, so
nothing that goes into the statement is left out. Main statement: `rewritten_of_transform`.
-/

namespace Reifier

open Token (wordsOf Contiguous)

/-! ### The blank space in front of a constant -/

/-- An offset has one indentation. -/
private theorem IndentAt.unique {source : List Char} {offset : ℕ} {indent indent' : List Char}
    (h : IndentAt source offset indent) (h' : IndentAt source offset indent') :
    indent = indent' := by
  obtain ⟨front, line, htake, hfront, hline, hindent⟩ := h
  obtain ⟨front', line', htake', hfront', hline', hindent'⟩ := h'
  have hsame : front ++ line = front' ++ line' := Option.some.inj (htake.symm.trans htake')
  rw [hindent, hindent', ← lineIndent_eq hfront hline [], ← lineIndent_eq hfront' hline' [], hsame]

/-- Indentation consists of blanks. -/
private theorem IndentAt.isSpace {source : List Char} {offset : ℕ} {indent : List Char}
    (h : IndentAt source offset indent) : ∀ c ∈ indent, Token.isSpace c = true := by
  obtain ⟨front, line, -, -, -, hindent⟩ := h
  intro c hc
  rw [hindent] at hc
  split_ifs at hc with hblank
  · rcases hblank c hc with rfl | rfl <;> rfl
  · cases hc

namespace Verbatim

/-- How a statement is printed whose declarations `nested` have become constants, and in whose
source, with comments `comments`, the edits `edits` are made: `splices` go into their places, and
nothing else changes. -/
structure Rewritten (text : Verbatim) (source : String) (comments : List Comment)
    (edits : List Directive.Edit) (nested : List (Item Declaration)) (splices : List Splice)
    (printed : List Char) : Prop where
  /-- The statement holds its part of the source. -/
  kept : Text.slice? source.toList text.span = some text.text.toList
  /-- Each declaration has become a constant. -/
  consts : List.Forall₂ (fun inner decl => inner.node.ReplacedBy (.const decl)) nested text.consts
  /-- What goes in are the constants, with the indentation of the lines on which their declarations
  begin, and what is left of the edited comments that are in no declaration. -/
  mem_splices : ∀ s, s ∈ splices ↔
    (∃ decl ∈ text.consts, s.span = decl.span ∧
      ∃ indent, IndentAt source.toList decl.span.start indent ∧
        s.text.toList = reindent indent decl.render.toList) ∨
    ∃ edit ∈ edits, ∃ comment, comments[edit.comment]? = some comment ∧
      text.span.encloses comment.span = true ∧
      (∀ inner ∈ nested, inner.node.span.encloses comment.span = false) ∧
      s = edit.splice comment
  apart : splices.Pairwise fun s t => s.span.stop ≤ t.span.start
  inside : ∀ s ∈ splices, text.span.encloses s.span = true
  woven : Splice.Woven source.toList text.span.start splices text.span.stop printed
  /-- Indenting a constant changes none of its words, and so none of its strings. -/
  words : ∀ decl ∈ text.consts, ∀ indent, IndentAt source.toList decl.span.start indent →
    wordsOf (reindent indent decl.render.toList) = wordsOf decl.render.toList

/-- A statement with a declaration inside its brackets begins in front of it, with a character that
can be seen. -/
structure Opens (text : Verbatim) (nested : List (Item Declaration)) : Prop where
  visible : ∀ c ∈ text.text.toList.head?, Token.isSpace c = false
  start : ∀ inner ∈ nested, text.span.start < inner.node.span.start

end Verbatim

/-! ### Where declarations begin -/

/-- A lexeme is made of its token and the trivia in front of it. -/
private theorem Lexeme.From.exists_of_cons {ts : List Token} {l : Lexeme} {ls : List Lexeme}
    (h : From ts (l :: ls)) : ∃ trivia behind, ts = trivia ++ l.token :: behind ∧
      l.token.kind.isTrivia = false ∧ From behind ls := by
  cases h with
  | @cons trivia behind t _ _ ht rest => exact ⟨trivia, behind, rfl, ht, rest⟩

private theorem Lexeme.From.token_mem {ts : List Token} {ls : List Lexeme} (h : From ts ls) :
    ∀ l ∈ ls, l.token ∈ ts := by
  induction h with
  | nil => exact List.forall_mem_nil _
  | cons hfront ht rest ih =>
    refine List.forall_mem_cons.mpr ⟨by simp, fun l hl => ?_⟩
    exact List.mem_append_right _ (List.mem_cons_of_mem _ (ih l hl))

namespace Program

open Segment (Laid lexemes items)

variable {limit : Option ℕ} {source : String} {reading : Reading}

/-- A declaration inside brackets begins with one of the lexemes. -/
private theorem exists_lexeme_of_laid {n : ℕ} {segs : List (Segment Declaration)}
    (h : Laid (DeclarationReads source) n segs) :
    ∀ inner ∈ items segs, ∃ l ∈ lexemes segs, inner.node.span.start = l.token.span.start := by
  induction h with
  | nil => exact List.forall_mem_nil _
  | @item n l run node segs hnode rest ih =>
    intro inner hinner
    rw [Segment.lexemes_item_cons]
    rcases List.mem_cons.mp hinner with rfl | hinner
    · refine ⟨l, by simp, ?_⟩
      dsimp only
      rw [hnode.2]
      rfl
    · obtain ⟨m, hm, hstart⟩ := ih inner hinner
      exact ⟨m, List.mem_append_right _ hm, hstart⟩
  | @other n run segs hrun rest ih =>
    intro inner hinner
    obtain ⟨m, hm, hstart⟩ := ih inner hinner
    exact ⟨m, List.mem_append_right _ hm, hstart⟩

/-- No statement without a structure begins with a declaration. -/
private theorem ReadsAs.opens {segs : List (Segment Statement)} {after : Trivia}
    (h : ReadsAs limit source reading segs after) {item : Item Statement}
    (hitem : item ∈ reading.program.body) {text : Verbatim} (htext : item.node = .verbatim text) :
    text.Opens text.nested := by
  obtain ⟨us, ts, vs, n, l, run, inside, hscan, hfrom, hinside, hspan', hstext, hnested, hlaid,
    hbegin⟩ := h.exists_from hitem htext
  obtain ⟨trivia, behind, rfl, ht, hrest⟩ := hfrom.exists_of_cons
  have hlexed := Token.lexed_scan source
  have hcontiguous := Token.contiguous_scan source
  rw [hscan, List.append_assoc, List.cons_append] at hlexed hcontiguous
  rw [Contiguous.append_iff, Contiguous.append_iff] at hcontiguous
  obtain ⟨-, -, hspan, hbehind⟩ := hcontiguous
  have hbefore := hlexed.of_append.of_append.1
  constructor
  · intro c hc
    rw [hstext, Lexeme.toList_textOf_cons, List.head?_append_of_ne_nil _ hbefore.ne_nil] at hc
    refine hbefore.isSpace_of_head? (fun hblank => ?_) c hc
    have hkind : l.token.kind.isTrivia = false := ht
    rw [show l.token.kind = .blank from hblank] at hkind
    cases hkind
  · -- The first lexeme is text, since nothing in front of it lets a declaration begin.
    have hrun : ∀ m ∈ run, l.token.span.start < m.token.span.start := fun m hm => by
      have hmem : l.token ∈ Token.scan source := by
        rw [hscan]
        simp [Segment.bare]
      have hlt := Token.start_lt_stop_of_mem_scan hmem
      have hle := (hbehind.within m.token (List.mem_append_left _ (hrest.token_mem m hm))).1
      exact hlt.trans_le hle
    intro inner hinner
    rw [hnested] at hinner
    rw [hspan']
    cases hlaid with
    | nil => cases hinner
    | item hnode rest =>
      obtain rfl := (List.cons.inj hinside).1
      rcases hbegin.1 _ rfl with hline | hbegins
      · cases hline
      · cases hbegins
    | @other _ first segs hne rest =>
      obtain ⟨m, hm, hstart⟩ := exists_lexeme_of_laid rest inner hinner
      obtain ⟨head, more, rfl⟩ := List.exists_cons_of_ne_nil hne
      have hmore : more ++ Segment.lexemes segs = run := (List.cons.inj hinside).2
      rw [hstart]
      exact hrun m (hmore ▸ List.mem_append_right _ hm)

end Program

/-! ### What goes into a statement -/

namespace Verbatim.MadeOf

variable {text : Verbatim} {source : String} {comments : List Comment} {front back : List Fate}
  {ps : List Patch} (h : text.MadeOf source comments front ps back)

include h

/-- The source is what stands before the statement, the statement, and what stands behind it. -/
private theorem source_eq : source.toList = (front.map Fate.token).flatMap (·.text.toList) ++
    ps.flatMap Patch.old ++ (back.map Fate.token).flatMap (·.text.toList) := by
  rw [← Token.flatMap_text_scan source, h.scan_eq, List.flatMap_append, List.flatMap_append,
    Patch.flatMap_old, List.append_assoc]

/-- The text of a statement is the slice of the source over its span. -/
private theorem slice?_span : Text.slice? source.toList text.span = some text.text.toList := by
  have hspan : text.span = ⟨text.span.start, text.span.stop⟩ := rfl
  rw [hspan, h.stop, h.start, h.text, h.source_eq]
  exact Text.slice?_append _ _ _

/-- **A statement is woven from the source and its splices.** -/
theorem woven : Splice.Woven source.toList text.span.start (text.splices source.toList comments)
    text.span.stop (text.render source.toList comments).toList := by
  have hplaced := h.covers.placed
  have hwoven := @Patch.Placed.woven ps ((front.map Fate.token).flatMap (·.text.toList)) []
    (by simpa [← h.start] using hplaced) ((back.map Fate.token).flatMap (·.text.toList))
  rw [h.toList_render, h.splices_eq, h.stop, h.source_eq, h.start]
  simpa using hwoven

/-- The constant of a declaration has the indentation of its line. -/
private theorem indentAt {nested : List (Item Declaration)} (hopens : text.Opens nested)
    (hspans : List.Forall₂ (fun (item : Item Declaration) s => s.span = item.node.span) nested
      (text.nested.filterMap text.constSplice?)) {decl : Const} (hdecl : decl ∈ text.consts) :
    IndentAt source.toList decl.span.start
      (lineIndent text.text.toList (decl.span.start - text.span.start)) := by
  have hsplice : text.constSplice decl ∈ text.nested.filterMap text.constSplice? := by
    rw [filterMap_constSplice?]
    exact List.mem_map_of_mem hdecl
  obtain ⟨inner, hinner, hspan⟩ := exists_of_forall₂_of_mem hspans hsplice
  have hstart : text.span.start < decl.span.start := by
    have hlt := hopens.start inner hinner
    rwa [← hspan] at hlt
  rw [← h.covers.constants] at hsplice
  obtain ⟨p, hp, hconst⟩ := List.mem_filterMap.mp hsplice
  obtain ⟨qs, rs, rfl⟩ := List.append_of_mem hp
  -- What stands in the statement in front of the declaration is not empty.
  have hplace := (Patch.Placed.append_iff.mp h.covers.placed).2.1 _
    (Patch.splice?_of_constant? hconst)
  have hoffset : decl.span.start = text.span.start + Text.byteLength (qs.flatMap Patch.old) :=
    congrArg Span.start hplace
  have hne : qs.flatMap Patch.old ≠ [] := by
    intro hnil
    rw [hoffset, hnil, Text.byteLength_nil, Nat.add_zero] at hstart
    exact absurd hstart (Nat.lt_irrefl _)
  have htext := h.text
  rw [List.flatMap_append] at htext
  have hvisible : ∀ c ∈ (qs.flatMap Patch.old).head?, ¬ (c = ' ' ∨ c = '\t') := by
    intro c hc hblank
    have hfirst := hopens.visible c (by rw [htext, List.head?_append_of_ne_nil _ hne]; exact hc)
    rcases hblank with rfl | rfl <;> cases hfirst
  have hindent := indentAt_lineIndent ((front.map Fate.token).flatMap (·.text.toList)) hne hvisible
    ((p :: rs).flatMap Patch.old) ((back.map Fate.token).flatMap (·.text.toList))
  rw [h.source_eq, htext, hoffset, List.flatMap_append, Nat.add_sub_cancel_left, h.start]
  rwa [Text.byteLength_append] at hindent

end Verbatim.MadeOf

/-- Taking out the directive does not move a comment. -/
private theorem Directive.span_strip (directive : String) (comment : Comment) :
    (strip directive comment).span = comment.span := by
  unfold strip
  split <;> rfl

/-- What goes into the places of declarations encloses what these do. -/
private theorem Verbatim.any_encloses_eq_false_iff {nested : List (Item Declaration)}
    {ss : List Splice}
    (h : List.Forall₂ (fun (item : Item Declaration) s => s.span = item.node.span) nested ss)
    (span : Span) : (!ss.any fun s => s.span.encloses span) = true ↔
      ∀ inner ∈ nested, inner.node.span.encloses span = false := by
  rw [Bool.not_eq_true', List.any_eq_false]
  induction h with
  | nil => simp
  | cons hspan _ ih =>
    rw [List.forall_mem_cons, List.forall_mem_cons, ih, hspan, Bool.not_eq_true]

/-- What goes into a statement are its constants and what is left of the edited comments that are in
no declaration. -/
private theorem Verbatim.mem_splices_iff {source directive : String} {comments : List Comment}
    (hcomments : ∀ comment ∈ comments, ∃ t ∈ Token.scan source, Comment.ofToken? t = some comment)
    (text : Verbatim) {nested : List (Item Declaration)}
    (hspans : List.Forall₂ (fun (item : Item Declaration) s => s.span = item.node.span) nested
      (text.nested.filterMap text.constSplice?)) {s : Splice} :
    s ∈ text.splices source.toList (comments.map (Directive.strip directive)) ↔
      (∃ decl ∈ text.consts, s = text.constSplice decl) ∨
      ∃ edit ∈ Directive.scan directive comments, ∃ comment,
        comments[edit.comment]? = some comment ∧ text.span.encloses comment.span = true ∧
        (∀ inner ∈ nested, inner.node.span.encloses comment.span = false) ∧
        s = edit.splice comment := by
  have hnone := Verbatim.any_encloses_eq_false_iff hspans
  unfold splices
  dsimp only
  rw [(Splice.sort_perm _).mem_iff, List.mem_append]
  refine or_congr ?_ ?_
  · rw [filterMap_constSplice?, List.mem_map]
    exact exists_congr fun decl => and_congr_right fun _ => eq_comm
  · -- A comment has a splice if it is edited, and this splice counts if no declaration inside has
    -- it.
    simp only [List.mem_filterMap, List.mem_filter, List.mem_map, Bool.and_eq_true]
    constructor
    · rintro ⟨_, ⟨⟨comment, hmem, rfl⟩, hinside⟩, hsplice⟩
      obtain ⟨t, ht, hread⟩ := hcomments comment hmem
      rw [commentSplice?_strip ht hread] at hsplice
      obtain ⟨e, hedit, rfl⟩ := Option.map_eq_some_iff.mp hsplice
      obtain ⟨i, hi⟩ := List.mem_iff_getElem?.mp hmem
      rw [Directive.span_strip, hnone] at hinside
      refine ⟨{ e with comment := i }, Directive.mem_scan_iff.mpr ⟨comment, hi, ?_⟩, comment, hi,
        hinside.1, hinside.2, rfl⟩
      rw [Directive.edit?_eq, hedit]
      rfl
    · rintro ⟨edit, hedit, comment, hcomment, hencloses, houtside, rfl⟩
      obtain ⟨other, hother, hmade⟩ := Directive.mem_scan_iff.mp hedit
      obtain rfl : comment = other := Option.some.inj (hcomment.symm.trans hother)
      have hmem := List.mem_of_getElem? hcomment
      obtain ⟨t, ht, hread⟩ := hcomments comment hmem
      refine ⟨_, ⟨⟨comment, hmem, rfl⟩, ?_⟩, ?_⟩
      · rw [Directive.span_strip, hnone]
        exact ⟨hencloses, houtside⟩
      · rw [Directive.edit?_eq] at hmade
        obtain ⟨e, he, hsame⟩ := Option.map_eq_some_iff.mp hmade
        rw [commentSplice?_strip ht hread, he]
        change some (({ e with comment := edit.comment } : Directive.Edit).splice comment) = _
        rw [hsame]

/-- The constants of a statement are what its declarations have become. -/
private theorem forall₂_consts {nested others : List (Item Declaration)}
    (h : List.Forall₂ Item.DeclarationReplacedBy nested others) :
    List.Forall₂ (fun inner decl => inner.node.ReplacedBy (.const decl)) nested
      (others.filterMap (·.node.const?)) := by
  induction h with
  | nil => exact .nil
  | @cons inner other nested others hinner _ ih =>
    obtain ⟨comments, node⟩ := inner
    obtain ⟨ids, node'⟩ := other
    obtain ⟨-, hnode⟩ := hinner
    have hnode : node.ReplacedBy node' := hnode
    cases hnode with
    | typeAlias decl init => exact .cons (.typeAlias decl init) ih
    | interface decl init => exact .cons (.interface decl init) ih
    | const decl => exact .cons (.const decl) ih

/-! ### Units -/

namespace SourceUnit

variable {limit : Option ℕ} {settings : Settings} {source : String} {unit done : SourceUnit}

/-- **Printing a statement without a structure changes only what has been rewritten.** -/
theorem rewritten_of_transform (hunit : parse limit source = .ok unit)
    (hdone : unit.transform settings = .ok done) (hreified : done.reified = true)
    {item : Item Statement} (hitem : item ∈ done.program.body) {text : Verbatim}
    (htext : item.node = .verbatim text) :
    ∃ before ∈ unit.program.body, ∃ nested,
      before.node = .verbatim ⟨text.text, text.span, nested⟩ ∧
      text.Rewritten source unit.program.comments
        (Directive.scan settings.directive unit.program.comments) nested
        (text.splices source.toList done.program.comments)
        (text.render source.toList done.program.comments).toList := by
  obtain ⟨reading, hreading, hprogram⟩ := parse_program hunit
  have htakes := takesPart_of_reified hdone hreified
  obtain ⟨-, program, hrun, rfl⟩ := transform_of_takesPart htakes hdone
  rw [takesPart_iff] at htakes
  rw [hprogram] at hrun htakes ⊢
  dsimp only at hitem ⊢
  -- What the statement was read from, and the statement that it was.
  obtain ⟨front, ps, back, hmade⟩ := Session.exists_madeOf hreading hrun htakes hitem htext
  obtain ⟨before, hbefore, nested, hnode, hnested⟩ :=
    Session.exists_of_verbatim_mem hrun htakes hitem htext
  obtain ⟨segs, after, hreads, -⟩ := Program.exists_readsAs_of_parse hreading
  have hplain :=
    Session.plainInside_of_run hrun htakes (hreads.ofSource hreading).statements item hitem
  rw [htext] at hplain
  have hspans := Session.forall₂_span text hnested
  have hopens : text.Opens nested :=
    ⟨(hreads.opens hbefore hnode).visible, (hreads.opens hbefore hnode).start⟩
  -- The line of a constant begins in the statement, or in front of it where nothing but blanks is.
  have hindent : ∀ decl ∈ text.consts, IndentAt source.toList decl.span.start
      (lineIndent text.text.toList (decl.span.start - text.span.start)) := fun decl hdecl =>
    hmade.indentAt hopens hspans hdecl
  have hplaced := hmade.covers.placed
  refine ⟨before, hbefore, nested, hnode, hmade.slice?_span, forall₂_consts hnested, fun s => ?_,
    ?_, ?_, hmade.woven, fun decl hdecl indent hi => ?_⟩
  · -- The splices are those of the constants and those of the comments that have been stripped.
    have hcomments : ∀ comment ∈ reading.program.comments,
        ∃ t ∈ Token.scan source, Comment.ofToken? t = some comment := fun comment hcomment => by
      rw [Program.comments_of_parse hreading] at hcomment
      exact List.mem_filterMap.mp hcomment
    have hstripped : program.comments =
        reading.program.comments.map (Directive.strip settings.directive) := by
      rw [Session.comments_of_run hrun htakes, ← Directive.applyAll_scan]
      rfl
    rw [hstripped, Verbatim.mem_splices_iff hcomments text hspans]
    refine or_congr_left (exists_congr fun decl => and_congr_right fun hdecl => ?_)
    constructor
    · rintro rfl
      exact ⟨rfl, _, hindent decl hdecl, String.toList_ofList⟩
    · rintro ⟨hspan, indent, hi, hchars⟩
      obtain rfl := hi.unique (hindent decl hdecl)
      obtain ⟨span, chars⟩ := s
      dsimp only at hspan hchars
      rw [hspan, Verbatim.constSplice, ← hchars, String.ofList_toList]
  · rw [hmade.splices_eq]
    exact hplaced.pairwise_apart
  · intro s hs
    rw [hmade.splices_eq] at hs
    obtain ⟨hstart, hstop⟩ := hplaced.within s hs
    rw [← hmade.stop] at hstop
    exact Span.encloses_iff.mpr ⟨hstart, hstop⟩
  · have hdeclPlain := text.plain_of_mem_consts hplain decl hdecl
    exact (Const.reindent_render hdeclPlain.id hdeclPlain.init hi.isSpace).2.2

/-- A function with marked comments in its body and a declaration on several lines. -/
def markedBody : String :=
  "// @tcomb\nfunction f() \x7b\n  /* @tcomb note */ g();\n" ++
    "  type A = \x7b 'x y': /* @tcomb */ B, c: string \x7d; // @tcomb\n\x7d"

/-- Three things go into this function: the rest of the first comment, the constant, indented by two
blanks, and nothing in place of the last comment. -/
theorem rewritten_of_transform_body :
    ∃ unit done item text, parse (some 2) markedBody = .ok unit ∧
      unit.transform .default = .ok done ∧ done.reified = true ∧ item ∈ done.program.body ∧
      item.node = .verbatim text ∧
      (text.splices markedBody.toList done.program.comments).map Splice.text =
        ["/*  note */",
          "const A = _t.interface(\x7b\n    'x y': B,\n    c: _t.String\n  \x7d, 'A');", ""] ∧
      ∃ before ∈ unit.program.body, ∃ nested,
        before.node = .verbatim ⟨text.text, text.span, nested⟩ ∧
        text.Rewritten markedBody unit.program.comments
          (Directive.scan Settings.default.directive unit.program.comments) nested
          (text.splices markedBody.toList done.program.comments)
          (text.render markedBody.toList done.program.comments).toList := by
  have hrewrites : rewrites (some 2) .default markedBody (fun comments text =>
      (text.splices markedBody.toList comments).map Splice.text =
        ["/*  note */",
          "const A = _t.interface(\x7b\n    'x y': B,\n    c: _t.String\n  \x7d, 'A');", ""]) =
      true := by
    decide +kernel
  obtain ⟨unit, done, item, text, hunit, hdone, hreified, hitem, htext, htest⟩ :=
    exists_of_rewrites hrewrites
  exact ⟨unit, done, item, text, hunit, hdone, hreified, hitem, htext, of_decide_eq_true htest,
    rewritten_of_transform hunit hdone hreified hitem htext⟩

end SourceUnit

end Reifier
