import Reifier.Proofs.Program.Layout

/-!
# Where statements and comments stand

A program keeps all comments of its source, and they lead its statements and the declarations inside
their brackets in the order of the source (`comments_inOrder_of_parse`). Every token that is not
trivia is in exactly one statement, unless it was left out with a statement that could not be read
(`spans_of_parse`).

Both are read off the course of reading the source (`SourceCourse`), in which the statements are
laid out segment by segment (`ReadsAs`).
-/

namespace Reifier

namespace Program

open Reifier.TypeExpr
open Reifier.Parser (Agrees)
open Segment (Laid lexemes items omitted)
open Cursor (Sourced)

variable {limit : Option ℕ} {source : String} {reading : Reading}

/-! ### The course of a source -/

/-- The course of reading the statements of a source. -/
def SourceCourse (limit : Option ℕ) (source : String) (segs : List (Segment Statement))
    (last : Cursor) : Prop :=
  Course (nested limit ((Lexeme.ofTokens (Token.scan source)).1.length + 1)).whole
    (startCursor (Text.byteLength source.toList) (Lexeme.ofTokens (Token.scan source)).1) segs last

theorem Course.rest_eq_nil {type : Parser TypeExpr} {c d : Cursor} {segs : List (Segment Statement)}
    (h : Course type c segs d) : d.rest = [] := by
  induction h with
  | stop hend => exact hend
  | read _ _ _ ih => exact ih
  | skip _ _ _ _ _ ih => exact ih

/-- Reading starts in the source. -/
theorem sourced_startCursor (source : String) :
    (startCursor (Text.byteLength source.toList)
      (Lexeme.ofTokens (Token.scan source)).1).Sourced source := by
  refine ⟨fun l hl => ?_, Text.isBoundary_byteLength _, Text.isBoundary_zero _,
    List.forall_mem_nil _⟩
  have htoken := List.mem_map_of_mem (f := Lexeme.token) hl
  rw [startCursor, Lexeme.ofTokens, Lexeme.tokens_ofTokensAfter] at htoken
  exact List.mem_of_mem_filter htoken

/-- What is read of a source: its statements, laid out in its lexemes. -/
structure ReadsAs (limit : Option ℕ) (source : String) (reading : Reading)
    (segs : List (Segment Statement)) (after : Trivia) : Prop where
  course : ∃ last, SourceCourse limit source segs last ∧ last.Sourced source ∧
    last.diagnostics = reading.diagnostics
  lexemes : Lexeme.ofTokens (Token.scan source) = (lexemes segs, after)
  laid : Laid (StatementReads source) 0 segs
  comments : reading.program.comments = Lexeme.comments (Segment.lexemes segs) ++ after.comments
  body : reading.program.body = items segs
  trailing : reading.program.trailing =
    List.range' (Lexeme.comments (Segment.lexemes segs)).length after.comments.length

/-- **A source is read as a course of segments,** unless the nesting is too deep. Without reports
nothing of it is left out. -/
theorem exists_readsAs (h : parse limit source ≠ .error .tooDeep) :
    ∃ reading segs after, parse limit source = .ok reading ∧
      ReadsAs limit source reading segs after ∧
      (reading.diagnostics = [] → omitted segs = []) := by
  obtain ⟨-, htooDeep⟩ | ⟨reading, hreading, -⟩ := parse_cases (.refl limit) source
  · exact absurd htooDeep h
  obtain ⟨ls, after, body, last, hlexemes, hread, -⟩ := exists_program_of_parse hreading
  have hparse := parse_of_done hlexemes hread
  rw [hreading] at hparse
  cases hparse
  have hstart := sourced_startCursor source
  rw [hlexemes] at hstart
  have htype := (forward_nested source limit (ls.length + 1)).1
  obtain ⟨hlast, segs, hcourse, rfl⟩ := exists_course htype hstart hread
  have hend := hcourse.rest_eq_nil
  obtain ⟨hover, hlaid⟩ := hcourse.laid htype hstart
  -- The course goes to the end, and so the segments have all lexemes.
  have hls : ls = lexemes segs := by
    have hrest := hover.rest
    rwa [hend, List.append_nil] at hrest
  have hcomments : last.comments = Lexeme.comments (lexemes segs) := hover.comments
  subst hls
  refine ⟨_, segs, after, hreading, ⟨⟨last, ?_, hlast, rfl⟩, hlexemes, hlaid, ?_, rfl, ?_⟩,
    fun hnil => ?_⟩
  · unfold SourceCourse
    rwa [hlexemes]
  · exact congrArg (· ++ after.comments) hcomments
  · exact congrArg (fun comments : List Comment =>
      List.range' comments.length after.comments.length) hcomments
  · -- Leaving something out would have been reported.
    by_contra hne
    have hagrees : ∀ m < (lexemes segs).length, Agrees True 0 m
        (nested limit ((lexemes segs).length + 1)).whole
        (nested limit ((lexemes segs).length + 1)).whole := fun m hm =>
      (agrees_nested (fun _ => trivial) (fun _ => id) (hm.trans (Nat.lt_succ_self _))
        (hm.trans (Nat.lt_succ_self _))).1
    exact hcourse.diagnostics_ne_nil htype hstart hagrees (fun hreport => absurd rfl hreport) hne
      hnil

/-- What a source is parsed to is read as a course of segments. -/
theorem exists_readsAs_of_parse (h : parse limit source = .ok reading) :
    ∃ segs after, ReadsAs limit source reading segs after ∧
      (reading.diagnostics = [] → omitted segs = []) := by
  have hdeep : parse limit source ≠ .error .tooDeep := by
    rw [h]
    exact nofun
  obtain ⟨_, segs, after, hreading, hreads⟩ := exists_readsAs hdeep
  obtain rfl := Except.ok.inj (h.symm.trans hreading)
  exact ⟨segs, after, hreads⟩

/-- What is inside the brackets of a statement without a structure is laid out in lexemes that the
statement encloses. -/
theorem ReadsAs.nested {segs : List (Segment Statement)} {after : Trivia}
    (h : ReadsAs limit source reading segs after) {item : Item Statement}
    (hitem : item ∈ reading.program.body) {text : Verbatim} (htext : item.node = .verbatim text) :
    ∃ front inside back,
      reading.program.comments = front ++ Lexeme.comments (Segment.lexemes inside) ++ back ∧
      Lexeme.Ordered (Segment.lexemes inside) ∧ text.nested = items inside ∧
      Laid (DeclarationReads source) front.length inside ∧
      ∀ s ∈ Lexeme.spans (Segment.lexemes inside), text.span.encloses s = true := by
  rw [h.body] at hitem
  obtain ⟨front, l, run, back, hlexemes, hstmt⟩ := h.laid.exists_run hitem
  rw [htext] at hstmt
  obtain ⟨hspanOf, -, inside, hinside, hnested, hlaid, -⟩ := hstmt
  have hordered := (Lexeme.ordered_ofTokens h.lexemes).2
  rw [hlexemes] at hordered
  have hrun := hordered.append.1.append.2
  rw [Nat.zero_add] at hlaid
  refine ⟨Lexeme.comments front ++ l.before.comments, inside, Lexeme.comments back ++ after.comments,
    ?_, ?_, hnested, hlaid, ?_⟩
  · rw [h.comments, hlexemes, hinside]
    simp [Segment.bare, Trivia.none]
  · rw [hinside]
    exact hrun.bare
  · rw [hinside]
    have hspan : text.span = Lexeme.spanOf (Segment.bare l :: run) := hspanOf
    rw [hspan]
    exact Lexeme.encloses_spanOf_bare hrun

/-- The tokens of the segments are those that are not trivia. -/
theorem ReadsAs.tokens {segs : List (Segment Statement)} {after : Trivia}
    (h : ReadsAs limit source reading segs after) :
    (Segment.lexemes segs).map Lexeme.token =
      (Token.scan source).filter fun t => !t.kind.isTrivia := by
  have hall := Lexeme.tokens_ofTokensAfter Trivia.none (Token.scan source)
  rwa [← Lexeme.ofTokens, h.lexemes] at hall

/-! ### Comments -/

/-- **The comments of a program are the comment tokens of its source, and they lead statements and
declarations in the order of the source**, whatever could not be read. -/
theorem comments_inOrder_of_parse (h : parse limit source ≠ .error .tooDeep) :
    ∃ reading, parse limit source = .ok reading ∧
      reading.program.comments.map Comment.token =
        (Token.scan source).filter (·.kind.isComment) ∧
      (∀ comment ∈ reading.program.comments, comment.ignored = false) ∧
      reading.program.InOrder Statement.span reading.program.body reading.program.trailing ∧
      ∀ item ∈ reading.program.body, ∀ text, item.node = .verbatim text →
        reading.program.InOrder Declaration.span text.nested [] ∧
          ∀ s ∈ reading.program.marks Declaration.span text.nested, text.span.encloses s = true := by
  obtain ⟨reading, segs, after, hreading, hreads, -⟩ := exists_readsAs h
  obtain ⟨hpairwise, hordered⟩ := Lexeme.ordered_ofTokens hreads.lexemes
  have hcomments := comments_of_parse hreading
  refine ⟨reading, hreading, ?_, ?_, ?_, ?_⟩
  · rw [hcomments]
    exact Comment.map_token_filterMap fun t ht => ht
  · rw [hcomments]
    intro comment hcomment
    obtain ⟨t, ht, hofToken⟩ := List.mem_filterMap.mp hcomment
    exact (Comment.token_of_ofToken? ht hofToken).2
  · have hall : reading.program.comments =
        [] ++ Lexeme.comments (lexemes segs) ++ after.comments ++ [] := by
      rw [hreads.comments, List.nil_append, List.append_nil]
    have hbody := Laid.inOrder (fun _ _ _ hstmt => hstmt.span) hreads.laid hall hordered hpairwise
    rw [hreads.body, hreads.trailing]
    rwa [List.length_nil, Nat.zero_add] at hbody
  · intro item hitem text htext
    obtain ⟨front, inside, back, hall, hinside, hnested, hlaid, hencloses⟩ :=
      hreads.nested hitem htext
    rw [hnested]
    have hnone : reading.program.comments =
        front ++ Lexeme.comments (lexemes inside) ++ ([] : List Comment) ++ back := by simpa using hall
    refine ⟨hlaid.inOrder (fun _ _ _ hdecl => hdecl.2) hnone hinside ?_, fun s hs => ?_⟩
    · rw [List.map_nil, List.append_nil]
      exact hinside.pairwise
    · exact ((hlaid.marks (fun _ _ _ hdecl => hdecl.2) rfl hall hinside).joins s hs).enclosed
        hencloses

private theorem ne_tooDeep_of_isSome (h : (parse limit source).toOption.isSome = true) :
    parse limit source ≠ .error .tooDeep := by
  rintro heq
  rw [heq] at h
  cases h

/-- The first declaration inside the brackets cannot be read, so its comment stays with the text of
the statement; that above the second one leads it. -/
theorem comments_inOrder_of_parse_unread :
    parse (some 2) "f(\x7b /*a*/ type A = ;\n//b\ntype B = C \x7d);\n/*c*/" ≠ .error .tooDeep ∧
      ∃ reading,
        parse (some 2) "f(\x7b /*a*/ type A = ;\n//b\ntype B = C \x7d);\n/*c*/" = .ok reading ∧
        reading.program.comments.map Comment.token =
          [⟨.blockComment, "/*a*/", ⟨4, 9⟩⟩, ⟨.lineComment, "//b", ⟨21, 24⟩⟩,
            ⟨.blockComment, "/*c*/", ⟨40, 45⟩⟩] ∧
        reading.program.InOrder Statement.span reading.program.body reading.program.trailing := by
  have hread : parse (some 2) "f(\x7b /*a*/ type A = ;\n//b\ntype B = C \x7d);\n/*c*/" ≠
      .error .tooDeep := ne_tooDeep_of_isSome (by decide +kernel)
  obtain ⟨reading, hreading, htokens, -, horder, -⟩ := comments_inOrder_of_parse hread
  exact ⟨hread, reading, hreading, htokens.trans (by decide +kernel), horder⟩

/-! ### Statements and tokens -/

/-- **Every token that is not trivia is in the span of exactly one statement**, except those of the
statements that could not be read, which are reported and stand apart from all others. The spans go
from token to token, one before the other, and so do those of the declarations inside brackets. -/
theorem spans_of_parse (h : parse limit source ≠ .error .tooDeep) :
    ∃ reading segs last, parse limit source = .ok reading ∧
      SourceCourse limit source segs last ∧ reading.program.body = items segs ∧
      (lexemes segs).map Lexeme.token =
        (Token.scan source).filter (fun t => !t.kind.isTrivia) ∧
      (reading.diagnostics = [] → omitted segs = []) ∧
      (reading.program.body.map fun item => item.node.span).Pairwise Span.Precedes ∧
      (∀ item ∈ reading.program.body, ∃ l ∈ lexemes segs, ∃ m ∈ lexemes segs,
        item.node.span = ⟨l.token.span.start, m.token.span.stop⟩ ∧
          l.token.span.start < m.token.span.stop) ∧
      (∀ l ∈ lexemes segs, l ∉ omitted segs →
        reading.program.body.countP (fun item => item.node.span.encloses l.token.span) = 1) ∧
      (∀ l ∈ omitted segs, ∀ item ∈ reading.program.body,
        item.node.span.Apart l.token.span) ∧
      ∀ item ∈ reading.program.body, ∀ text, item.node = .verbatim text →
        (text.nested.map fun inner => inner.node.span).Pairwise Span.Precedes ∧
          ∀ inner ∈ text.nested, text.span.encloses inner.node.span = true := by
  obtain ⟨reading, segs, after, hreading, hreads, homitted⟩ := exists_readsAs h
  obtain ⟨-, hordered⟩ := Lexeme.ordered_ofTokens hreads.lexemes
  obtain ⟨last, hcourse, -, -⟩ := hreads.course
  have hspan : ∀ n run stmt, StatementReads source n run stmt → stmt.span = Lexeme.spanOf run :=
    fun _ _ _ hstmt => hstmt.span
  refine ⟨reading, segs, last, hreading, hcourse, hreads.body, hreads.tokens, homitted,
    ?_, ?_, ?_, ?_, ?_⟩
  · -- The spans of the statements are among the marks of the body, between those of comments.
    have hall : reading.program.comments =
        [] ++ Lexeme.comments (lexemes segs) ++ after.comments := hreads.comments
    rw [hreads.body]
    exact (hreads.laid.marks hspan rfl hall hordered).pairwise.sublist
      (map_span_sublist_marks _ _ _)
  · rw [hreads.body]
    exact fun item hitem => hreads.laid.exists_tokens hspan hordered hitem
  · rw [hreads.body]
    exact fun l hl hread => hreads.laid.countP_encloses hspan hordered hl hread
  · rw [hreads.body]
    exact (hreads.laid.placed hspan hordered).1
  · intro item hitem text htext
    obtain ⟨front, inside, back, hall, hinside, hnested, hlaid, hencloses⟩ :=
      hreads.nested hitem htext
    have hmarks := hlaid.marks (fun _ _ _ hdecl => hdecl.2) rfl hall hinside
    rw [hnested]
    refine ⟨hmarks.pairwise.sublist (map_span_sublist_marks _ _ _), fun inner hinner => ?_⟩
    exact (hlaid.joins (fun _ _ _ hdecl => hdecl.2) hinside hinner).enclosed hencloses

/-- The second of three statements cannot be read. -/
theorem spans_of_parse_unread :
    parse (some 2) "type A = B; type C = ; f()" ≠ .error .tooDeep ∧
      ∃ reading, parse (some 2) "type A = B; type C = ; f()" = .ok reading ∧
        (reading.program.body.map fun item => item.node.span).Pairwise Span.Precedes := by
  have hread : parse (some 2) "type A = B; type C = ; f()" ≠ .error .tooDeep :=
    ne_tooDeep_of_isSome (by decide +kernel)
  obtain ⟨reading, -, -, hreading, -, -, -, -, hpairwise, -⟩ := spans_of_parse hread
  exact ⟨hread, reading, hreading, hpairwise⟩

end Program

end Reifier
