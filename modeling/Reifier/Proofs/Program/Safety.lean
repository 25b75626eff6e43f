import Reifier.Proofs.Program.Places
import Reifier.Proofs.Text.Slices
import Reifier.Proofs.Token.Lexemes

/-!
# Reading is safe

Reading a source comes to an end for each source and each limit, and unless types are nested too
deeply it has read every token (`parse_safe`). It never asks for a token behind the last one. Every
place that is recorded, on the way or in the result, has its ends in order and is bounded by
characters of the source, and every text is cut out of the source at such a place.
-/

namespace Reifier

/-! ### Texts that are cut out of a source -/

/-- The place, in the text of a comment token, of the text between the marks. -/
def Comment.bodySpan (comment : Comment) : Span :=
  match comment.kind with
  | .line => ⟨2, Text.byteLength comment.render.toList⟩
  | .block => ⟨2, Text.byteLength comment.render.toList - 2⟩

/-- The body of a comment is the slice between its signs. The cases are the two kinds of
comments. -/
private theorem Comment.slice?_bodySpan (comment : Comment) :
    Text.slice? comment.render.toList comment.bodySpan = some comment.text.toList := by
  obtain ⟨kind, text, span, ignored⟩ := comment
  cases kind with
  | line =>
    have hcut := Text.slice?_append ['/', '/'] text.toList []
    have hrender : (render ⟨.line, text, span, ignored⟩).toList =
        ['/', '/'] ++ text.toList ++ [] := by
      rw [render, String.toList_append, List.append_nil]
      rfl
    have hspan : bodySpan ⟨.line, text, span, ignored⟩ =
        ⟨Text.byteLength ['/', '/'],
          Text.byteLength ['/', '/'] + Text.byteLength text.toList⟩ := by
      rw [bodySpan, hrender, List.append_nil, Text.byteLength_append]
      rfl
    rw [hrender, hspan, hcut]
  | block =>
    have hcut := Text.slice?_append ['/', '*'] text.toList ['*', '/']
    have hrender : (render ⟨.block, text, span, ignored⟩).toList =
        ['/', '*'] ++ text.toList ++ ['*', '/'] := by
      rw [render, String.toList_append, String.toList_append]
      rfl
    have hspan : bodySpan ⟨.block, text, span, ignored⟩ =
        ⟨Text.byteLength ['/', '*'],
          Text.byteLength ['/', '*'] + Text.byteLength text.toList⟩ := by
      rw [bodySpan, hrender, Text.byteLength_append, Text.byteLength_append]
      rfl
    rw [hrender, hspan, hcut]

/-- A token is not empty, and its text, that between the marks of a comment, and the characters that
the escapes of a string stand for are all cut out between characters. -/
structure Token.Cuts (source : String) (t : Token) : Prop where
  lt : t.span.start < t.span.stop
  text : Text.slice? source.toList t.span = some t.text.toList
  comment : ∀ comment, Comment.ofToken? t = some comment →
    Text.slice? t.text.toList comment.bodySpan = some comment.text.toList
  escapes : Text.unquoteBytes? t.text = some (Text.unquote t.text)

/-- Every token of a source can be cut as it is cut: its text, the body of a comment, and the
escapes of a string. -/
private theorem Token.cuts_of_mem_scan {source : String} {t : Token} (ht : t ∈ scan source) :
    t.Cuts source where
  lt := start_lt_stop_of_mem_scan ht
  text := slice?_of_mem_scan ht
  comment comment hcomment := by
    obtain ⟨htoken, -⟩ := Comment.token_of_ofToken? ht hcomment
    rw [← htoken]
    exact comment.slice?_bodySpan
  escapes := Text.unquoteBytes?_eq t.text

/-! ### Places that are recorded -/

/-- The places that can be recorded at a cursor lie in the source. -/
structure Cursor.SpansLie (source : String) (c : Cursor) : Prop where
  nextStart : Text.IsBoundary source.toList c.nextStart
  nextSpan : c.nextSpan.Lies source.toList
  spanFrom : ∀ start, Text.IsBoundary source.toList start → (c.spanFrom start).Lies source.toList

private theorem Cursor.Sourced.spansLie {source : String} {c : Cursor} (h : c.Sourced source) :
    c.SpansLie source :=
  ⟨h.nextStart, h.nextSpan, fun _ => h.spanFrom⟩

/-- What a statement holds is taken from a source. -/
def Statement.OfSource (source : String) : Statement → Prop
  | .declaration decl => decl.OfSource source
  | .imports decl => decl.OfSource source
  | .exports decl => decl.declaration.OfSource source ∧ decl.span.Lies source.toList
  | .verbatim text =>
    Text.slice? source.toList text.span = some text.text.toList ∧
      ∀ inner ∈ text.nested, inner.node.OfSource source

namespace Program

open Reifier.TypeExpr
open Segment (Laid lexemes items omitted)

variable {limit : Option ℕ} {source : String} {reading : Reading}

/-- What is read of a source is taken from it, and so is what is wrong with it. -/
structure Reading.OfSource (source : String) (reading : Reading) : Prop where
  statements : ∀ item ∈ reading.program.body, item.node.OfSource source
  comments : ∀ comment ∈ reading.program.comments,
    Text.slice? source.toList comment.span = some comment.render.toList
  diagnostics : ∀ d ∈ reading.diagnostics, d.span.Lies source.toList

/-- A statement is taken from the source, in which the text of its run stands. -/
private theorem statement_ofSource {front run back : List Lexeme} {l : Lexeme} {after : Trivia}
    {n : ℕ} {stmt : Statement}
    (hlexemes : Lexeme.ofTokens (Token.scan source) = (front ++ (l :: run) ++ back, after))
    (h : StatementReads source n (Segment.bare l :: run) stmt) : stmt.OfSource source := by
  have hslice := Lexeme.slice?_spanOf hlexemes
  rw [← Segment.spanOf_bare_cons, ← h.span] at hslice
  have holds := h.holds
  cases stmt with
  | declaration decl => exact holds
  | imports decl => exact holds
  | exports decl => exact ⟨holds, Span.lies_iff.mpr ⟨_, hslice⟩⟩
  | verbatim text =>
    obtain ⟨htext, inside, -, hnested, hlaid, -⟩ := holds
    refine ⟨?_, fun inner hinner => ?_⟩
    · rw [htext]
      exact hslice
    · rw [hnested] at hinner
      obtain ⟨_, _, _, _, -, hdecl⟩ := hlaid.exists_run hinner
      exact hdecl.1

/-- What is read of a source is of this source: its statements, its comments and its reports. -/
theorem ReadsAs.ofSource {segs : List (Segment Statement)} {after : Trivia}
    (h : ReadsAs limit source reading segs after) (hreading : parse limit source = .ok reading) :
    reading.OfSource source := by
  obtain ⟨last, -, hlast, hdiagnostics⟩ := h.course
  refine ⟨fun item hitem => ?_, fun comment hcomment => ?_, hdiagnostics ▸ hlast.diagnostics⟩
  · rw [h.body] at hitem
    obtain ⟨front, l, run, back, hlexemes, hstmt⟩ := h.laid.exists_run hitem
    have hall := h.lexemes
    rw [hlexemes] at hall
    exact statement_ofSource hall hstmt
  · rw [comments_of_parse hreading] at hcomment
    obtain ⟨t, ht, hofToken⟩ := List.mem_filterMap.mp hcomment
    obtain ⟨htoken, -⟩ := Comment.token_of_ofToken? ht hofToken
    have hslice := Token.slice?_of_mem_scan ht
    rwa [← htoken] at hslice

/-- **Reading is safe.** It ends because of nesting or behind the last token, but never because a
token behind the last one is asked for, or because a loop has run out of rounds; what is read is
taken from the source, as are the places at every cursor that reading can move to. -/
theorem parse_safe (limit : Option ℕ) (source : String) :
    (limit ≠ none ∧ parse limit source = .error .tooDeep ∨
      ∃ reading segs last, parse limit source = .ok reading ∧
        SourceCourse limit source segs last ∧ last.rest = [] ∧
        (lexemes segs).map Lexeme.token =
          (Token.scan source).filter (fun t => !t.kind.isTrivia) ∧
        reading.OfSource source) ∧
      (∀ t ∈ Token.scan source, t.Cuts source) ∧
      ∀ c, (startCursor (Text.byteLength source.toList)
        (Lexeme.ofTokens (Token.scan source)).1).Reaches c → c.SpansLie source := by
  have hstart := sourced_startCursor source
  refine ⟨?_, fun t => Token.cuts_of_mem_scan,
    fun c hc => (Cursor.Lasting.reaches hstart hc).spansLie⟩
  refine (parse_cases (.refl limit) source).imp id fun ⟨_, hok, _⟩ => ?_
  have hread : parse limit source ≠ .error .tooDeep := fun hdeep => by
    rw [hok] at hdeep
    cases hdeep
  obtain ⟨reading, segs, after, hreading, hreads, -⟩ := exists_readsAs hread
  obtain ⟨last, hcourse, -, -⟩ := hreads.course
  exact ⟨reading, segs, last, hreading, hcourse, hcourse.rest_eq_nil, hreads.tokens,
    hreads.ofSource hreading⟩

end Program

end Reifier
