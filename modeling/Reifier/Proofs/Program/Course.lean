import Reifier.Proofs.Program.Comments
import Reifier.Proofs.Program.OfSource
import Reifier.Proofs.Program.Simulation

/-!
# How statements are read one after another

The lexemes of a source fall into segments, each of which a statement has been read from or has been
left out because it cannot be read (`Course`). The lexemes of a statement without a structure fall
into segments in the same way, each of which is a declaration inside its brackets or a piece of its
text.

`Segment.Laid reads n segs` says of segments, before which `n` comments are recorded, that each item
leads with the comments before its run, and is read from the run as `reads` says. Going back after a
declaration that cannot be read leaves no trace in this: the next lexeme is taken as text.
-/

namespace Reifier

/-- A run of lexemes: those of an item, or others. -/
inductive Segment (α : Type) where
  | item (item : Item α) (run : List Lexeme)
  | other (run : List Lexeme)

namespace Segment

variable {α : Type}

/-- The lexemes of a segment. -/
def run : Segment α → List Lexeme
  | item _ run => run
  | other run => run

/-- The item of a segment, if it has one. -/
def item? : Segment α → Option (Item α)
  | item i _ => some i
  | other _ => none

/-- The lexemes of segments. -/
def lexemes (segs : List (Segment α)) : List Lexeme := segs.flatMap run

/-- The items of segments. -/
def items (segs : List (Segment α)) : List (Item α) := segs.filterMap item?

/-- The lexemes of segments that belong to no item. -/
def omitted (segs : List (Segment α)) : List Lexeme :=
  segs.flatMap fun
    | item _ _ => []
    | other run => run

@[simp] theorem lexemes_nil : lexemes ([] : List (Segment α)) = [] := rfl

@[simp] theorem lexemes_cons (seg : Segment α) (segs : List (Segment α)) :
    lexemes (seg :: segs) = seg.run ++ lexemes segs := rfl

theorem lexemes_item_cons (i : Item α) (run : List Lexeme) (segs : List (Segment α)) :
    lexemes (item i run :: segs) = run ++ lexemes segs := rfl

theorem lexemes_other_cons (run : List Lexeme) (segs : List (Segment α)) :
    lexemes (other run :: segs) = run ++ lexemes segs := rfl

@[simp] theorem items_nil : items ([] : List (Segment α)) = [] := rfl

@[simp] theorem items_item_cons (i : Item α) (run : List Lexeme) (segs : List (Segment α)) :
    items (item i run :: segs) = i :: items segs := rfl

@[simp] theorem items_other_cons (run : List Lexeme) (segs : List (Segment α)) :
    items (other run :: segs) = items segs := rfl

@[simp] theorem omitted_nil : omitted ([] : List (Segment α)) = [] := rfl

@[simp] theorem omitted_item_cons (i : Item α) (run : List Lexeme) (segs : List (Segment α)) :
    omitted (item i run :: segs) = omitted segs := rfl

@[simp] theorem omitted_other_cons (run : List Lexeme) (segs : List (Segment α)) :
    omitted (other run :: segs) = run ++ omitted segs := rfl

/-- What is left out is among the lexemes. -/
theorem omitted_subset (segs : List (Segment α)) : omitted segs ⊆ lexemes segs := by
  induction segs with
  | nil => exact List.Subset.refl _
  | cons seg segs ih =>
    cases seg with
    | item i run => exact List.Subset.trans ih (List.subset_append_right _ _)
    | other run =>
      exact List.append_subset.mpr ⟨List.subset_append_left _ _,
        List.Subset.trans ih (List.subset_append_right _ _)⟩

/-- The lexeme without what stands before it. -/
def bare (l : Lexeme) : Lexeme := { l with before := Trivia.none }

theorem spanOf_bare_cons (l : Lexeme) (run : List Lexeme) :
    Lexeme.spanOf (bare l :: run) = Lexeme.spanOf (l :: run) := rfl

/-- Segments before which `n` comments are recorded. The comments before an item are recorded first;
then it is read, as `reads` says, from the rest of its run. -/
inductive Laid (reads : ℕ → List Lexeme → α → Prop) : ℕ → List (Segment α) → Prop
  | nil (n : ℕ) : Laid reads n []
  | item {n : ℕ} {l : Lexeme} {run : List Lexeme} {node : α} {segs : List (Segment α)}
      (hnode : reads (n + l.before.comments.length) (bare l :: run) node)
      (rest : Laid reads (n + (Lexeme.comments (l :: run)).length) segs) :
      Laid reads n (.item ⟨List.range' n l.before.comments.length, node⟩ (l :: run) :: segs)
  | other {n : ℕ} {run : List Lexeme} {segs : List (Segment α)} (hrun : run ≠ [])
      (rest : Laid reads (n + (Lexeme.comments run).length) segs) :
      Laid reads n (.other run :: segs)

/-- Every segment has a lexeme. -/
theorem Laid.lexemes_ne_nil {reads : ℕ → List Lexeme → α → Prop} {n : ℕ}
    {segs : List (Segment α)} (h : Laid reads n segs) (hne : segs ≠ []) : lexemes segs ≠ [] := by
  cases h with
  | nil => exact absurd rfl hne
  | item => exact List.cons_ne_nil _ _
  | other hrun =>
    rw [lexemes_cons]
    exact List.append_ne_nil_of_left_ne_nil hrun _

end Segment

namespace Program

open Reifier.TypeExpr
open Reifier.Parser (Forward Triple)
open Cursor (Sourced Goes Over)
open Segment (Laid bare lexemes items)

variable {source : String} {type : Parser TypeExpr} {c d : Cursor}

/-! ### Declarations inside brackets -/

/-- A declaration is read from a run. -/
def DeclarationReads (source : String) (_ : ℕ) (run : List Lexeme) (decl : Declaration) : Prop :=
  decl.OfSource source ∧ decl.span = Lexeme.spanOf run

/-- Each declaration begins behind a line break, or behind a token after which a statement in a
block can begin; `previous` is the kind of the token in front of the segments. -/
def DeclarationsBegin : Option Token.Kind → List (Segment Declaration) → Prop
  | _, [] => True
  | previous, .item _ run :: segs =>
    (∀ l ∈ run.head?, l.before.lineBreak = true ∨ beginsAfter previous = true) ∧
      DeclarationsBegin (some .semicolon) segs
  | previous, .other run :: segs =>
    DeclarationsBegin ((run.getLast?.map (·.token.kind)).or previous) segs

/-- The rest of a round in which a declaration has been read. -/
def declarationRound (type : Parser TypeExpr) (n depth : ℕ) (comments : List CommentId)
    (decl : Declaration) : Parser (List (Item Declaration)) := do
  let more ← verbatimLoop type n depth (some .semicolon)
  return ⟨comments, decl⟩ :: more

/-- A round of a statement without a structure tries a declaration, and takes a lexeme if there is
none. -/
private theorem verbatimLoop_of_cons (type : Parser TypeExpr) (n depth : ℕ)
    (previous : Option Token.Kind) {l : Lexeme} {ls : List Lexeme} (hrest : c.rest = l :: ls) :
    verbatimLoop type (n + 1) depth previous c =
      (nestedDeclaration type depth previous l.before.lineBreak >>= fun
        | some decl => declarationRound type n depth
            (List.range' c.comments.length l.before.comments.length) decl
        | none => textRound type n depth) c.settled := by
  have hend : ¬ c.rest.isEmpty = true := by simp [hrest]
  have hline : c.lineBreakAhead = l.before.lineBreak := by simp [Cursor.lineBreakAhead, hrest]
  have hcomments : c.commentsAhead = l.before.comments := by simp [Cursor.commentsAhead, hrest]
  have hsettle : Parser.settle c =
      .done (List.range' c.comments.length l.before.comments.length) c.settled := by
    rw [Parser.settle, hcomments]
  rw [verbatimLoop, Parser.atEnd, Parser.test_of_not hend, Parser.look_bind_apply, hline,
    Parser.bind_of_done hsettle]
  congr 2

theorem settled_of_cons {l : Lexeme} {ls : List Lexeme} (hrest : c.rest = l :: ls) :
    c.settled.rest = bare l :: ls ∧ c.settled.comments = c.comments ++ l.before.comments := by
  unfold Cursor.settled
  rw [hrest]
  exact ⟨rfl, rfl⟩

theorem settled_rest_ne_nil (h : c.rest ≠ []) : c.settled.rest ≠ [] := by
  rwa [← List.length_pos_iff, c.settled_length, List.length_pos_iff]

/-- A round that takes the next lexeme as text ends the statement or goes on behind the lexeme. -/
theorem textRound_cases {n depth : ℕ} {l : Lexeme} {ls : List Lexeme}
    {found : List (Item Declaration)} (hrest : c.rest = l :: ls)
    (hrun : textRound type n depth c = .done found d) :
    (found = [] ∧ d = c.took l ls) ∨
      ∃ depth', verbatimLoop type n depth' (some l.token.kind) (c.took l ls) = .done found d := by
  rw [textRound, Parser.bind_of_done (Parser.advance_of_rest hrest)] at hrun
  by_cases hends : endsAfter l.token.kind (l.token.kind.depthAfter depth) (c.took l ls) = true
  · rw [Parser.test_of_true hends] at hrun
    cases hrun
    exact .inl ⟨rfl, rfl⟩
  · rw [Parser.test_of_not hends] at hrun
    exact .inr ⟨_, hrun⟩

/-- A round that has read a declaration goes on behind it. -/
private theorem exists_of_declarationRound {n depth : ℕ} {comments : List CommentId}
    {decl : Declaration} {found : List (Item Declaration)}
    (hrun : declarationRound type n depth comments decl c = .done found d) :
    ∃ more, verbatimLoop type n depth (some .semicolon) c = .done more d ∧
      found = ⟨comments, decl⟩ :: more := by
  obtain ⟨more, last, hmore, hfound⟩ := Parser.exists_of_bind_eq_done hrun
  cases hfound
  exact ⟨more, hmore, rfl⟩

/-- What a round does with a lexeme ahead: inside brackets it may read a declaration; otherwise it
takes the lexeme as text, be it that no declaration begins with it, or that it has gone back from
one that cannot be read. -/
theorem verbatimRound_cases {n depth : ℕ} {previous : Option Token.Kind} {l : Lexeme}
    {ls : List Lexeme} {found : List (Item Declaration)} (hrest : c.rest = l :: ls)
    (hrun : verbatimLoop type (n + 1) depth previous c = .done found d) :
    (∃ decl next more, 0 < depth ∧ (l.before.lineBreak = true ∨ beginsAfter previous = true) ∧
        nestedAhead c.settled = true ∧ declaration type c.settled = .done decl next ∧
        verbatimLoop type n depth (some .semicolon) next = .done more d ∧
        found = ⟨List.range' c.comments.length l.before.comments.length, decl⟩ :: more) ∨
      ∃ e, e.rest = bare l :: ls ∧ textRound type n depth e = .done found d ∧
        (e = c.settled ∨ ∃ next, 0 < depth ∧ nestedAhead c.settled = true ∧
          declaration type c.settled = .failed next ∧
          e = { next with rest := c.settled.rest, comments := c.settled.comments }) := by
  have hahead := (settled_of_cons hrest).1
  rw [verbatimLoop_of_cons type n depth previous hrest, nestedDeclaration_bind] at hrun
  by_cases hbegins : (0 < depth && (l.before.lineBreak || beginsAfter previous) &&
      nestedAhead c.settled) = true
  · rw [Parser.test_of_true hbegins] at hrun
    simp only [Bool.and_eq_true, Bool.or_eq_true, decide_eq_true_eq] at hbegins
    obtain ⟨⟨hdepth, hprevious⟩, hnested⟩ := hbegins
    obtain ⟨result, next, hattempt, hrun⟩ := Parser.exists_of_bind_eq_done hrun
    obtain ⟨decl, rfl, hread⟩ | ⟨rfl, wrong, hread, rfl⟩ := Parser.attempt_cases hattempt
    · obtain ⟨more, hmore, hfound⟩ := exists_of_declarationRound hrun
      exact .inl ⟨decl, next, more, hdepth, hprevious, hnested, hread, hmore, hfound⟩
    · exact .inr ⟨{ wrong with rest := c.settled.rest, comments := c.settled.comments }, hahead,
        hrun, .inr ⟨wrong, hdepth, hnested, hread, rfl⟩⟩
  · rw [Parser.test_of_not hbegins] at hrun
    exact .inr ⟨c.settled, hahead, hrun, .inl rfl⟩

/-- A cursor that has come back to `c`, with the comments before the next lexeme recorded. -/
structure Recorded (source : String) (c : Cursor) (l : Lexeme) (ls : List Lexeme) (e : Cursor) :
    Prop where
  sourced : e.Sourced source
  rest : e.rest = bare l :: ls
  comments : e.comments = c.comments ++ l.before.comments

theorem Recorded.over {l : Lexeme} {ls : List Lexeme} {e : Cursor} (h : Recorded source c l ls e)
    (hrest : c.rest = l :: ls) : c.Over [l] (e.took (bare l) ls) :=
  ⟨hrest, by simp [Cursor.took, h.comments, bare, Trivia.none], rfl⟩

/-- How the lexemes of a statement without a structure fall into segments. -/
def LaidOut (source : String) (previous : Option Token.Kind) (c : Cursor)
    (found : List (Item Declaration)) (d : Cursor) : Prop :=
  d.Sourced source ∧ ∃ segs, c.Over (lexemes segs) d ∧ found = items segs ∧
    Laid (DeclarationReads source) c.comments.length segs ∧ DeclarationsBegin previous segs ∧
    (c.rest ≠ [] → segs ≠ [])

/-- The next lexeme is text. -/
private theorem laidOut_other {previous : Option Token.Kind} {l : Lexeme} {next : Cursor}
    {found : List (Item Declaration)} (hover : c.Over [l] next)
    (hmore : LaidOut source (some l.token.kind) next found d) :
    LaidOut source previous c found d := by
  obtain ⟨hd, segs, hsegs, hfound, hlaid, hbegin, -⟩ := hmore
  refine ⟨hd, .other [l] :: segs, hover.trans hsegs, hfound, .other (List.cons_ne_nil l []) ?_,
    hbegin, fun _ => by simp⟩
  rw [hover.comments, List.length_append] at hlaid
  exact hlaid

/-- A declaration that has been read is an item. -/
private theorem laidOut_cons {previous : Option Token.Kind} {l : Lexeme} {run : List Lexeme}
    {decl : Declaration} {more : List (Item Declaration)} {next : Cursor}
    (hover : c.Over (l :: run) next)
    (hbegin : l.before.lineBreak = true ∨ beginsAfter previous = true)
    (hnode : DeclarationReads source (c.comments.length + l.before.comments.length)
      (bare l :: run) decl) (hmore : LaidOut source (some .semicolon) next more d) :
    LaidOut source previous c
      (⟨List.range' c.comments.length l.before.comments.length, decl⟩ :: more) d := by
  obtain ⟨hd, segs, hsegs, rfl, hlaid, hrest, -⟩ := hmore
  refine ⟨hd, .item _ (l :: run) :: segs, hover.trans hsegs, rfl, .item hnode ?_, ⟨?_, hrest⟩,
    fun _ => by simp⟩
  · rw [hover.comments, List.length_append] at hlaid
    exact hlaid
  · rintro _ ⟨⟩
    exact hbegin

section Statements

variable (htype : Forward (Sourced source) (TypeExpr.OfSource source) type)

include htype

/-- In a source, a round that takes the lexeme as text takes it behind its comments. -/
private theorem verbatimLoop_cases {n depth : ℕ} {previous : Option Token.Kind} {l : Lexeme}
    {ls : List Lexeme} {found : List (Item Declaration)} (hc : c.Sourced source)
    (hrest : c.rest = l :: ls) (hrun : verbatimLoop type (n + 1) depth previous c = .done found d) :
    (∃ decl next more, (l.before.lineBreak = true ∨ beginsAfter previous = true) ∧
        declaration type c.settled = .done decl next ∧
        verbatimLoop type n depth (some .semicolon) next = .done more d ∧
        found = ⟨List.range' c.comments.length l.before.comments.length, decl⟩ :: more) ∨
      ∃ e, Recorded source c l ls e ∧ textRound type n depth e = .done found d := by
  obtain ⟨hahead, hcomments⟩ := settled_of_cons hrest
  obtain ⟨decl, next, more, -, hbegins, -, hread, hmore, hfound⟩ | ⟨e, -, htext, hback⟩ :=
    verbatimRound_cases hrest hrun
  · exact .inl ⟨decl, next, more, hbegins, hread, hmore, hfound⟩
  · obtain rfl | ⟨next, -, -, hread, rfl⟩ := hback
    · exact .inr ⟨_, ⟨hc.settled, hahead, hcomments⟩, htext⟩
    · have hdecl := readsRun_declaration htype c.settled hc.settled
      rw [hread] at hdecl
      exact .inr ⟨_, ⟨Cursor.Lasting.back hc.settled hdecl.1.1, hahead, hcomments⟩, htext⟩

/-- A declaration that has been read behind its comments is read from a run. -/
theorem over_of_declaration {l : Lexeme} {ls : List Lexeme} {decl : Declaration}
    {next : Cursor} (hc : c.Sourced source) (hrest : c.rest = l :: ls)
    (hread : declaration type c.settled = .done decl next) :
    next.Sourced source ∧ ∃ run, c.Over (l :: run) next ∧
      ∀ n, DeclarationReads source n (bare l :: run) decl := by
  have hdecl := readsRun_declaration htype c.settled hc.settled
  rw [hread] at hdecl
  obtain ⟨hdecl, hnext, m, run, hsettled, hspan⟩ := hdecl
  obtain ⟨rfl, hover⟩ := hsettled.of_settled hrest
  exact ⟨hnext, run, hover, fun _ => ⟨hdecl, hspan⟩⟩

/-- Induction along a statement without a structure that has been read up to `d`. Where nothing is
left, nothing is found. Otherwise a declaration is read, and the loop goes on behind it, or the next
lexeme is text, and the loop goes on behind this, or ends. -/
theorem verbatimLoop_induction
    {P : Option Token.Kind → Cursor → List (Item Declaration) → Prop}
    (nil : ∀ {previous}, d.Sourced source → d.rest = [] → P previous d [])
    (item : ∀ {n depth previous c l ls decl next more}, c.Sourced source → c.rest = l :: ls →
      (l.before.lineBreak = true ∨ beginsAfter previous = true) →
      declaration type c.settled = .done decl next →
      verbatimLoop type n depth (some .semicolon) next = .done more d →
      P (some .semicolon) next more →
      P previous c (⟨List.range' c.comments.length l.before.comments.length, decl⟩ :: more))
    (last : ∀ {previous c l ls e}, c.rest = l :: ls → Recorded source c l ls e →
      d = e.took (bare l) ls → P previous c [])
    (text : ∀ {previous c l ls e found}, c.rest = l :: ls → Recorded source c l ls e →
      P (some l.token.kind) (e.took (bare l) ls) found → P previous c found)
    {rounds depth : ℕ} {previous : Option Token.Kind} {found : List (Item Declaration)}
    (hc : c.Sourced source) (hrun : verbatimLoop type rounds depth previous c = .done found d) :
    P previous c found := by
  induction rounds generalizing depth previous c found with
  | zero => cases hrun
  | succ rounds ih =>
    cases hrest : c.rest with
    | nil =>
      rw [verbatimLoop_of_nil type rounds depth previous hrest] at hrun
      cases hrun
      exact nil hc hrest
    | cons l ls =>
      obtain ⟨decl, next, more, hbegin, hread, hmore, rfl⟩ | ⟨e, he, htext⟩ :=
        verbatimLoop_cases htype hc hrest hrun
      · obtain ⟨hnext, -⟩ := over_of_declaration htype hc hrest hread
        exact item hc hrest hbegin hread hmore (ih hnext hmore)
      · obtain ⟨rfl, hd⟩ | ⟨depth', hloop⟩ := textRound_cases he.rest htext
        · exact last hrest he hd
        · exact text hrest he (ih (he.sourced.took he.rest) hloop)

/-- **The lexemes of a statement without a structure fall into segments,** which are declarations
and other text. -/
theorem laidOut_verbatimLoop {rounds depth : ℕ} {previous : Option Token.Kind}
    {found : List (Item Declaration)} (hc : c.Sourced source)
    (hrun : verbatimLoop type rounds depth previous c = .done found d) :
    LaidOut source previous c found d := by
  refine verbatimLoop_induction (P := fun previous c found => LaidOut source previous c found d)
    htype ?nil ?item ?last ?text hc hrun
  case nil =>
    intro previous hd hrest
    exact ⟨hd, [], .refl _, rfl, .nil _, trivial, fun hne => absurd hrest hne⟩
  case item =>
    intro n depth previous c l ls decl next more hc hrest hbegin hread _ hmore
    obtain ⟨-, run, hover, hnode⟩ := over_of_declaration htype hc hrest hread
    exact laidOut_cons hover hbegin (hnode _) hmore
  case last =>
    rintro previous c l ls e hrest he rfl
    have hne : [l] ≠ [] := List.cons_ne_nil l []
    exact ⟨he.sourced.took he.rest, [.other [l]], he.over hrest, rfl, .other hne (.nil _), trivial,
      fun _ => by simp⟩
  case text =>
    intro previous c l ls e found hrest he hmore
    exact laidOut_other (he.over hrest) hmore

/-! ### Statements -/

omit htype in
/-- A statement without a structure never fails: a declaration that cannot be read is text. -/
theorem neverFails_verbatimLoop (rounds depth : ℕ) (previous : Option Token.Kind) :
    Parser.NeverFails (verbatimLoop type rounds depth previous) := by
  induction rounds generalizing depth previous with
  | zero => exact .halt _
  | succ rounds ih =>
    refine .look_bind fun ended => ?_
    cases ended with
    | true => exact .pure _
    | false =>
      refine .look_bind fun lineStart => .settle_bind fun comments => .bind ?_ fun read => ?_
      · refine .look_bind fun begins => ?_
        cases begins with
        | true => exact .attempt _
        | false => exact .pure _
      · cases read with
        | some decl => exact .bind (ih _ _) fun _ => .pure _
        | none =>
          refine .bind .advance fun token => .look_bind fun ended => ?_
          cases ended with
          | true => exact .pure _
          | false => exact ih _ _

/-- A statement without a structure keeps the text of its run, in which the declarations inside its
brackets are laid out. -/
structure VerbatimReads (source : String) (n : ℕ) (run : List Lexeme) (stmt : Verbatim) : Prop where
  text : stmt.text = Lexeme.textOf run
  nested : ∃ segs, lexemes segs = run ∧ stmt.nested = items segs ∧
    Laid (DeclarationReads source) n segs ∧ DeclarationsBegin none segs

/-- What a statement holds is read from a run, before which `n` comments are recorded. -/
def StatementHolds (source : String) (n : ℕ) (run : List Lexeme) : Statement → Prop
  | .declaration decl => decl.OfSource source
  | .imports decl => decl.OfSource source
  | .exports decl => decl.declaration.OfSource source
  | .verbatim text => VerbatimReads source n run text

/-- A statement is read from a run, before which `n` comments are recorded. -/
structure StatementReads (source : String) (n : ℕ) (run : List Lexeme) (stmt : Statement) :
    Prop where
  span : stmt.span = Lexeme.spanOf run
  holds : StatementHolds source n run stmt

/-- What a statement comes to: if it is read, then from a run of lexemes, and if it cannot be read,
then this is reported. -/
def StatementComes (source : String) (c : Cursor) (o : Outcome Statement) : Prop :=
  o.Satisfies
    (fun stmt d => d.Sourced source ∧ ∃ l run, c.Over (l :: run) d ∧
      StatementReads source c.comments.length (l :: run) stmt)
    fun d => (d.Sourced source ∧ c.Goes d) ∧ d.lastReport ≠ none

omit htype in
/-- A statement made of what is read in a run is read from this run. -/
private theorem StatementComes.of_readsRun {α : Type} {p : Parser α} {post : α → Prop}
    {span : α → Span} (hp : ReadsRun source post span p) {make : α → Statement}
    (hmake : ∀ a, (make a).span = span a ∧
      (post a → ∀ n run, StatementHolds source n run (make a)))
    (hc : c.Sourced source) : StatementComes source c ((p >>= fun a => pure (make a)) c) := by
  have hrun := hp c hc
  cases hpc : p c with
  | done a next =>
    rw [hpc] at hrun
    obtain ⟨ha, hnext, l, run, hover, hspan⟩ := hrun
    rw [Parser.bind_of_done hpc]
    exact ⟨hnext, l, run, hover, (hmake a).1.trans hspan, (hmake a).2 ha _ _⟩
  | failed next =>
    rw [hpc] at hrun
    rw [Parser.bind_of_failed hpc]
    exact hrun
  | halted cause next =>
    rw [Parser.bind_of_halted hpc]
    trivial

/-- A statement without a structure is read from its lexemes if there are any. -/
private theorem statementComes_verbatim (hc : c.Sourced source) (hne : c.rest ≠ []) :
    StatementComes source c ((verbatim type >>= fun text => pure (.verbatim text)) c) := by
  let loop := Parser.rounds (verbatimLoop type · 0 none)
  have hverbatim : (verbatim type >>= fun text => pure (Statement.verbatim text)) c =
      (loop >>= fun nested => Parser.look (·.rest.length) >>= fun left =>
        Parser.spanFrom c.nextStart >>= fun span => pure (Statement.verbatim
          ⟨Lexeme.textOf (c.rest.take (c.rest.length - left)), span, nested⟩)) c := by
    unfold verbatim
    simp only [bind_assoc, pure_bind]
    rfl
  rw [hverbatim]
  cases hloop : loop c with
  | done nested d =>
    rw [Parser.bind_of_done hloop]
    obtain ⟨hd, segs, hover, hnested, hlaid, hbegin, hsegs⟩ := laidOut_verbatimLoop htype hc hloop
    -- Where something is ahead, at least one segment is taken, and so a lexeme.
    obtain ⟨l, run, hrun⟩ := List.exists_cons_of_ne_nil (hlaid.lexemes_ne_nil (hsegs hne))
    rw [hrun] at hover
    have hrest : c.rest = l :: (run ++ d.rest) := hover.rest
    have hstart : c.nextStart = l.token.span.start := by rw [Cursor.nextStart, hrest]
    have htaken : c.rest.take (c.rest.length - d.rest.length) = l :: run := by
      rw [hover.rest, List.length_append, Nat.add_sub_cancel, List.take_left]
    refine ⟨hd, l, run, hover, ?_, ?_, segs, hrun, hnested, hlaid, hbegin⟩
    · change d.spanFrom c.nextStart = _
      rw [hstart, hover.spanFrom]
    · exact congrArg Lexeme.textOf htaken
  | failed next => exact absurd hloop (neverFails_verbatimLoop _ _ _ c next)
  | halted cause next =>
    rw [Parser.bind_of_halted hloop]
    trivial

/-- Every statement is read from its lexemes, or why not is reported. The cases are the kinds of
statements. -/
theorem statementComes_statement (hc : c.Sourced source) (hne : c.rest ≠ []) :
    StatementComes source c (statement type c) := by
  have hdeclaration : StatementComes source c
      ((declaration type >>= fun decl => pure (.declaration decl)) c) :=
    .of_readsRun (readsRun_declaration htype) (fun decl => ⟨rfl, fun h _ _ => h⟩) hc
  have himport : StatementComes source c
      ((importDeclaration >>= fun decl => pure (.imports decl)) c) :=
    .of_readsRun readsRun_importDeclaration (fun decl => ⟨rfl, fun h _ _ => h⟩) hc
  have hexport := StatementComes.of_readsRun (readsRun_export htype)
    (fun decl => ⟨rfl, fun h _ _ => h⟩ : ∀ decl : Export,
      (Statement.exports decl).span = decl.span ∧ (decl.declaration.OfSource source →
        ∀ n run, StatementHolds source n run (.exports decl))) hc
  simp only [bind_assoc, pure_bind] at hexport
  unfold statement
  by_cases hdeclares : (aliasAhead c || interfaceAhead c) = true
  · rw [Parser.test_of_true hdeclares]
    exact hdeclaration
  · rw [Parser.test_of_not hdeclares]
    by_cases himports : importAhead c = true
    · rw [Parser.test_of_true himports]
      exact himport
    · rw [Parser.test_of_not himports]
      by_cases hexports : exportAhead c = true
      · rw [Parser.test_of_true hexports]
        exact hexport
      · rw [Parser.test_of_not hexports]
        exact statementComes_verbatim htype hc hne

/-! ### One statement after another -/

omit htype in
private theorem reaches_statement (hne : c.rest ≠ [])
    (hagrees : ∀ m < c.rest.length, Parser.Agrees True 0 m type type) :
    c.Reaches (statement type c.settled).cursor := by
  rw [← c.settled_length] at hagrees
  have hpos := List.length_pos_iff.mpr (settled_rest_ne_nil hne)
  exact .trans (.settle c) ((agrees_statement hagrees).agrees c.settled hpos le_rfl).reaches

omit htype in
private theorem reaches_skipStatement (hskip : skipStatement c = .done () d) : c.Reaches d := by
  have hskips : Parser.Agrees True 0 c.rest.length skipStatement skipStatement :=
    agrees_skipStatement
  have hagrees := hskips c (Nat.zero_le _) le_rfl
  rw [hskip] at hagrees
  exact hagrees.2

/-- The course of reading statements from one cursor to another. One that cannot be read is left
out, with the lexemes that are skipped behind it. -/
inductive Course (type : Parser TypeExpr) : Cursor → List (Segment Statement) → Cursor → Prop
  | stop {c : Cursor} (hend : c.rest = []) : Course type c [] c
  | read {c next d : Cursor} {l : Lexeme} {run : List Lexeme} {stmt : Statement}
      {segs : List (Segment Statement)} (hread : statement type c.settled = .done stmt next)
      (hover : c.Over (l :: run) next) (rest : Course type next segs d) :
      Course type c
        (.item ⟨List.range' c.comments.length l.before.comments.length, stmt⟩ (l :: run) :: segs) d
  | skip {c wrong next d : Cursor} {run : List Lexeme} {segs : List (Segment Statement)}
      (hread : statement type c.settled = .failed wrong)
      (hskip : skipStatement wrong = .done () next) (hover : c.Over run next) (hrun : run ≠ [])
      (rest : Course type next segs d) : Course type c (.other run :: segs) d

omit htype in
/-- Skipping takes a lexeme if there is one. -/
theorem exists_over_of_skipStatement (hc : c.Sourced source)
    (hskip : skipStatement c = .done () d) :
    d.Sourced source ∧ ∃ run, c.Over run d ∧ (c.rest ≠ [] → run ≠ []) := by
  cases hrest : c.rest with
  | nil =>
    have hall := forward_skipStatement c c ⟨hc, .refl c⟩
    rw [hskip] at hall
    obtain ⟨-, hd, run, hrun⟩ := hall
    exact ⟨hd, run, hrun, fun hne => absurd rfl hne⟩
  | cons l ls =>
    have hend : ¬ c.rest.isEmpty = true := by simp [hrest]
    have htook : c.Goes (c.took l ls) := ⟨[l], .take hrest⟩
    -- What follows the first lexeme goes forward from behind it.
    have hafter : Forward (Sourced source) (fun _ => True)
        (Parser.look (endsAfter l.token.kind (l.token.kind.depthAfter 0)) >>= fun ended =>
          if ended = true then pure ()
          else skipLoop (c.rest.length) (l.token.kind.depthAfter 0)) :=
      .test (.pure trivial) (forward_skipLoop _ _)
    have hall := hafter (c.took l ls) (c.took l ls) ⟨hc.took hrest, .refl _⟩
    have hskip' : skipLoop (c.rest.length + 1) 0 c = .done () d := hskip
    rw [skipLoop, Parser.atEnd, Parser.test_of_not hend,
      Parser.bind_of_done (Parser.advance_of_rest hrest)] at hskip'
    rw [hskip'] at hall
    obtain ⟨-, hd, run, hrun⟩ := hall
    exact ⟨hd, [l] ++ run, (Over.take hrest).trans hrun, fun _ => List.cons_ne_nil l run⟩

/-- What has been read takes a course, and each round of it takes at least one lexeme. -/
theorem exists_course {n : ℕ} {found : List (Item Statement)} (hc : c.Sourced source)
    (hrun : bodyLoop type n c = .done found d) :
    d.Sourced source ∧ ∃ segs, Course type c segs d ∧ found = items segs := by
  induction n generalizing c found with
  | zero => cases hrun
  | succ n ih =>
    by_cases hne : c.rest = []
    · rw [bodyLoop_of_nil type n hne] at hrun
      cases hrun
      exact ⟨hc, [], .stop hne, rfl⟩
    obtain ⟨l, ls, hrest⟩ := List.exists_cons_of_ne_nil hne
    have hahead := settled_rest_ne_nil hne
    have hcomments : c.commentsAhead = l.before.comments := by rw [Cursor.commentsAhead, hrest]
    have hcomes := statementComes_statement htype hc.settled hahead
    rw [bodyLoop_of_ne_nil type n hne, hcomments] at hrun
    rcases bodyRound_cases hrun with
      ⟨stmt, next, more, hstmt, hmore, rfl⟩ | ⟨wrong, next, hstmt, hskip, hmore⟩
    · rw [hstmt] at hcomes
      obtain ⟨hnext, m, run, hsettled, -⟩ := hcomes
      obtain ⟨rfl, hover⟩ := hsettled.of_settled hrest
      obtain ⟨hlast, segs, hcourse, rfl⟩ := ih hnext hmore
      exact ⟨hlast, _ :: segs, .read hstmt hover hcourse, rfl⟩
    · rw [hstmt] at hcomes
      obtain ⟨⟨hwrong, run, hover⟩, -⟩ := hcomes
      obtain ⟨hnext, behind, hbehind, htakes⟩ := exists_over_of_skipStatement hwrong hskip
      obtain ⟨hlast, segs, hcourse, rfl⟩ := ih hnext hmore
      -- If the statement failed where it began, a lexeme is skipped.
      have hboth : run ++ behind ≠ [] := by
        intro hnil
        obtain ⟨rfl, rfl⟩ := List.append_eq_nil_iff.mp hnil
        exact htakes (fun hend => hahead (hover.rest.trans hend)) rfl
      obtain ⟨m, all, hall⟩ := List.exists_cons_of_ne_nil hboth
      have hsettled := hover.trans hbehind
      rw [hall] at hsettled
      obtain ⟨-, htaken⟩ := hsettled.of_settled hrest
      exact ⟨hlast, .other (l :: all) :: segs,
        .skip hstmt hskip htaken (List.cons_ne_nil l all) hcourse, rfl⟩

namespace Course

variable {segs : List (Segment Statement)}

/-- The segments of a course are laid out from where it begins to where it ends. -/
theorem laid (h : Course type c segs d) (hc : c.Sourced source) :
    c.Over (lexemes segs) d ∧ Laid (StatementReads source) c.comments.length segs := by
  induction h with
  | stop hend => exact ⟨.refl _, .nil _⟩
  | @read c next d l run stmt segs hread hover rest ih =>
    have hrest : c.rest = l :: (run ++ next.rest) := hover.rest
    have hcomes := statementComes_statement htype hc.settled
      (settled_rest_ne_nil (by simp [hrest]))
    rw [hread] at hcomes
    obtain ⟨hnext, m, run', hsettled, hreads⟩ := hcomes
    obtain ⟨rfl, hover'⟩ := hsettled.of_settled hrest
    -- The run is the one between the two cursors.
    obtain ⟨-, rfl⟩ := List.cons.inj (hover.eq hover')
    obtain ⟨hsegs, hlaid⟩ := ih hnext
    rw [(settled_of_cons hrest).2, List.length_append] at hreads
    rw [hover.comments, List.length_append] at hlaid
    exact ⟨hover.trans hsegs, .item hreads hlaid⟩
  | @skip c wrong next d run segs hread hskip hover hrun rest ih =>
    have hcomes := statementComes_statement htype hc.settled
      (settled_rest_ne_nil (by simp [hover.rest, hrun]))
    rw [hread] at hcomes
    obtain ⟨hnext, -⟩ := exists_over_of_skipStatement hcomes.1.1 hskip
    obtain ⟨hsegs, hlaid⟩ := ih hnext
    rw [hover.comments, List.length_append] at hlaid
    exact ⟨hover.trans hsegs, .other hrun hlaid⟩

omit htype in
/-- Reading on is moving on. -/
private theorem reaches (h : Course type c segs d)
    (hagrees : ∀ m < c.rest.length, Parser.Agrees True 0 m type type) : c.Reaches d := by
  induction h with
  | stop hend => exact .refl _
  | @read c next d l run stmt segs hread hover rest ih =>
    have hreach := reaches_statement (by simp [hover.rest]) hagrees
    rw [hread] at hreach
    exact hreach.trans (ih fun m hm => hagrees m (hm.trans_le hreach.length_le))
  | @skip c wrong next d run segs hread hskip hover hrun rest ih =>
    have hreach := reaches_statement (by simp [hover.rest, hrun]) hagrees
    rw [hread] at hreach
    have hnext := hreach.trans (reaches_skipStatement hskip)
    exact hnext.trans (ih fun m hm => hagrees m (hm.trans_le hnext.length_le))

/-- What is left out has been reported. -/
theorem diagnostics_ne_nil (h : Course type c segs d) (hc : c.Sourced source)
    (hagrees : ∀ m < c.rest.length, Parser.Agrees True 0 m type type) (hreported : c.Reported)
    (hsegs : Segment.omitted segs ≠ []) : d.diagnostics ≠ [] := by
  induction h with
  | stop hend => exact absurd rfl hsegs
  | @read c next d l run stmt segs hread hover rest ih =>
    have hne : c.rest ≠ [] := by simp [hover.rest]
    have hcomes := statementComes_statement htype hc.settled (settled_rest_ne_nil hne)
    have hreach := reaches_statement hne hagrees
    rw [hread] at hreach hcomes
    exact ih hcomes.1 (fun m hm => hagrees m (hm.trans_le hreach.length_le))
      (hreach.reported hreported) hsegs
  | @skip c wrong next d run segs hread hskip hover hrun rest ih =>
    have hne : c.rest ≠ [] := by simp [hover.rest, hrun]
    have hcomes := statementComes_statement htype hc.settled (settled_rest_ne_nil hne)
    have hreach := reaches_statement hne hagrees
    rw [hread] at hreach hcomes
    have hnext := reaches_skipStatement hskip
    have hrest := rest.reaches fun m hm =>
      hagrees m (hm.trans_le (hreach.trans hnext).length_le)
    -- The statement has failed, so there is a report, and it stays.
    have hwrong := hreach.reported hreported hcomes.2
    exact fun hnil => hwrong (List.prefix_nil.mp (hnil ▸ (hnext.trans hrest).diagnostics_isPrefix))

end Course

end Statements

end Program

end Reifier
