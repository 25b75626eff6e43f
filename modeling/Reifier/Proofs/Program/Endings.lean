import Reifier.Proofs.Program.Places
import Reifier.Proofs.TypeExpr.Endings

/-!
# Where declarations end

A semicolon may close a declaration or an import, but nothing has to: it goes as far as it can, and
what stands behind it begins the next statement, also on the same line. A declaration inside the
brackets of a statement without a structure is followed by the text of this statement.
-/

namespace Reifier

/-- What a declaration of a type goes on with, whatever it says. -/
def Declaration.Continues : Declaration → Lexeme → Prop
  | typeAlias _ => TypeExpr.Continues
  | interface _ => fun _ => False
  | const _ => fun _ => False

namespace Program

open Reifier.TypeExpr (forward_nested)
open Reifier.Parser (Exhausts Forward Triple)
open Cursor (Sourced)
open Segment (Laid bare lexemes items omitted)

variable {α β : Type} {source : String} {type : Parser TypeExpr} {more : Lexeme → Prop}

/-! ### Semicolons -/

/-- The last token that has been taken is a semicolon, or none is ahead, and nothing that satisfies
`more`. -/
def Ends (source : String) (more : Lexeme → Prop) (c : Cursor) : Prop :=
  (∃ t ∈ Token.scan source, t.kind = .semicolon ∧ t.span.stop = c.lastEnd) ∨
    c.Stops fun l => l.token.kind = .semicolon ∨ more l

/-- The parser is done where something ends. -/
def Finishes (source : String) (more : α → Lexeme → Prop) (p : Parser α) : Prop :=
  Triple (Sourced source) p (fun a d => Ends source (more a) d) fun _ => True

namespace Finishes

variable {post : β → Prop} {more : α → Lexeme → Prop}

protected theorem bind {p : Parser β} {f : β → Parser α} (hp : Forward (Sourced source) post p)
    (hf : ∀ b, Finishes source more (f b)) : Finishes source more (p >>= f) := by
  refine Triple.bind (fun c hc => ?_) hf
  refine (hp c c ⟨hc, .refl c⟩).mono (fun b d hd => hd.2.1) fun _ _ => trivial

theorem advance_bind {f : Token → Parser α} (hf : ∀ t, Finishes source more (f t)) :
    Finishes source more (Parser.advance >>= f) :=
  Triple.advance_bind (fun _ _ _ hc hrest => hc.took hrest) hf

theorem test {view : Cursor → Bool} {a b : Parser α} (ha : Finishes source more a)
    (hb : Finishes source more b) :
    Finishes source more (Parser.look view >>= fun yes => if yes = true then a else b) :=
  Triple.test (ha.anti fun _ hc => hc.1) hb

theorem bind_pure {p : Parser α} {g : α → β} {more' : β → Lexeme → Prop}
    (hp : Finishes source more p) (hg : ∀ a, more' (g a) = more a) :
    Finishes source more' (p >>= fun a => pure (g a)) :=
  Triple.bind hp fun a => .pure fun c hc => by rwa [hg]

/-- The last part of what is read is followed by a semicolon or by nothing that it would go on
with. -/
private theorem eat_semicolon {γ : Type} {p : Parser β} {make : β → γ → α} {view : Cursor → γ}
    {last : Lexeme → Prop} (hp : Forward (Sourced source) post p) (hlast : Exhausts last p)
    (hmake : ∀ b v, more (make b v) = last) :
    Finishes source more (p >>= fun b => Parser.eat .semicolon >>= fun _ =>
      Parser.look view >>= fun v => pure (make b v)) := by
  intro c hc
  have hforward := hp c c ⟨hc, .refl c⟩
  have hstops := hlast c trivial
  cases hrun : p c with
  | done b d =>
    rw [hrun] at hforward hstops
    obtain ⟨-, hd, -⟩ := hforward
    rw [Parser.bind_of_done hrun]
    by_cases hsemicolon : d.hasKind 0 .semicolon = true
    · obtain ⟨l, ls, hrest, hkind⟩ := Cursor.hasKind_zero_iff.mp hsemicolon
      rw [Parser.bind_of_done (Parser.eat_of_hasKind hsemicolon hrest)]
      exact .inl ⟨l.token, hd.mem_scan hrest, of_decide_eq_true hkind, rfl⟩
    · rw [Parser.bind_of_done (Parser.eat_of_not hsemicolon)]
      refine .inr (Cursor.stops_or_iff.mpr ⟨?_, ?_⟩)
      · exact Cursor.stops_kind_iff.mpr (eq_false_of_ne_true hsemicolon)
      · rw [hmake]
        exact hstops
  | failed d =>
    rw [Parser.bind_of_failed hrun]
    trivial
  | halted cause d =>
    rw [Parser.bind_of_halted hrun]
    trivial

end Finishes

/-! ### Declarations and imports -/

private theorem exhausts_false {α : Type} (p : Parser α) : Exhausts (fun _ => False) p :=
  (Triple.any p).mono (fun _ => id) (fun _ _ _ _ _ => id) fun _ => id

section Types

variable (htype : Forward (Sourced source) (TypeExpr.OfSource source) type)

include htype

/-- A declaration ends with its semicolon, or where its type does. -/
private theorem finishes_declaration (hends : Exhausts TypeExpr.Continues type) :
    Finishes source Declaration.Continues (declaration type) := by
  have halias : Finishes source (fun _ => TypeExpr.Continues) (typeAlias type) := by
    refine .advance_bind fun first => .bind TypeExpr.forward_identifier fun id => ?_
    refine .bind (forward_declarationParams htype) fun params => .bind (.expect _ _) fun _ => ?_
    exact .eat_semicolon htype hends fun _ _ => rfl
  have hinterface : Finishes source (fun _ _ => False) (interface type) := by
    refine .advance_bind fun first => .bind TypeExpr.forward_identifier fun id => ?_
    refine .bind (forward_declarationParams htype) fun params => ?_
    refine .bind (forward_interfaceBases htype) fun bases => .test ?_ (.reject fun _ _ => trivial)
    exact .eat_semicolon (TypeExpr.forward_objectType htype) (exhausts_false _) fun _ _ => rfl
  refine .test (halias.bind_pure fun _ => rfl) (hinterface.bind_pure fun _ => rfl)

omit htype in
private theorem finishes_importDeclaration :
    Finishes source (fun _ _ => False) importDeclaration := by
  refine .advance_bind fun first => .bind forward_importKind fun kind => ?_
  refine .bind forward_importClause fun specifiers => ?_
  exact .eat_semicolon forward_moduleSource (exhausts_false _) fun _ _ => rfl

/-- A declaration has been read behind other lexemes, and what stands behind it is nothing that it
goes on with. -/
structure DeclarationEnds (source : String) (c : Cursor) (decl : Declaration) (d : Cursor) :
    Prop where
  ends : Ends source decl.Continues d
  exists_run : ∃ front l run, c.Over (front ++ l :: run) d ∧ decl.span = Lexeme.spanOf (l :: run)

namespace DeclarationEnds

variable {c next d : Cursor} {decl : Declaration}

omit htype

private theorem behind {run : List Lexeme} (h : DeclarationEnds source next decl d)
    (hover : c.Over run next) : DeclarationEnds source c decl d := by
  obtain ⟨front, l, more, hmore, hspan⟩ := h.exists_run
  refine ⟨h.ends, run ++ front, l, more, ?_, hspan⟩
  rw [List.append_assoc]
  exact hover.trans hmore

/-- The comments before the first lexeme may be recorded first. -/
private theorem of_settled {l : Lexeme} {ls : List Lexeme} (hrest : c.rest = l :: ls)
    (h : DeclarationEnds source c.settled decl d) : DeclarationEnds source c decl d := by
  obtain ⟨front, m, run, hover, hspan⟩ := h.exists_run
  cases front with
  | nil =>
    obtain ⟨rfl, htaken⟩ := Cursor.Over.of_settled hrest hover
    exact ⟨h.ends, [], l, run, htaken, hspan⟩
  | cons first front =>
    obtain ⟨-, htaken⟩ := Cursor.Over.of_settled hrest hover
    exact ⟨h.ends, l :: front, m, run, htaken, hspan⟩

end DeclarationEnds

/-- A declaration is a run of lexemes, and behind it is nothing that it goes on with. -/
private theorem triple_declaration (hends : Exhausts TypeExpr.Continues type) (c : Cursor) :
    Triple (fun e => e.Sourced source ∧ c.Goes e) (declaration type) (DeclarationEnds source c)
      fun _ => True := by
  rintro e ⟨he, front, hfront⟩
  have hfinishes := finishes_declaration htype hends e he
  have hreads := readsRun_declaration htype e he
  cases hrun : declaration type e with
  | done decl d =>
    rw [hrun] at hfinishes hreads
    obtain ⟨-, -, l, run, hover, hspan⟩ := hreads
    exact ⟨hfinishes, front, l, run, hfront.trans hover, hspan⟩
  | failed d => trivial
  | halted cause d => trivial

/-! ### Statements -/

/-- What stands behind a declaration that has been read between two cursors is taken with it: it
ends at a cursor `e` behind which something is taken if anything is left. -/
def Encloses (source : String) (c : Cursor) (decl : Declaration) (d : Cursor) : Prop :=
  ∃ e back, DeclarationEnds source c decl e ∧ e.Over back d ∧ (e.rest ≠ [] → back ≠ [])

/-- **The declarations inside a statement are enclosed by it.** Behind a declaration that has been
read the loop goes on if anything is left. -/
private theorem encloses_of_verbatimLoop (hends : Exhausts TypeExpr.Continues type)
    {rounds depth : ℕ} {previous : Option Token.Kind} {c d : Cursor}
    {found : List (Item Declaration)} (hc : c.Sourced source)
    (hrun : verbatimLoop type rounds depth previous c = .done found d) :
    ∀ inner ∈ found, Encloses source c inner.node d := by
  have hbehind : ∀ {c run next} {found : List (Item Declaration)}, c.Over run next →
      (∀ inner ∈ found, Encloses source next inner.node d) →
        ∀ inner ∈ found, Encloses source c inner.node d := by
    intro c run next found hover hfound inner hinner
    obtain ⟨e, back, hdecl, hback⟩ := hfound inner hinner
    exact ⟨e, back, hdecl.behind hover, hback⟩
  refine verbatimLoop_induction
    (P := fun _ c found => ∀ inner ∈ found, Encloses source c inner.node d)
    htype ?nil ?item ?last ?text hc hrun
  case nil => exact fun _ _ => List.forall_mem_nil _
  case item =>
    intro n depth previous c l ls decl next more hc hrest _ hread hmore hfound
    obtain ⟨hnext, run, hover, -⟩ := over_of_declaration htype hc hrest hread
    have hdecl := triple_declaration htype hends c.settled c.settled ⟨hc.settled, .refl _⟩
    rw [hread] at hdecl
    obtain ⟨-, segs, hsegs, -, hlaid, -, hne⟩ := laidOut_verbatimLoop htype hnext hmore
    refine List.forall_mem_cons.mpr ⟨?_, hbehind hover hfound⟩
    exact ⟨next, lexemes segs, hdecl.of_settled hrest, hsegs,
      fun hleft => hlaid.lexemes_ne_nil (hne hleft)⟩
  case last => exact fun _ _ _ => List.forall_mem_nil _
  case text => exact fun hrest he hfound => hbehind (he.over hrest) hfound

/-- How a statement that has been read between two cursors ends; inside one without a structure, how
the declarations end. -/
def StatementEnds (source : String) (c : Cursor) : Statement → Cursor → Prop
  | .declaration decl, d => DeclarationEnds source c decl d
  | .imports _, d => Ends source (fun _ => False) d
  | .exports decl, d => DeclarationEnds source c decl.declaration d
  | .verbatim text, d => ∀ inner ∈ text.nested, Encloses source c inner.node d

/-- A statement without a structure encloses the declarations inside of it. -/
private theorem triple_verbatim (hends : Exhausts TypeExpr.Continues type) {c : Cursor}
    (hc : c.Sourced source) :
    Triple (· = c) (verbatim type) (fun text d => ∀ inner ∈ text.nested,
      Encloses source c inner.node d) fun _ => True := by
  have hloop : Triple (· = c) (Parser.rounds (verbatimLoop type · 0 none))
      (fun found d => ∀ inner ∈ found, Encloses source c inner.node d) fun _ => True := by
    refine .rounds fun n e he => ?_
    rw [he]
    cases hrun : verbatimLoop type n 0 none c with
    | done found d => exact encloses_of_verbatimLoop htype hends hc hrun
    | failed d => trivial
    | halted cause d => trivial
  refine .look_bind fun _ => .look_bind fun _ => ?_
  refine .bind (hloop.anti fun _ he => he.1.1) fun found => ?_
  exact .look_bind fun _ => .look_bind fun _ => .pure fun _ hd => hd.1.1

/-- Every statement ends as its kind does. The cases are the kinds. -/
private theorem statementEnds_statement (hends : Exhausts TypeExpr.Continues type) {c d : Cursor}
    {stmt : Statement} (hc : c.Sourced source) (hrun : statement type c = .done stmt d) :
    StatementEnds source c stmt d := by
  have hdeclaration := triple_declaration htype hends c
  have hstart : ∀ e, e = c → e.Sourced source ∧ c.Goes e := by
    rintro e rfl
    exact ⟨hc, .refl e⟩
  have hstatement : Triple (· = c) (statement type) (StatementEnds source c) fun _ => True := by
    refine .test (.bind (hdeclaration.anti fun e he => hstart e he.1) fun _ => .pure fun _ => id) ?_
    refine .test (.bind (finishes_importDeclaration.anti fun e he => (hstart e he.1).1)
      fun _ => .pure fun _ => id) ?_
    refine .test ?_ (.bind (triple_verbatim htype hends hc) fun _ => .pure fun _ => id)
    refine .advance_bind ?_ fun first => .bind hdeclaration fun decl => ?_
    · intro e l ls he hrest
      obtain ⟨hsourced, hgoes⟩ := hstart e he.1
      exact ⟨hsourced.took hrest, hgoes.trans ⟨[l], .take hrest⟩⟩
    · exact .look_bind fun _ => .pure fun _ hd => hd.1
  have hends := hstatement c rfl
  rwa [hrun] at hends

/-! ### Bodies -/

/-- A statement of a course has been read between two cursors, behind what stands before it. -/
private theorem Course.exists_read {c d : Cursor} {front back : List (Segment Statement)}
    {item : Item Statement} {run : List Lexeme} (hc : c.Sourced source)
    (h : Course type c (front ++ .item item run :: back) d) :
    ∃ b next l more, b.Sourced source ∧ next.Sourced source ∧ run = l :: more ∧
      c.Over (lexemes front) b ∧ b.Over run next ∧ item.node.span = Lexeme.spanOf run ∧
      statement type b.settled = .done item.node next ∧ Course type next back d := by
  induction front generalizing c with
  | nil =>
    cases h with
    | @read c next d l run stmt segs hread hover rest =>
      have hne : c.settled.rest ≠ [] := settled_rest_ne_nil (by simp [hover.rest])
      have hcomes := statementComes_statement htype hc.settled hne
      rw [hread] at hcomes
      obtain ⟨hnext, m, run', hsettled, hreads⟩ := hcomes
      obtain ⟨rfl, hover'⟩ := hsettled.of_settled hover.rest
      obtain ⟨-, rfl⟩ := List.cons.inj (hover.eq hover')
      exact ⟨c, next, l, run, hc, hnext, rfl, .refl c, hover, hreads.span, hread, rest⟩
  | cons seg front ih =>
    -- What is read or left out first leads to where the others begin.
    obtain ⟨next, hnext, hover, rest⟩ : ∃ next, next.Sourced source ∧ c.Over seg.run next ∧
        Course type next (front ++ .item item run :: back) d := by
      cases h with
      | @read c next d l run' stmt segs hread hover rest =>
        have hne : c.settled.rest ≠ [] := settled_rest_ne_nil (by simp [hover.rest])
        have hcomes := statementComes_statement htype hc.settled hne
        rw [hread] at hcomes
        exact ⟨next, hcomes.1, hover, rest⟩
      | @skip c wrong next d run' segs hread hskip hover hrun rest =>
        have hne : c.settled.rest ≠ [] := settled_rest_ne_nil (by simp [hover.rest, hrun])
        have hcomes := statementComes_statement htype hc.settled hne
        rw [hread] at hcomes
        exact ⟨next, (exists_over_of_skipStatement hcomes.1.1 hskip).1, hover, rest⟩
    obtain ⟨b, after, l, more, hb, hafter, hrun, hfront, hread⟩ := ih hnext rest
    exact ⟨b, after, l, more, hb, hafter, hrun, hover.trans hfront, hread⟩

end Types

/-! ### Sources -/

section Sources

variable {limit : Option ℕ} {reading : Reading}

/-- The first lexeme of a source that begins at an offset or behind it. -/
def lexemeFrom? (source : String) (offset : ℕ) : Option Lexeme :=
  (Lexeme.ofTokens (Token.scan source)).1.find? fun l => offset ≤ l.token.span.start

/-- What ends at an offset ends with a semicolon, or in front of a token that is neither a semicolon
nor satisfies `more`, if any token is left. -/
def EndsAt (source : String) (more : Lexeme → Prop) (stop : ℕ) : Prop :=
  (∃ t ∈ Token.scan source, t.kind = .semicolon ∧ t.span.stop = stop) ∨
    ∀ l ∈ lexemeFrom? source stop, l.token.kind ≠ .semicolon ∧ ¬ more l

/-- Declarations and imports end as `EndsAt` says. What stands behind a declaration inside brackets
is enclosed by the statement. -/
def EndsIn (source : String) : Statement → Prop
  | .declaration decl => EndsAt source decl.Continues decl.span.stop
  | .imports decl => EndsAt source (fun _ => False) decl.span.stop
  | .exports decl => EndsAt source decl.declaration.Continues decl.declaration.span.stop
  | .verbatim text => ∀ inner ∈ text.nested,
      EndsAt source inner.node.Continues inner.node.span.stop ∧
        ∀ l ∈ lexemeFrom? source inner.node.span.stop, text.span.encloses l.token.span = true

/-- Where the lexemes of a source are read from. -/
abbrev sourceStart (source : String) : Cursor :=
  startCursor (Text.byteLength source.toList) (Lexeme.ofTokens (Token.scan source)).1

/-- Behind a run stands what is left. -/
private theorem lexemeFrom?_of_over {front run : List Lexeme} {l : Lexeme} {e : Cursor}
    (h : (sourceStart source).Over (front ++ l :: run) e) :
    (Lexeme.spanOf (l :: run)).stop = e.lastEnd ∧
      lexemeFrom? source (Lexeme.spanOf (l :: run)).stop = e.rest.head? := by
  have hrest : (Lexeme.ofTokens (Token.scan source)).1 = front ++ l :: run ++ e.rest := h.rest
  have hordered : Lexeme.Ordered (Lexeme.ofTokens (Token.scan source)).1 :=
    (Lexeme.ordered_ofTokens rfl).2
  rw [hrest] at hordered
  have hlast := Lexeme.stop_spanOf hordered.append.1.append.2
  refine ⟨?_, ?_⟩
  · rw [hlast, h.lastEnd, Lexeme.lastStop_append, Lexeme.lastStop_cons]
  · rw [lexemeFrom?, hrest]
    exact Lexeme.find?_behind hordered

/-- What a parser leaves ahead is what the source goes on with. -/
private theorem Ends.endsAt {more : Lexeme → Prop} {c : Cursor} (h : Ends source more c) {stop : ℕ}
    (hstop : stop = c.lastEnd) (hnext : lexemeFrom? source stop = c.rest.head?) :
    EndsAt source more stop := by
  rcases h with ⟨t, ht, hkind, hlast⟩ | hstops
  · exact .inl ⟨t, ht, hkind, hlast.trans hstop.symm⟩
  · refine .inr fun l hl => ?_
    rw [hnext] at hl
    exact not_or.mp (hstops l hl)

/-- Where a declaration ends is said by its span and the tokens of the source alone. -/
private theorem DeclarationEnds.endsAt {c d : Cursor} {decl : Declaration} {front : List Lexeme}
    (h : DeclarationEnds source c decl d) (hfront : (sourceStart source).Over front c) :
    EndsAt source decl.Continues decl.span.stop ∧
      lexemeFrom? source decl.span.stop = d.rest.head? := by
  obtain ⟨before, l, run, hover, hspan⟩ := h.exists_run
  have hall := hfront.trans hover
  rw [← List.append_assoc] at hall
  obtain ⟨hstop, hnext⟩ := lexemeFrom?_of_over hall
  rw [← hspan] at hstop hnext
  exact ⟨h.ends.endsAt hstop hnext, hnext⟩

/-- What has been read behind some lexemes of a source ends there as it should. -/
private theorem endsIn_of_statementEnds {b next : Cursor} {front run : List Lexeme} {l : Lexeme}
    {stmt : Statement} (hfront : (sourceStart source).Over front b) (hover : b.Over (l :: run) next)
    (hspan : stmt.span = Lexeme.spanOf (l :: run))
    (hends : StatementEnds source b.settled stmt next) : EndsIn source stmt := by
  have hall := hfront.trans hover
  cases stmt with
  | declaration decl => exact ((hends.of_settled hover.rest).endsAt hfront).1
  | imports decl =>
    obtain ⟨hstop, hnext⟩ := lexemeFrom?_of_over hall
    rw [← hspan] at hstop hnext
    exact Ends.endsAt hends hstop hnext
  | exports decl => exact ((hends.of_settled hover.rest).endsAt hfront).1
  | verbatim text =>
    intro inner hinner
    obtain ⟨e, back, hdecl, hback, hne⟩ := hends inner hinner
    have hbefore := hdecl.of_settled hover.rest
    obtain ⟨hends, hnext⟩ := hbefore.endsAt hfront
    refine ⟨hends, fun x hx => ?_⟩
    -- What is ahead behind the declaration is taken for the statement around it.
    rw [hnext] at hx
    have hleft : e.rest ≠ [] := fun hnil => by rw [hnil] at hx; cases hx
    obtain ⟨y, ys, rfl⟩ := List.exists_cons_of_ne_nil (hne hleft)
    obtain rfl : y = x := by
      rw [hback.rest] at hx
      exact Option.some.inj hx
    obtain ⟨inside, m, decl, htaken, -⟩ := hbefore.exists_run
    have hmem : y ∈ l :: run := by
      rw [hover.eq (htaken.trans hback)]
      exact List.mem_append_right _ List.mem_cons_self
    have hordered : Lexeme.Ordered (Lexeme.ofTokens (Token.scan source)).1 :=
      (Lexeme.ordered_ofTokens rfl).2
    have hlexemes : (Lexeme.ofTokens (Token.scan source)).1 = front ++ l :: run ++ next.rest :=
      hall.rest
    rw [hlexemes] at hordered
    have htext : text.span = Lexeme.spanOf (l :: run) := hspan
    rw [htext]
    exact (Lexeme.spanOf_spec hordered.append.1.append.2).2 _ (Lexeme.span_mem_spans hmem)

/-- The statements behind a statement begin where the lexemes begin that are left, if no statement
has been left out. -/
private theorem head?_start_of_laid {n : ℕ} {segs : List (Segment Statement)}
    (h : Laid (StatementReads source) n segs) (hnone : omitted segs = []) :
    (items segs).head?.map (·.node.span.start) =
      (lexemes segs).head?.map (·.token.span.start) := by
  cases h with
  | nil => rfl
  | @item n l run stmt segs hnode rest =>
    change some stmt.span.start = some l.token.span.start
    rw [hnode.span]
    rfl
  | other hrun rest =>
    rw [Segment.omitted_other_cons] at hnone
    exact absurd (List.append_eq_nil_iff.mp hnone).1 hrun

/-- Wherever the body of a program is cut, the next statement has been read between two cursors. -/
theorem ReadsAs.exists_read {segs : List (Segment Statement)} {after : Trivia}
    (h : ReadsAs limit source reading segs after) {before behind : List (Item Statement)}
    {item : Item Statement} (hbody : reading.program.body = before ++ item :: behind) :
    ∃ front back l more, segs = front ++ .item item (l :: more) :: back ∧ items back = behind ∧
      ∃ knots b next last, b.Sourced source ∧ next.Sourced source ∧
        (sourceStart source).Over (Segment.lexemes front) b ∧ b.Over (l :: more) next ∧
        item.node.span = Lexeme.spanOf (l :: more) ∧
        statement (TypeExpr.nested limit knots).whole b.settled = .done item.node next ∧
        Course (TypeExpr.nested limit knots).whole next back last := by
  obtain ⟨last, hcourse, -, -⟩ := h.course
  have htype := (forward_nested source limit
    ((Lexeme.ofTokens (Token.scan source)).1.length + 1)).1
  -- The segments are cut at the one that the statement has been read from.
  rw [h.body] at hbody
  obtain ⟨front, tail, rfl, -, htail⟩ := List.filterMap_eq_append_iff.mp hbody
  obtain ⟨skipped, seg, back, rfl, -, hseg, rfl⟩ := List.filterMap_eq_cons_iff.mp htail
  obtain ⟨run, rfl⟩ : ∃ run, seg = .item item run := by
    cases seg with
    | item i run => exact ⟨run, congrArg (Segment.item · run) (Option.some.inj hseg)⟩
    | other run => cases hseg
  rw [← List.append_assoc] at hcourse
  obtain ⟨b, next, l, more, hb, hnext, rfl, hfront, hover, hspan, hread, hrest⟩ :=
    Course.exists_read htype (sourced_startCursor source) hcourse
  exact ⟨_, back, l, more, (List.append_assoc _ _ _).symm, rfl, _, b, next, last, hb, hnext,
    hfront, hover, hspan, hread, hrest⟩

/-- A statement of the body ends in the source as it does at its cursor, and if nothing has been
left out, the next one begins right behind it. -/
private theorem ReadsAs.endsIn {segs : List (Segment Statement)} {after : Trivia}
    (h : ReadsAs limit source reading segs after) {before behind : List (Item Statement)}
    {item : Item Statement} (hbody : reading.program.body = before ++ item :: behind) :
    EndsIn source item.node ∧ (omitted segs = [] → behind.head?.map (·.node.span.start) =
      (lexemeFrom? source item.node.span.stop).map (·.token.span.start)) := by
  obtain ⟨front, back, l, more, rfl, rfl, knots, b, next, last, hb, hnext, hfront, hover, hspan,
    hread, hrest⟩ := h.exists_read hbody
  have htype := (forward_nested source limit knots).1
  have hexhausts := (TypeExpr.exhausts_nested limit knots).1
  have hends := statementEnds_statement htype hexhausts hb.settled hread
  refine ⟨endsIn_of_statementEnds hfront hover hspan hends, fun hnone => ?_⟩
  obtain ⟨hback, hlaid⟩ := hrest.laid htype hnext
  have hleft : next.rest = Segment.lexemes back := by
    rw [hback.rest, hrest.rest_eq_nil, List.append_nil]
  have homitted : omitted back = [] := by
    have hall := List.flatMap_eq_nil_iff.mp hnone
    refine List.flatMap_eq_nil_iff.mpr fun seg hseg => hall seg ?_
    exact List.mem_append_right _ (List.mem_cons_of_mem _ hseg)
  rw [hspan, (lexemeFrom?_of_over (hfront.trans hover)).2, hleft]
  exact head?_start_of_laid hlaid homitted

/-- **Declarations and imports go as far as they can, and what stands behind them is kept.** Each
ends with a semicolon, or else what stands behind it is none, nor anything that it would go on with.
Where nothing is wrong with a source, what stands behind a statement begins the next one, whatever
it is; behind a declaration inside brackets it belongs to the statement around. -/
theorem endings_of_parse (h : parse limit source = .ok reading) :
    (∀ item ∈ reading.program.body, EndsIn source item.node) ∧
      (reading.diagnostics = [] → ∀ before item behind,
        reading.program.body = before ++ item :: behind →
          behind.head?.map (·.node.span.start) =
            (lexemeFrom? source item.node.span.stop).map (·.token.span.start)) := by
  obtain ⟨segs, after, hreads, homitted⟩ := exists_readsAs_of_parse h
  refine ⟨fun item hitem => ?_, fun hnone before item behind hbody => ?_⟩
  · obtain ⟨before, behind, hbody⟩ := List.append_of_mem hitem
    exact (hreads.endsIn hbody).1
  · exact (hreads.endsIn hbody).2 (homitted hnone)

/-! ### A type expression in front of an arrow -/

/-- Where the aliases of a source stand, if nothing is wrong with it. -/
def aliasSpans (source : String) : Option (List Span) :=
  (parse none source).toOption.bind fun reading =>
    if reading.diagnostics.isEmpty then
      some (reading.program.body.filterMap fun item =>
        match item.node with
        | .declaration (.typeAlias decl) => some decl.span
        | _ => none)
    else none

/-- The only alias of a source, as it is read without reports. -/
private theorem exists_of_aliasSpans {span : Span} (h : aliasSpans source = some [span]) :
    ∃ reading item decl, parse none source = .ok reading ∧ reading.diagnostics = [] ∧
      item ∈ reading.program.body ∧ item.node = .declaration (.typeAlias decl) ∧
      decl.span = span := by
  unfold aliasSpans at h
  cases hparse : parse none source with
  | error cause =>
    rw [hparse] at h
    cases h
  | ok reading =>
    rw [hparse] at h
    change (if reading.diagnostics.isEmpty = true then _ else none) = _ at h
    split_ifs at h with hnone
    have hspan := List.mem_singleton_self span
    rw [← Option.some.inj h] at hspan
    obtain ⟨item, hitem, hdecl⟩ := List.mem_filterMap.mp hspan
    split at hdecl
    · rename_i decl hnode
      exact ⟨reading, item, decl, rfl, List.isEmpty_iff.mp hnone, hitem, hnode,
        Option.some.inj hdecl⟩
    · cases hdecl

/-- The arrow is left for the next statement. -/
theorem endings_of_parse_arrow :
    ∃ reading before item behind, parse none "type A = string => number" = .ok reading ∧
      reading.diagnostics = [] ∧ reading.program.body = before ++ item :: behind ∧
      EndsIn "type A = string => number" item.node ∧ item.node.span = ⟨0, 15⟩ ∧
      behind.head?.map (·.node.span.start) = some 16 := by
  have hspans : aliasSpans "type A = string => number" = some [⟨0, 15⟩] := by decide +kernel
  obtain ⟨reading, item, decl, hread, hnone, hitem, hnode, hspan⟩ := exists_of_aliasSpans hspans
  obtain ⟨before, behind, hbody⟩ := List.append_of_mem hitem
  have hplace : item.node.span = ⟨0, 15⟩ := by
    rw [hnode]
    exact hspan
  obtain ⟨hends, hnext⟩ := endings_of_parse hread
  refine ⟨reading, before, item, behind, hread, hnone, hbody, hends item hitem, hplace, ?_⟩
  rw [hnext hnone before item behind hbody, hplace]
  decide +kernel

/-- Nothing has to close a declaration: in `type A = string => number` the alias is followed by an
arrow, on the same line and without a report. -/
theorem not_forall_closed :
    ¬ ∀ (source : String) (reading : Reading), parse none source = .ok reading →
      reading.diagnostics = [] → ∀ item ∈ reading.program.body, ∀ decl,
        item.node = .declaration (.typeAlias decl) →
          (∃ t ∈ Token.scan source, t.kind = .semicolon ∧ t.span.stop = decl.span.stop) ∨
            ∀ l ∈ lexemeFrom? source decl.span.stop,
              l.token.kind.isClose = true ∨ l.before.lineBreak = true := by
  intro h
  have hspans : aliasSpans "type A = string => number" = some [⟨0, 15⟩] := by decide +kernel
  obtain ⟨reading, item, decl, hread, hnone, hitem, hnode, hspan⟩ := exists_of_aliasSpans hspans
  have hsemicolon : ∀ t ∈ Token.scan "type A = string => number", t.kind ≠ .semicolon := by
    decide +kernel
  have harrow : ¬ ∀ l ∈ lexemeFrom? "type A = string => number" 15,
      l.token.kind.isClose = true ∨ l.before.lineBreak = true := by
    decide +kernel
  obtain ⟨t, ht, hkind, -⟩ | hclosed := h _ reading hread hnone item hitem decl hnode
  · exact hsemicolon t ht hkind
  · rw [hspan] at hclosed
    exact harrow hclosed

end Sources

end Program

end Reifier
