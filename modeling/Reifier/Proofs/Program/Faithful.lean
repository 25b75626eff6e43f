import Reifier.Proofs.Program.Endings
import Reifier.Proofs.TypeExpr.Faithful

/-!
# Spans are faithful

In a program that has been read each node lies in the node that it is a part of, each annotation is
what its part of the source is read as, and the text of each identifier is its name
(`faithful_of_parse`). The types of methods are no annotations: their text is that of no type.

The nodes of a declaration or an import lie in the tokens that are taken for it. The declarations
inside the brackets of a statement are read from cursors of the source like those that are
statements (`ReadsNode`).
-/

namespace Reifier.Program

open Reifier.Parser (Bounds Forward Triple)
open Reifier.TypeExpr
open Node (Hold hold_nil hold_append hold_cons hold_map hold_flatMap)
open Cursor (Sourced)

variable {α β : Type} {limit : Option ℕ} {source : String} {reading : Reading}
  {pre : Cursor → Prop} {w : Span} {exact : Prop} {type : Parser TypeExpr}

/-! ### Nodes that are read from their first token on -/

/-- A parser that is done with a faithful node, which goes from the first to the last token that it
has taken. -/
def ReadsNode (source : String) (node : α → Node) (p : Parser α) : Prop :=
  ∀ c a next, c.Stands source → p c = .done a next → ∃ l run, c.Over (l :: run) next ∧
    (node a).span = Lexeme.spanOf (l :: run) ∧ (node a).Faithful source

namespace ReadsNode

variable {node : α → Node} {p : Parser α}

/-- The children of a node lie in what is taken from its first token on. -/
private theorem of_first {f : Token → Parser α} (hnode : ∀ a id, node a ≠ .identifier id)
    (hf : ∀ (t : Token) (w : Span), t.span.start = w.start → Bounds source (fun _ => True) w True
      (fun a => (node a).span = w ∧ Hold source w (node a).children) (f t)) :
    ReadsNode source node (Parser.advance >>= f) := by
  intro c a next hc hdone
  obtain ⟨l, ls, hrest, hbehind⟩ := Parser.Takes.exists_took hdone
  have hrun : ∀ w : Span, l.token.span.start = w.start → ∃ run, c.Over (l :: run) next ∧
      (Lexeme.LieIn w run → next.spanFrom w.start = w →
        (node a).span = w ∧ Hold source w (node a).children) := by
    intro w hw
    obtain ⟨run, hover, -, ha⟩ := hf l.token w hw _ a next (hc.took hrest) trivial hbehind
    exact ⟨run, (Cursor.Over.take hrest).trans hover, fun hin hend => ha hin fun _ => hend⟩
  obtain ⟨run, hover, -⟩ := hrun l.token.span rfl
  obtain ⟨more, hover', ha⟩ := hrun (Lexeme.spanOf (l :: run)) rfl
  obtain rfl : more = run := (List.cons.inj (hover'.eq hover)).2
  obtain ⟨-, -, hin⟩ := hc.spanOf hover
  obtain ⟨hspan, hchildren⟩ := ha (List.forall_mem_cons.mp hin).2 hover.spanFrom
  exact ⟨l, more, hover, hspan, Node.faithful_of_hold hspan hchildren (hnode a)⟩

/-- What is made of something read as a node, with the same node, is read as this. -/
theorem map {node' : β → Node} {g : α → β} (hp : ReadsNode source node p)
    (hg : ∀ a, node' (g a) = node a) : ReadsNode source node' (p >>= fun a => pure (g a)) := by
  intro c b next hc hdone
  obtain ⟨a, mid, hfirst, hlast⟩ := Parser.exists_of_bind_eq_done hdone
  cases hlast
  obtain ⟨l, run, hover, hspan, hfaithful⟩ := hp c a next hc hfirst
  rw [← hg a] at hspan hfaithful
  exact ⟨l, run, hover, hspan, hfaithful⟩

/-- A test chooses between what is read as nodes. -/
theorem test {view : Cursor → Bool} {q : Parser α} (hp : ReadsNode source node p)
    (hq : ReadsNode source node q) :
    ReadsNode source node (Parser.look view >>= fun yes => if yes = true then p else q) := by
  intro c a next hc hdone
  by_cases hview : view c = true
  · rw [Parser.test_of_true hview] at hdone
    exact hp c a next hc hdone
  · rw [Parser.test_of_not hview] at hdone
    exact hq c a next hc hdone

end ReadsNode

/-! ### Declarations -/

section Declarations

variable (h : Annotates source type unlimited.whole)

include h

private theorem bounds_declarationParams :
    Bounds source pre w exact (fun params => Hold source w (TypeParam.nodesOf params))
      (declarationParams type) :=
  .test (.bind (bounds_typeParams h) fun _ => .pure id) (.pure hold_nil)

/-- An alias is a faithful node. -/
private theorem readsNode_typeAlias :
    ReadsNode source (fun decl => .declaration (.typeAlias decl)) (typeAlias type) := by
  refine .of_first nofun fun first w hstart => ?_
  rw [hstart]
  refine .bind bounds_identifier fun id => .bind (bounds_declarationParams h) fun params => ?_
  refine .expect_bind rfl fun _ => .bind (h.bounds w) fun right => .bind (.eat rfl) fun _ => ?_
  refine .spanFrom_pure fun _ hright hparams hid => ⟨rfl, ?_⟩
  exact hold_cons.mpr ⟨hid, hold_append.mpr ⟨hparams, hright⟩⟩

private theorem bounds_interfaceBases :
    Bounds source pre w exact (fun bases => Hold source w (bases.flatMap Generic.nodes))
      (interfaceBases type) := by
  refine .eatWord_bind ?_ (.pure hold_nil)
  exact Bounds.imp (.commaSeparated (bounds_generic h)) fun _ hbases => hold_flatMap.mpr hbases

/-- An interface is a faithful node. -/
private theorem readsNode_interface :
    ReadsNode source (fun decl => .declaration (.interface decl)) (interface type) := by
  refine .of_first nofun fun first w hstart => ?_
  rw [hstart]
  refine .bind bounds_identifier fun id => .bind (bounds_declarationParams h) fun params => ?_
  refine .bind (bounds_interfaceBases h) fun bases => .test ?_ (.reject _ _)
  refine .bind (bounds_objectType h fun _ hc => hc.2) fun body => .bind (.eat rfl) fun _ => ?_
  refine .spanFrom_pure fun _ hbody hbases hparams hid => ⟨rfl, ?_⟩
  have hheader := hold_append.mpr ⟨hold_append.mpr ⟨hparams, hbases⟩, hbody.2⟩
  exact hold_cons.mpr ⟨hid, hheader⟩

private theorem readsNode_declaration : ReadsNode source .declaration (declaration type) :=
  .test ((readsNode_typeAlias h).map fun _ => rfl) ((readsNode_interface h).map fun _ => rfl)

end Declarations

/-! ### Imports -/

/-- The kind of an import is a word, of which no place is recorded. -/
private theorem bounds_importKind : Bounds source pre w exact (fun _ => True) importKind := by
  have hword : ∀ {pre : Cursor → Prop} (word : String) (found : ImportKind),
      Bounds source (fun c => pre c ∧ importKindAhead word c = true) w exact (fun _ => True)
        (do
          let _ ← Parser.advance
          return found) := by
    intro pre word found
    refine .skip_bind .identifier (fun c hc => ?_) rfl fun _ => .pure trivial
    exact Placement.hasKind_of_isWord (Bool.and_eq_true_iff.mp hc.2).1
  exact .test (hword _ _) (.test (hword _ _) (.pure trivial))

/-- A specifier is faithful, as are its one or two names. -/
private theorem bounds_namedSpecifier :
    Bounds source pre w exact (fun s => Hold source w (ImportSpecifier.nodes s))
      namedSpecifier := by
  have hname : ∀ {pre : Cursor → Prop},
      Bounds source pre w exact (fun s => Hold source w (ImportSpecifier.nodes s))
        (do
          let imported ← identifier
          if ← Parser.eatWord "as" then return .named imported (← identifier)
          else return .named imported imported) := by
    intro pre
    refine .bind bounds_identifier fun imported => .eatWord_bind ?_ (.pure fun himported => ?_)
    · exact .bind bounds_identifier fun id => .pure fun hid himported =>
        hold_cons.mpr ⟨himported, hid⟩
    · exact hold_cons.mpr ⟨himported, himported⟩
  refine .test (.reject _ _) (.test (.skip_bind .identifier (fun c hc => ?_) rfl fun _ => hname)
    hname)
  obtain ⟨hmark, -⟩ := Bool.and_eq_true_iff.mp hc.2
  obtain ⟨hmark, -⟩ := Bool.and_eq_true_iff.mp hmark
  exact (Bool.or_eq_true_iff.mp hmark).elim Placement.hasKind_of_isWord
    Placement.hasKind_of_isWord

private theorem bounds_furtherSpecifiers :
    Bounds source pre w exact (fun all => Hold source w (all.flatMap ImportSpecifier.nodes))
      furtherSpecifiers := by
  refine .eat_bind rfl (.expectWord_bind fun _ => ?_) (.eat_bind rfl ?_ (.reject _ _))
  · refine .bind bounds_identifier fun id => .pure fun hid => ?_
    exact hold_flatMap.mpr (List.forall_mem_singleton.mpr hid)
  · refine .bind (.items bounds_namedSpecifier) fun all => .expect_bind rfl fun _ => ?_
    exact .pure fun hall => hold_flatMap.mpr hall

/-- The specifiers of an import are faithful: the default one and the others. -/
private theorem bounds_importSpecifiers :
    Bounds source pre w exact (fun all => Hold source w (all.flatMap ImportSpecifier.nodes))
      importSpecifiers := by
  refine .test ?_ bounds_furtherSpecifiers
  refine .bind bounds_identifier fun id => .eat_bind rfl ?_ (.pure fun hid => ?_)
  · refine .bind bounds_furtherSpecifiers fun more => .pure fun hmore hid => ?_
    rw [List.flatMap_cons, hold_append]
    exact ⟨hid, hmore⟩
  · exact hold_flatMap.mpr (List.forall_mem_singleton.mpr hid)

private theorem bounds_importClause :
    Bounds source pre w exact (fun all => Hold source w (all.flatMap ImportSpecifier.nodes))
      importClause :=
  .test (.pure hold_nil) (.bind bounds_importSpecifiers fun _ => .expectWord_bind fun _ =>
    .pure id)

private theorem bounds_moduleSource :
    Bounds source pre w exact (fun path => Hold source w [.moduleSource path]) moduleSource := by
  refine .test (.take_bind .string (fun _ hc => hc.2) rfl fun t _ _ => .pure fun ht => ?_)
    (.reject _ _)
  exact Node.hold_singleton rfl hold_nil nofun nofun ht

private theorem readsNode_importDeclaration :
    ReadsNode source (fun decl => .statement (.imports decl)) importDeclaration := by
  refine .of_first nofun fun first w hstart => ?_
  rw [hstart]
  refine .bind bounds_importKind fun kind => .bind bounds_importClause fun specifiers => ?_
  refine .bind bounds_moduleSource fun path => .bind (.eat rfl) fun _ => ?_
  exact .spanFrom_pure fun _ hpath hspecifiers _ => ⟨rfl, hold_append.mpr ⟨hspecifiers, hpath⟩⟩

/-! ### Statements -/

section Statements

variable (h : Annotates source type unlimited.whole)

include h

/-- The declarations inside brackets are faithful. -/
private theorem faithful_of_verbatimLoop
    (htype : Forward (Sourced source) (TypeExpr.OfSource source) type)
    {rounds depth : ℕ} {previous : Option Token.Kind} {c d : Cursor}
    {found : List (Item Declaration)} (hc : c.Sourced source) (hstands : c.Stands source)
    (hrun : verbatimLoop type rounds depth previous c = .done found d) :
    ∀ inner ∈ found, (Node.declaration inner.node).Faithful source := by
  refine verbatimLoop_induction (P := fun _ c found => c.Stands source →
    ∀ inner ∈ found, (Node.declaration inner.node).Faithful source)
    htype ?nil ?item ?last ?text hc hrun hstands
  case nil => exact fun _ _ _ => List.forall_mem_nil _
  case item =>
    intro n depth previous c l ls decl next more _ _ _ hread _ hmore hstands
    obtain ⟨m, run, hover, -, hdecl⟩ :=
      readsNode_declaration h c.settled decl next hstands.settled hread
    exact List.forall_mem_cons.mpr ⟨hdecl, hmore (hstands.settled.goes hover)⟩
  case last => exact fun _ _ _ _ => List.forall_mem_nil _
  case text =>
    intro previous c l ls e found hrest he hfound hstands
    have hahead : e.Stands source := hstands.of_tokens (by rw [he.rest, hrest]; rfl)
      (by rw [he.rest, hrest]; rfl)
    exact hfound (hahead.took he.rest)

/-- What is faithful in a statement: the statement, or the declarations inside its brackets. -/
def StatementFaithful (source : String) : Statement → Prop
  | .verbatim text => ∀ inner ∈ text.nested, (Node.declaration inner.node).Faithful source
  | stmt => (Node.statement stmt).Faithful source

omit h in
private theorem faithful_statement_of_declaration {decl : Declaration}
    (hdecl : (Node.declaration decl).Faithful source) :
    (Node.statement (.declaration decl)).Faithful source := by
  refine .mk (List.forall_mem_singleton.mpr (Span.encloses_refl _)) (fun _ t ht => ?_) nofun
    (List.forall_mem_singleton.mpr hdecl)
  cases List.mem_singleton.mp ht

/-- What is exported lies behind the first word. -/
private theorem statementFaithful_export {c d : Cursor} {stmt : Statement}
    (hstands : c.Stands source) (hrun : (do
      let first ← Parser.advance
      let decl ← declaration type
      return (.exports ⟨.type, decl, ← Parser.spanFrom first.span.start⟩ : Statement)) c =
        .done stmt d) : StatementFaithful source stmt := by
  obtain ⟨first, ls, hrest, hbehind⟩ := Parser.Takes.exists_took hrun
  obtain ⟨decl, next, hdecl, hlast⟩ := Parser.exists_of_bind_eq_done hbehind
  cases hlast
  obtain ⟨l, run, hover, hspan, hfaithful⟩ :=
    readsNode_declaration h _ decl d (hstands.took hrest) hdecl
  have hall : c.Over (first :: l :: run) d := (Cursor.Over.take hrest).trans hover
  obtain ⟨-, -, hin⟩ := hstands.spanOf hall
  have hencloses := (hstands.took hrest).encloses hover (List.forall_mem_cons.mp hin).2
  rw [← hspan, ← hall.spanFrom] at hencloses
  refine .mk (List.forall_mem_singleton.mpr hencloses) (fun _ t ht => ?_) nofun
    (List.forall_mem_singleton.mpr hfaithful)
  cases List.mem_singleton.mp ht

omit h in
private theorem triple_of_done {P : α → Prop} {p : Parser α} {c : Cursor}
    (hdone : ∀ a d, p c = .done a d → P a) :
    Triple (· = c) p (fun a _ => P a) fun _ => True := by
  rintro _ rfl
  cases hrun : p _ with
  | done a d => exact hdone a d hrun
  | failed d => trivial
  | halted cause d => trivial

/-- What is to be faithful in a statement is so. The cases are the kinds of statements. -/
private theorem statementFaithful_statement
    (htype : Forward (Sourced source) (TypeExpr.OfSource source) type) {c d : Cursor}
    {stmt : Statement} (hc : c.Sourced source) (hstands : c.Stands source)
    (hrun : statement type c = .done stmt d) : StatementFaithful source stmt := by
  have hnode : ∀ {α : Type} {node : α → Node} {p : Parser α}, ReadsNode source node p →
      Triple (· = c) p (fun a _ => (node a).Faithful source) fun _ => True := by
    refine fun hp => triple_of_done fun a next hdone => ?_
    obtain ⟨l, run, -, -, hfaithful⟩ := hp c a next hstands hdone
    exact hfaithful
  have hverbatim : Triple (· = c) (verbatim type)
      (fun text _ => StatementFaithful source (.verbatim text)) fun _ => True := by
    have hloop : Triple (· = c) (Parser.rounds (verbatimLoop type · 0 none))
        (fun found _ => ∀ inner ∈ found, (Node.declaration inner.node).Faithful source)
        fun _ => True :=
      .rounds fun n => triple_of_done fun found next =>
        faithful_of_verbatimLoop h htype hc hstands
    refine .look_bind fun _ => .look_bind fun _ => ?_
    refine .bind (hloop.anti fun _ he => he.1.1) fun found => ?_
    exact .look_bind fun _ => .look_bind fun _ => .pure fun _ hd => hd.1.1
  have hstatement : Triple (· = c) (statement type)
      (fun stmt _ => StatementFaithful source stmt) fun _ => True := by
    refine .test (.bind ((hnode (readsNode_declaration h)).anti fun _ he => he.1) fun decl =>
      .pure fun _ hdecl => faithful_statement_of_declaration hdecl) ?_
    refine .test (.bind ((hnode readsNode_importDeclaration).anti fun _ he => he.1) fun decl =>
      .pure fun _ => id) (.test ?_ (.bind hverbatim fun text => .pure fun _ => id))
    exact (triple_of_done fun stmt next => statementFaithful_export h hstands).anti
      fun _ he => he.1
  have hdone := hstatement c rfl
  rwa [hrun] at hdone

end Statements

/-! ### Programs -/

/-- The statements of a program are faithful nodes. -/
private theorem ReadsAs.faithful {segs : List (Segment Statement)} {after : Trivia}
    (h : ReadsAs limit source reading segs after) {item : Item Statement}
    (hitem : item ∈ reading.program.body) : (Node.statement item.node).Faithful source := by
  obtain ⟨before, behind, hbody⟩ := List.append_of_mem hitem
  obtain ⟨front, back, l, more, rfl, -, knots, b, next, last, hb, -, hfront, -, -, hread, -⟩ :=
    h.exists_read hbody
  have hstart : (sourceStart source).Stands source :=
    ⟨[], _, (Lexeme.ofTokens (Token.scan source)).2, rfl, rfl, rfl⟩
  have hfound := statementFaithful_statement (annotates_nested source limit knots).1
    (forward_nested source limit knots).1 hb.settled (hstart.goes hfront).settled hread
  cases hnode : item.node with
  | verbatim text =>
    rw [hnode] at hfound
    obtain ⟨_, inside, _, -, hordered, hnested, hlaid, hencloses⟩ := h.nested hitem hnode
    refine .mk (List.forall_mem_map.mpr fun inner hinner => ?_) (fun _ t ht => ?_) nofun
      (List.forall_mem_map.mpr hfound)
    · rw [hnested] at hinner
      exact (hlaid.joins (fun _ _ _ hdecl => hdecl.2) hordered hinner).enclosed hencloses
    · obtain ⟨inner, -, heq⟩ := List.mem_map.mp ht
      cases heq
  | declaration decl => rwa [hnode] at hfound
  | imports decl => rwa [hnode] at hfound
  | exports decl => rwa [hnode] at hfound

/-- **Spans are faithful.** Below each statement of a program that has been read, each node lies in
the one that it is a child of. Each annotation, that is, each type expression other than the value
of a method, is what its part of the source is read as, in its place behind `type X = ` and without
a limit. The text of each identifier is its name. -/
theorem faithful_of_parse (h : parse limit source = .ok reading) {item : Item Statement}
    (hitem : item ∈ reading.program.body) {n : Node}
    (hn : Relation.ReflTransGen Node.IsChild (.statement item.node) n) :
    (∀ m ∈ n.children, n.span.encloses m.span = true) ∧
      (∀ t, .type t ∈ n.children → ¬ n.IsMethod source → t.ReadsBack source) ∧
      ∀ id, n = .identifier id → Text.slice? source.toList id.span = some id.name.toList := by
  obtain ⟨segs, after, hreads, -⟩ := exists_readsAs_of_parse h
  cases (hreads.faithful hitem).of_inside hn with
  | mk inside annotations names _ => exact ⟨inside, fun t ht hnot => annotations hnot t ht, names⟩

/-- The node that a path of indices leads to from a node on. -/
def nodeAt? (n : Node) : List ℕ → Option Node
  | [] => some n
  | i :: path => n.children[i]?.bind (nodeAt? · path)

/-- A path through children leads to what is inside of a node. -/
private theorem reflTransGen_of_nodeAt? {n m : Node} {path : List ℕ} (h : nodeAt? n path = some m) :
    Relation.ReflTransGen Node.IsChild n m := by
  induction path generalizing n with
  | nil =>
    cases h
    exact .refl
  | cons i path ih =>
    obtain ⟨child, hchild, hm⟩ := Option.bind_eq_some_iff.mp h
    exact .head (List.mem_of_getElem? hchild) (ih hm)

/-- The property that a path leads to from the first statement of a source on. -/
def propertyAt? (source : String) (path : List ℕ) : Option (Property TypeExpr) := do
  let reading ← (parse none source).toOption
  let item ← reading.program.body.head?
  match ← nodeAt? (.statement item.node) path with
  | .property p => some p
  | _ => none

/-- A property found on a path in a source is inside a statement that is read. -/
private theorem exists_of_propertyAt? {path : List ℕ} {p : Property TypeExpr}
    (h : propertyAt? source path = some p) :
    ∃ reading, parse none source = .ok reading ∧ ∃ item ∈ reading.program.body,
      Relation.ReflTransGen Node.IsChild (.statement item.node) (.property p) := by
  obtain ⟨reading, hreading, hrest⟩ := Option.bind_eq_some_iff.mp h
  obtain ⟨item, hitem, hrest⟩ := Option.bind_eq_some_iff.mp hrest
  obtain ⟨n, hn, hp⟩ := Option.bind_eq_some_iff.mp hrest
  have hparse : parse none source = .ok reading := by
    cases hread : parse none source with
    | error cause =>
      rw [hread] at hreading
      cases hreading
    | ok found =>
      rw [hread] at hreading
      cases hreading
      rfl
  cases n with
  | property q =>
    cases hp
    exact ⟨reading, hparse, item, List.mem_of_head? hitem, reflTransGen_of_nodeAt? hn⟩
  | _ => cases hp

/-- The first member is a method, so its value is no annotation; that of the second one is. -/
theorem faithful_of_parse_member :
    ∃ reading, parse none "type A = \x7b m(x: B): C, k?: D[] \x7d" = .ok reading ∧
      ∃ item ∈ reading.program.body, ∃ p, p.value.span = ⟨27, 30⟩ ∧
        Relation.ReflTransGen Node.IsChild (.statement item.node) (.property p) ∧
        p.value.ReadsBack "type A = \x7b m(x: B): C, k?: D[] \x7d" := by
  have hfound : (propertyAt? "type A = \x7b m(x: B): C, k?: D[] \x7d" [0, 1, 1]).map
      (fun p => (p.value.span, decide (p.IsMethod "type A = \x7b m(x: B): C, k?: D[] \x7d"))) =
        some (⟨27, 30⟩, false) := by
    decide +kernel
  obtain ⟨p, hp, hvalue⟩ := Option.map_eq_some_iff.mp hfound
  obtain ⟨hspan, hnot⟩ := Prod.mk.inj hvalue
  obtain ⟨reading, hread, item, hitem, hpath⟩ := exists_of_propertyAt? hp
  have hplain := of_decide_eq_false hnot
  obtain ⟨-, hannotations, -⟩ := faithful_of_parse hread hitem hpath
  have hvalue := hannotations p.value (List.mem_append_right _ List.mem_cons_self) hplain
  exact ⟨reading, hread, item, hitem, p, hspan, hpath, hvalue⟩

end Reifier.Program
