import Reifier.Proofs.Parser.Bounds
import Reifier.Proofs.Program.Nodes
import Reifier.Proofs.TypeExpr.Alone
import Reifier.Proofs.TypeExpr.Balance

/-!
# Where type expressions and what they are made of stand

What a production reads lies in the span of the tokens that it takes, and each type expression in it
is what these tokens are read as where they stand alone (`annotates_nested`). Each production keeps
this, given that the parsers for the type expressions inside it do.

A value with a span of its own is a node, and its children are compared with this span. A type
expression that stands for itself at several levels has the span of the tightest one: the others may
have taken an operator in front of it.
-/

namespace Reifier

variable {α : Type}

/-- What is read with at least one lexeme leaves fewer lexemes. -/
theorem Parser.Repeats.shortens {p q : Parser α} {least : ℕ}
    (h : ∀ σ, Repeats σ 0 least 0 p q) (hleast : 0 < least) {c next : Cursor} {a : α}
    (hdone : p c = .done a next) : next.rest.length < c.rest.length := by
  have htakes := (h ⟨0, [], [], List.forall_mem_nil _⟩).takes c next a hdone
  omega

/-- A dotted name that begins and ends with a span has this span if all its segments lie in it. -/
private theorem QualifiedName.span_eq (q : QualifiedName) {w : Span}
    (hstart : q.head.span.start = w.start) (hstop : q.last.span.stop = w.stop)
    (h : ∀ id ∈ q.segments, w.encloses id.span = true) : q.span = w := by
  have hhead := Span.encloses_iff.mp (h _ List.mem_cons_self)
  have hlast := Span.encloses_iff.mp (h _ q.last_mem_segments)
  rw [span, Span.cover]
  exact congrArg₂ Span.mk (by omega) (by omega)

/-! ### Methods -/

/-- From `start` up to the cursor there is no colon in the source. -/
def Cursor.NoColon (source : String) (start : ℕ) (c : Cursor) : Prop :=
  ∀ t ∈ Token.scan source, t.kind = .colon → start ≤ t.span.start → c.nextStart ≤ t.span.start

/-- A token of another kind has been taken. -/
private theorem Cursor.NoColon.took {source : String} {start : ℕ} {c : Cursor} {l : Lexeme}
    {ls : List Lexeme} (h : c.NoColon source start) (hc : c.Stands source)
    (hrest : c.rest = l :: ls) (hkind : l.token.kind ≠ .colon) :
    (c.took l ls).NoColon source start := by
  intro t ht hcolon hstart
  obtain ⟨k, hk, rfl⟩ :=
    hc.exists_of_nextStart_le hrest ht (by rw [hcolon]; rfl) (h t ht hcolon hstart)
  rw [hrest] at hk
  rcases List.mem_cons.mp hk with rfl | hk
  · exact absurd hcolon hkind
  · exact (hc.took hrest).nextStart_le hk

namespace TypeExpr

open Reifier.Parser (Bounds Repeats ReadsAlone Turns)
open Node (Hold hold_nil hold_append hold_cons hold_map hold_flatMap)

variable {source : String} {pre : Cursor → Prop} {w : Span} {exact : Prop}

/-! ### Parsers for type expressions -/

/-- A parser for type expressions whose values lie in what is taken for them. What it reads it also
reads where this stands alone, and it leaves no brackets open. -/
structure Annotates (source : String) (type whole : Parser TypeExpr) : Prop where
  bounds (w : Span) : Bounds source (fun _ => True) w False (fun t => Hold source w [.type t]) type
  repeats (σ : Excerpt) (taken spare : ℕ) : Repeats σ taken 1 spare type whole
  turns (opened : List Token.Kind) : Turns [] ⟨opened, false⟩ ⟨opened, true⟩ type

/-- A type expression from the first token that is taken to the last one is read back if these
tokens are read as the type expression where they stand alone. -/
private theorem readsBack_of_cuts {c next : Cursor} {l : Lexeme} {run : List Lexeme} {t : TypeExpr}
    (hcuts : c.Cuts source l run next) (hspan : t.span = Lexeme.spanOf (l :: run))
    (hread : ReadsAlone unlimited.whole (l :: run) t) : t.ReadsBack source := by
  obtain ⟨front, m, after, hscan, hm, hsame, -⟩ := hcuts.stands.exists_lexemes hcuts.taken
  refine Program.readsBack_of_readsAlone hscan (fun k hk => ?_) (hspan.trans hsame.symm) ?_
  · rcases List.mem_cons.mp (List.mem_of_getLast? hk) with rfl | hk
    · rw [hm]
      exact hcuts.closed l List.mem_cons_self
    · exact hcuts.closed k (List.mem_cons_of_mem l hk)
  · intro d ahead stop hrest htokens
    refine hread d ahead stop hrest (htokens.trans ?_)
    rw [List.map_cons, List.map_cons, hm]

/-- **A level of the grammar.** Its values are type expressions that begin and end where it does, or
those of a tighter level. -/
theorem bounds_level {p q : Parser TypeExpr}
    (hrepeats : ∀ σ, Repeats σ 0 1 0 p q)
    (hlift : ∀ run t, ReadsAlone q run t → ReadsAlone unlimited.whole run t)
    (hp : ∀ w, Bounds source (fun c => pre c ∧ c.nextStart = w.start) w True
      (fun t => Hold source w [.type t] ∨ t.span = w ∧ Hold source w t.shape.nodes) p) :
    Bounds source pre w exact (fun t => Hold source w [.type t]) p := by
  refine .node (fun c a next => Repeats.shortens hrepeats Nat.zero_lt_one) hp ?_
  rintro c l run next t - hcuts hdone hw (hheld | ⟨hspan, hparts⟩)
  · exact hheld.mono hw
  · have halone := hlift _ _ (ReadsAlone.of_repeats hrepeats hdone hcuts.taken.rest)
    exact Node.hold_type hspan hparts (readsBack_of_cuts hcuts hspan halone) hw

/-! ### Names and arguments -/

theorem bounds_identifier :
    Bounds source pre w exact (fun id => Hold source w [.identifier id]) identifier :=
  .test (.take_bind .identifier (fun _ hc => hc.2) rfl fun _ ht _ =>
    .pure fun hw => Node.hold_identifier ht hw) (.reject _ _)

/-- The segments behind the first one lie in what is taken. -/
private theorem bounds_segmentsLoop (n : ℕ) :
    Bounds source (fun _ => True) w exact (fun ids => Hold source w (ids.map .identifier))
      (segmentsLoop n) := by
  induction n generalizing exact with
  | zero => exact .halt _
  | succ n ih =>
    refine .test (.skip_bind .dot (fun c hc => (Bool.and_eq_true_iff.mp hc.2).1) rfl fun _ => ?_)
      (.pure hold_nil)
    refine .bind bounds_identifier fun first => .bind ih fun more => .pure fun hmore hfirst => ?_
    exact hold_cons.mpr ⟨hfirst, hmore⟩

/-- The last segment ends where the last token has ended. -/
private theorem lastEnd_segmentsLoop {n : ℕ} {c next : Cursor} {tail : List Identifier}
    (h : segmentsLoop n c = .done tail next) :
    next.lastEnd = (tail.getLast?.map (·.span.stop)).getD c.lastEnd := by
  induction n generalizing c tail with
  | zero => cases h
  | succ n ih =>
    rw [segmentsLoop] at h
    by_cases hahead : (c.hasKind 0 .dot && c.hasKind 1 .identifier) = true
    · rw [Parser.test_of_true hahead] at h
      obtain ⟨dot, ls, hrest, hbehind⟩ := Parser.Takes.exists_took h
      obtain ⟨first, mid, hfirst, hrounds⟩ := Parser.exists_of_bind_eq_done hbehind
      obtain ⟨more, last, hmore, hdone⟩ := Parser.exists_of_bind_eq_done hrounds
      cases hdone
      obtain ⟨l, ls', -, rfl, rfl⟩ := identifier_eq_done hfirst
      rw [ih hmore, List.getLast?_cons]
      cases more.getLast? <;> rfl
    · rw [Parser.test_of_not hahead] at h
      cases h
      rfl

/-- A dotted name goes from the next token to the last one that is taken. -/
private theorem ends_qualifiedName {c next : Cursor} {q : QualifiedName}
    (h : qualifiedName c = .done q next) :
    q.head.span.start = c.nextStart ∧ q.last.span.stop = next.lastEnd := by
  rw [qualifiedName] at h
  obtain ⟨head, mid, hhead, hbehind⟩ := Parser.exists_of_bind_eq_done h
  obtain ⟨tail, last, htail, hdone⟩ := Parser.exists_of_bind_eq_done hbehind
  cases hdone
  obtain ⟨l, ls, hrest, rfl, rfl⟩ := identifier_eq_done hhead
  refine ⟨?_, ?_⟩
  · rw [Cursor.nextStart, hrest]
  · rw [lastEnd_segmentsLoop htail, QualifiedName.last]
    dsimp only
    cases tail.getLast? <;> rfl

/-- A qualified name is faithful: the lexemes that are taken for it are its text. -/
private theorem bounds_qualifiedName :
    Bounds source pre w exact (fun q => Hold source w [.name q]) qualifiedName := by
  refine .node (Q := fun w q => Hold source w (q.segments.map .identifier))
    (fun c a next => Repeats.shortens (fun _ => repeats_qualifiedName) Nat.zero_lt_one) ?_ ?_
  · refine fun w => .bind bounds_identifier fun head => .bind (.rounds bounds_segmentsLoop) ?_
    exact fun tail => .pure fun htail hhead => hold_cons.mpr ⟨hhead, htail⟩
  · intro c l run next q _ hcuts hdone hw hsegments
    obtain ⟨hstart, hstop⟩ := ends_qualifiedName hdone
    obtain ⟨hfirst, hlast, -⟩ := hcuts.stands.spanOf hcuts.taken
    have hspan : q.span = Lexeme.spanOf (l :: run) :=
      q.span_eq (hstart.trans hfirst.symm) (hstop.trans hlast.symm) fun id hid =>
        (hsegments _ (List.mem_map_of_mem hid)).1
    exact Node.hold_singleton hspan hsegments nofun nofun hw

private theorem bounds_variance : Bounds source pre w exact (fun _ => True) variance :=
  .test (.skip_or_bind .plus .minus (fun _ hc => hc.2) rfl rfl fun _ => .pure trivial)
    (.pure trivial)

section

variable {type : Parser TypeExpr} (h : Annotates source type unlimited.whole)

include h

/-- A type expression in a list. -/
private theorem bounds_items {close : Token.Kind} :
    Bounds source pre w exact (fun ts => Hold source w (ts.map .type)) (Parser.items close type) :=
  Bounds.imp (.items (h.bounds w)) fun _ hts => hold_map.mpr hts

private theorem bounds_typeArgs :
    Bounds source pre w exact (fun args => Hold source w (args.map .type)) (typeArgs type) :=
  .expect_bind rfl fun _ => .bind (bounds_items h) fun _ => .expect_bind rfl fun _ => .pure id

theorem bounds_generic :
    Bounds source pre w exact (fun g => Hold source w g.nodes) (generic type) := by
  refine .bind bounds_qualifiedName fun name => .test ?_ (.pure fun hname => ?_)
  · exact .bind (bounds_typeArgs h) fun args => .pure fun hargs hname =>
      hold_cons.mpr ⟨hname, hargs⟩
  · exact hname

/-- A type parameter is faithful, as are its bound and its default. -/
private theorem bounds_typeParam :
    Bounds source pre w exact (fun p => Hold source w [.typeParam p]) (typeParam type) := by
  refine .node (Q := fun w p => p.span = w ∧ Hold source w (Node.typeParam p).children)
    (fun c a next => Repeats.shortens (fun σ => repeats_typeParam (h.repeats σ)) Nat.zero_lt_one)
    (fun w => ?_) ?_
  · refine .nextStart_bind (fun _ hc => hc.2) (.bind bounds_variance fun _ => ?_)
    refine .bind bounds_identifier fun name => ?_
    refine .bind (.after? rfl (h.bounds w)) fun bound => ?_
    refine .bind (.after? rfl (h.bounds w)) fun default => .spanFrom_pure ?_
    refine fun hdefault hbound hname _ => ⟨rfl, hold_cons.mpr ⟨hname, ?_⟩⟩
    rw [List.map_append, hold_append, hold_map, hold_map]
    exact ⟨by simpa using hbound, by simpa using hdefault⟩
  · rintro c l run next p - - - hw ⟨hspan, hchildren⟩
    exact Node.hold_singleton hspan hchildren nofun nofun hw

theorem bounds_typeParams :
    Bounds source pre w exact (fun ps => Hold source w (ps.map .typeParam)) (typeParams type) := by
  refine .expect_bind rfl fun _ => .bind (.items (bounds_typeParam h)) fun ps => ?_
  exact .expect_bind rfl fun _ => .pure fun hps => hold_map.mpr hps

/-! ### Functions -/

/-- A parameter is faithful, with a name or without one. -/
private theorem bounds_param :
    Bounds source pre w exact (fun p => Hold source w p.nodes) (param type) := by
  refine .test ?_ (.bind (h.bounds w).always fun t => .pure fun ht => ?_)
  · -- A colon follows the name, or a question mark and a colon.
    refine .bind_where ColonAhead ?_ bounds_identifier fun name => ?_
    · rintro c a next - ⟨-, hnamed⟩ hdone
      obtain ⟨l, ls, hrest, -, rfl⟩ := identifier_eq_done hdone
      rw [namedParamAhead, Bool.and_eq_true, Bool.or_eq_true, Bool.and_eq_true] at hnamed
      simp only [ColonAhead, Cursor.hasKind_took hrest]
      exact hnamed.2
    refine .bind_where (fun c => c.hasKind 0 .colon = true) ?_ (.eat rfl) fun optional => ?_
    · intro c a next _ hcolon hdone
      have hafter := triple_eat_question c c ⟨.refl [] true c, hcolon⟩
      rw [hdone] at hafter
      exact hafter.2
    refine .skip_bind .colon (fun _ => id) rfl fun _ => ?_
    exact .bind (h.bounds w) fun t => .pure fun ht _ hname => hold_append.mpr ⟨hname, ht⟩
  · exact ht

/-- The nodes of parameters and a rest parameter. -/
def paramsNodes (all : List (Param TypeExpr) × Option (Param TypeExpr)) : List Node :=
  all.1.flatMap Param.nodes ++ all.2.toList.flatMap Param.nodes

/-- Parameters are faithful. The induction is on the rounds of the loop. -/
private theorem bounds_params :
    Bounds source pre w exact (fun all => Hold source w (paramsNodes all)) (params type) := by
  have hloop : ∀ n, Bounds source (fun _ => True) w False
      (fun all => Hold source w (paramsNodes all)) (paramsLoop type n) := by
    intro n
    induction n with
    | zero => exact .halt _
    | succ n ih =>
      refine .test (.pure hold_nil) (.eat_bind rfl ?_ ?_)
      · refine .bind (bounds_param h) fun rest => .bind (.eat rfl) fun _ => .pure fun _ hrest => ?_
        exact hold_append.mpr ⟨hold_nil, hold_flatMap.mpr (List.forall_mem_singleton.mpr hrest)⟩
      · refine .bind (bounds_param h) fun first => .eat_bind rfl ?_ (.pure fun hfirst => ?_)
        · refine .bind ih fun all => .pure fun hall hfirst => ?_
          rw [paramsNodes, List.flatMap_cons, List.append_assoc, hold_append]
          exact ⟨hfirst, hall⟩
        · rw [paramsNodes, hold_append, List.flatMap_singleton]
          exact ⟨hfirst, hold_nil⟩
  exact .expect_bind rfl fun _ => .bind (.rounds hloop) fun _ => .expect_bind rfl fun _ => .pure id

private theorem bounds_function (separator : Token.Kind) (hclosed : separator.isClosed = true)
    (spelling : String) :
    Bounds source pre w exact (fun shape => Hold source w shape.nodes)
      (function type separator spelling) := by
  refine .bind (bounds_params h) fun all => .expect_bind hclosed fun _ => ?_
  exact .bind (h.bounds w) fun result => .pure fun hresult hall =>
    hold_append.mpr ⟨hall, hresult⟩

/-- What is read with a parenthesis in front, within the span from there on. -/
private theorem bounds_parenthesized (hpre : ∀ c, pre c → c.hasKind 0 .parenOpen = true)
    (hstart : ∀ c, pre c → c.nextStart = w.start) :
    Bounds source pre w True (fun t => t.span = w ∧ Hold source w t.shape.nodes)
      (parenthesized type) := by
  refine .nextStart_bind hstart (.test ?_ ?_)
  · exact .bind (bounds_function h _ rfl _) fun shape => .spanFrom_pure fun hshape => ⟨rfl, hshape⟩
  · refine .skip_bind .parenOpen (fun c hc => hpre c hc.1) rfl fun _ => ?_
    refine .bind (h.bounds w) fun inner => .expect_bind rfl fun _ => .eat_bind rfl ?_ ?_
    · refine .bind (h.bounds w) fun result => .spanFrom_pure fun hresult hinner => ⟨rfl, ?_⟩
      exact hold_cons.mpr ⟨hinner, hresult⟩
    · exact .spanFrom_pure fun hinner => ⟨rfl, hinner.parts⟩

/-! ### Object types -/

omit h in
/-- The name of an indexer, if it has one, is faithful. -/
private theorem bounds_indexerName :
    Bounds source pre w exact (fun id? => Hold source w (id?.toList.map .identifier))
      indexerName := by
  refine .test ?_ (.pure hold_nil)
  refine .bind_where (fun c => c.hasKind 0 .colon = true) ?_ bounds_identifier fun name => ?_
  · rintro c a next - ⟨-, hnamed⟩ hdone
    obtain ⟨l, ls, hrest, -, rfl⟩ := identifier_eq_done hdone
    rw [Cursor.hasKind_took hrest]
    exact (Bool.and_eq_true_iff.mp hnamed).2
  · exact .skip_bind .colon (fun _ => id) rfl fun _ => .pure id

private theorem bounds_indexer (hpre : ∀ c, pre c → c.hasKind 0 .bracketOpen = true) :
    Bounds source pre w True (fun i => i.span = w ∧ Hold source w (Node.indexer i).children)
      (indexer type w.start) := by
  refine .skip_bind .bracketOpen hpre rfl fun _ => .bind bounds_indexerName fun id => ?_
  refine .bind (h.bounds w) fun key => .expect_bind rfl fun _ => .expect_bind rfl fun _ => ?_
  refine .bind (h.bounds w) fun value => .spanFrom_pure fun hvalue hkey hid => ⟨rfl, ?_⟩
  exact hold_append.mpr ⟨hid, hold_cons.mpr ⟨hkey, hvalue⟩⟩

omit h in
private theorem bounds_propertyKey :
    Bounds source pre w exact (fun key => Hold source w key.nodes) propertyKey := by
  refine .test (.bind bounds_identifier fun id => .pure fun hid => hid) (.test ?_ (.reject _ _))
  exact .skip_bind .string (fun _ hc => hc.2) rfl fun _ => .pure hold_nil

omit h in
/-- The key of a property is no colon. -/
private theorem noColon_propertyKey {start : ℕ} {c next : Cursor} {key : PropertyKey}
    (hc : c.Stands source) (hcolon : c.NoColon source start)
    (hdone : propertyKey c = .done key next) : next.NoColon source start := by
  rw [propertyKey, Parser.nextIs] at hdone
  by_cases hid : c.hasKind 0 .identifier = true
  · rw [Parser.test_of_true hid] at hdone
    obtain ⟨id, mid, hfirst, hlast⟩ := Parser.exists_of_bind_eq_done hdone
    cases hlast
    obtain ⟨l, ls, hrest, -, rfl⟩ := identifier_eq_done hfirst
    refine hcolon.took hc hrest ?_
    rw [Cursor.kind_of_hasKind hid hrest]
    decide
  · rw [Parser.test_of_not hid, Parser.nextIs] at hdone
    by_cases hstring : c.hasKind 0 .string = true
    · rw [Parser.test_of_true hstring] at hdone
      obtain ⟨l, ls, hrest, hlast⟩ := Parser.Takes.exists_took hdone
      cases hlast
      refine hcolon.took hc hrest ?_
      rw [Cursor.kind_of_hasKind hstring hrest]
      decide
    · rw [Parser.test_of_not hstring] at hdone
      cases hdone

omit h in
/-- A sign of variance is no colon. -/
private theorem noColon_variance {start : ℕ} {c next : Cursor} {u : Unit} (hc : c.Stands source)
    (hcolon : c.NoColon source start) (hdone : variance c = .done u next) :
    next.NoColon source start := by
  rw [variance] at hdone
  by_cases hsign : (c.hasKind 0 .plus || c.hasKind 0 .minus) = true
  · rw [Parser.test_of_true hsign] at hdone
    obtain ⟨l, ls, hrest, hlast⟩ := Parser.Takes.exists_took hdone
    cases hlast
    refine hcolon.took hc hrest ?_
    rcases Bool.or_eq_true_iff.mp hsign with hkind | hkind
    all_goals
      rw [Cursor.kind_of_hasKind hkind hrest]
      decide
  · rw [Parser.test_of_not hsign] at hdone
    cases hdone
    exact hcolon

/-- The value of a method begins where the method type is read from. -/
private theorem bounds_method :
    Bounds source pre w exact (fun t => w.encloses t.span = true ∧
      (Node.type t).Faithful source ∧ ∃ c, pre c ∧ t.span.start = c.nextStart) (method type) := by
  refine .node (Q := fun w t => t.span = w ∧ Hold source w t.shape.nodes)
    (fun c a next => Repeats.shortens (fun σ => repeats_method (h.repeats σ)) Nat.zero_lt_one)
    (fun w => ?_) ?_
  · have hrest : Bounds source (fun _ => True) w True
        (fun t : TypeExpr => t.span = w ∧ Hold source w t.shape.nodes) (do
          let shape ← function type .colon ":"
          return ⟨shape, ← Parser.spanFrom w.start⟩) :=
      .bind (bounds_function h _ rfl _) fun shape => .spanFrom_pure fun hshape => ⟨rfl, hshape⟩
    refine .nextStart_bind (fun _ hc => hc.2) (.look_bind fun generic => ?_)
    cases generic with
    | true => exact .bind (bounds_typeParams h) fun _ => hrest.imp fun _ ht _ => ht
    | false => exact hrest.anti fun _ _ => trivial
  · rintro c l run next ⟨shape, span⟩ hpre hcuts - hw ⟨hspan, hparts⟩
    obtain rfl : span = Lexeme.spanOf (l :: run) := hspan
    exact ⟨hw, Node.faithful_of_hold rfl hparts nofun, c, hpre,
      (hcuts.stands.spanOf hcuts.taken).1⟩

/-- A property is faithful. If it is a method there is no colon before the value, by which it is
told apart. -/
private theorem bounds_property (hpre : ∀ c, pre c → c.NoColon source w.start) :
    Bounds source pre w True (fun p => p.span = w ∧ (Node.property p).Faithful source)
      (property type w.start) := by
  refine .bind_where (Cursor.NoColon source w.start)
    (fun c key next hc hpc => noColon_propertyKey hc (hpre c hpc)) bounds_propertyKey fun key => ?_
  refine .test ?_ ?_
  · refine .bind (bounds_method h) fun value => .spanFrom_pure ?_
    rintro ⟨hvalue, hfaithful, c, ⟨hcolon, -⟩, hstart⟩ hkey
    refine ⟨rfl, Node.faithful_method (fun t ht hkind hbegin => ?_) hkey hvalue hfaithful⟩
    dsimp only
    rw [hstart]
    exact hcolon t ht hkind hbegin
  · refine .bind (.eat rfl) fun optional => .expect_bind rfl fun _ => ?_
    refine .bind (h.bounds w) fun value => .spanFrom_pure fun hvalue _ hkey => ⟨rfl, ?_⟩
    exact Node.faithful_of_hold rfl (hold_append.mpr ⟨hkey, hvalue⟩) nofun

/-- A member is put in front of the other ones. -/
private theorem bounds_member :
    Bounds source pre w exact
      (fun add => ∀ o, Hold source w o.nodes → Hold source w (add o).nodes) (member type) := by
  refine .node (Q := fun w add => ∃ m : Node, (∀ o, ∀ n ∈ (add o).nodes, n = m ∨ n ∈ o.nodes) ∧
      m.span = w ∧ m.Faithful source ∧ ∀ t, m ≠ .type t)
    (fun c a next => Repeats.shortens (fun σ => repeats_member (h.repeats σ)) Nat.zero_lt_one)
    (fun w => ?_) ?_
  · refine .nextStart_bind (fun _ hc => hc.2) ?_
    refine .bind_where (Cursor.NoColon source w.start) ?_ bounds_variance fun _ => ?_
    · intro c u next hc hpc
      refine noColon_variance hc fun t _ _ hbegin => ?_
      rwa [hpc.2]
    refine .test (.reject _ _) (.test (.reject _ _) (.test ?_ ?_))
    · refine .map (bounds_indexer h fun _ hc => hc.2) fun i ⟨hspan, hi⟩ _ => ?_
      refine ⟨.indexer i, fun o n hn => ?_, hspan, Node.faithful_of_hold hspan hi nofun, nofun⟩
      rw [ObjectType.nodes, List.map_cons, List.mem_append, List.mem_cons] at hn
      rw [ObjectType.nodes, List.mem_append]
      tauto
    · refine .map (bounds_property h fun _ hc => hc.1.1.1) fun p ⟨hspan, hp⟩ _ => ?_
      refine ⟨.property p, fun o n hn => ?_, hspan, hp, nofun⟩
      rw [ObjectType.nodes, List.map_cons, List.cons_append, List.mem_cons] at hn
      exact hn
  · rintro c l run next add - - - hw ⟨m, hadd, hspan, hfaithful, htype⟩ o ho n hn
    rcases hadd o n hn with rfl | hn
    · exact ⟨hspan ▸ hw, hfaithful, fun t heq => absurd heq (htype t)⟩
    · exact ho n hn

/-- The members of an object type are faithful. The induction is on the rounds of the loop. -/
private theorem bounds_membersLoop (strict : Bool) (close : Token.Kind) (spelling : String)
    (n : ℕ) : Bounds source (fun _ => True) w exact (fun o => Hold source w o.nodes)
      (membersLoop type strict close spelling n) := by
  induction n generalizing exact with
  | zero => exact .halt _
  | succ n ih =>
    refine .test (.pure hold_nil) (.test (.reject _ _) (.bind (bounds_member h) fun add => ?_))
    refine .test ?_ (.test (.pure fun hadd => hadd _ hold_nil)
      (.test (.reject _ _) (.reject _ _)))
    refine .skip_or_bind .comma .semicolon (fun _ hc => hc.2) rfl rfl fun _ => ?_
    exact .bind ih fun o => .pure fun ho hadd => hadd o ho

/-- Both the members and the body that they make up lie in what is read. -/
theorem bounds_objectType
    (hpre : ∀ c, pre c → (c.hasKind 0 .braceOpen || c.hasKind 0 .braceBarOpen) = true) :
    Bounds source pre w exact
      (fun o => Hold source w o.1.nodes ∧ Hold source w [.body o.1 o.2]) (objectType type) := by
  refine .node (Q := fun w o => o.2 = w ∧ Hold source w o.1.nodes)
    (fun c a next => Repeats.shortens (fun σ => repeats_objectType (h.repeats σ)) Nat.zero_lt_two)
    (fun w => ?_) ?_
  · have hclosed : ∀ (strict : Bool) (close : Token.Kind) (spelling : String),
        close.isClosed = true → Bounds source (fun _ => True) w True
          (fun o => o.2 = w ∧ Hold source w o.1.nodes) (do
            let object ← Parser.rounds (membersLoop type strict close spelling)
            let _ ← Parser.advance
            return (object, ← Parser.spanFrom w.start)) := by
      intro strict close spelling hclose
      refine .bind_where (fun c => c.hasKind 0 close = true) ?_
        (.rounds (bounds_membersLoop h strict close spelling)) fun o => ?_
      · -- The loop ends only in front of the closing brace.
        intro c o next _ _ hdone
        have hafter := triple_membersLoop h.turns c strict close spelling c (.refl [] false c)
        rw [hdone] at hafter
        exact hafter.2
      · exact .skip_bind close (fun _ => id) hclose fun _ => .spanFrom_pure fun ho => ⟨rfl, ho⟩
    refine .advance_bind
      (fun t => (t.kind = .braceOpen ∨ t.kind = .braceBarOpen) ∧ t.span.start = w.start) ?_ ?_ ?_
    · rintro c l ls ⟨hpc, hstart⟩ hrest
      refine ⟨(Bool.or_eq_true_iff.mp (hpre c hpc)).imp (Cursor.kind_of_hasKind · hrest)
        (Cursor.kind_of_hasKind · hrest), ?_⟩
      rw [← hstart, Cursor.nextStart, hrest]
    · rintro t ⟨ht | ht, -⟩ <;> rw [ht] <;> rfl
    · rintro opening - ⟨-, hstart⟩
      rw [hstart]
      dsimp only
      split <;> exact (hclosed _ _ _ rfl).imp fun _ ho _ => ho
  · rintro c l run next ⟨o, span⟩ - - - hw ⟨hspan, ho⟩
    have hbody : Hold source w [.body o span] :=
      Node.hold_singleton hspan ho (by rintro _ ⟨⟩) (by rintro _ ⟨⟩) hw
    exact ⟨ho.mono hw, hbody⟩

/-! ### Primary forms -/

/-- A named form has faithful nodes. The cases are the names with a meaning of their own and all
others. -/
private theorem bounds_named (hpre : ∀ c, pre c → c.hasKind 0 .identifier = true) :
    Bounds source pre w exact (fun shape => Hold source w shape.nodes) (named type) := by
  refine .look_bind fun word => .test ?_ ?_
  · refine .skip_bind .identifier (fun c hc => hpre c hc.1) rfl fun _ => ?_
    exact .bind bounds_qualifiedName fun target => .pure id
  · split
    · exact .skip_bind .identifier (fun c hc => hpre c hc.1) rfl fun _ => .pure hold_nil
    · cases Keyword.ofSpelling? word with
      | some keyword =>
        exact .skip_bind .identifier (fun c hc => hpre c hc.1) rfl fun _ => .pure hold_nil
      | none => exact .bind (bounds_generic h) fun g => .pure id

private theorem bounds_tuple (hpre : ∀ c, pre c → c.hasKind 0 .bracketOpen = true) :
    Bounds source pre w exact (fun shape => Hold source w shape.nodes) (tuple type) :=
  .skip_bind .bracketOpen hpre rfl fun _ => .bind (bounds_items h) fun _ =>
    .expect_bind rfl fun _ => .pure id

omit h in
/-- A minus sign and the number behind it. -/
private theorem bounds_negative (hpre : ∀ c, pre c → c.hasKind 0 .minus = true) :
    Bounds source pre w exact (fun shape => Hold source w shape.nodes) (do
      if ← Parser.look (·.hasKind 1 .number) then
        let _ ← Parser.advance
        return (Shape.number ("-" ++ (← Parser.advance).text) : Shape TypeExpr)
      else Parser.reject .expectedType none) := by
  refine .test (.bind_where (fun c => c.hasKind 0 .number = true) ?_
    (.take .minus (fun c hc => hpre c hc.1) rfl) fun _ => ?_) (.reject _ _)
  · rintro c t next - ⟨-, hnumber⟩ hdone
    cases hrest : c.rest with
    | nil => simp [Parser.advance, hrest] at hdone
    | cons l ls =>
      rw [Parser.advance_of_rest hrest] at hdone
      cases hdone
      rwa [Cursor.hasKind_took hrest]
  · exact .skip_bind .number (fun _ => id) rfl fun _ => .pure fun _ => hold_nil

/-- **A primary form has faithful nodes.** The cases are the kinds of the next token. -/
private theorem bounds_primaryShape :
    Bounds source pre w exact (fun shape => Hold source w shape.nodes) (primaryShape type) := by
  have htake : ∀ (kind : Token.Kind) (make : Token → Shape TypeExpr), kind.isClosed = true →
      (∀ t, (make t).nodes = []) →
      Bounds source (fun c => pre c ∧ c.hasKind 0 kind = true) w exact
        (fun shape => Hold source w shape.nodes) (do return make (← Parser.advance)) := by
    intro kind make hclosed hmake
    refine .skip_bind kind (fun _ hc => hc.2) hclosed fun t => .pure ?_
    rw [hmake]
    exact hold_nil
  have hobject : ∀ kind ∈ [Token.Kind.braceOpen, .braceBarOpen],
      Bounds source (fun c => pre c ∧ c.hasKind 0 kind = true) w exact
        (fun shape => Hold source w shape.nodes)
        (do return (Shape.object (← objectType type).1 : Shape TypeExpr)) := by
    refine fun kind hkind => .bind (bounds_objectType h fun c hc => ?_) fun o => .pure And.left
    rcases List.mem_pair.mp hkind with rfl | rfl
    · exact Bool.or_eq_true_iff.mpr (.inl hc.2)
    · exact Bool.or_eq_true_iff.mpr (.inr hc.2)
  refine .nextKind_bind (.reject _ _) fun kind => ?_
  cases kind with
  | identifier => exact bounds_named h fun _ hc => hc.2
  | string => exact htake .string (fun t => .string (Text.unquote t.text)) rfl fun _ => rfl
  | number => exact htake .number (fun t => .number t.text) rfl fun _ => rfl
  | minus => exact bounds_negative fun _ hc => hc.2
  | bigInt => exact htake .bigInt (fun t => .bigInt t.text) rfl fun _ => rfl
  | star => exact htake .star (fun _ => .keyword .existential) rfl fun _ => rfl
  | braceOpen => exact hobject _ (by decide)
  | braceBarOpen => exact hobject _ (by decide)
  | bracketOpen => exact bounds_tuple h fun _ hc => hc.2
  | less =>
    exact .bind (bounds_typeParams h) fun _ => (bounds_function h _ rfl _).imp fun _ hshape _ =>
      hshape
  | unexpected => exact .look_bind fun _ => .reject _ _
  | _ => exact .reject _ _

/-- A primary form with its span is read back from there. -/
private theorem bounds_primary :
    Bounds source pre w exact (fun t => Hold source w [.type t]) (primary type) := by
  refine bounds_level (fun σ => repeats_primary (h.repeats σ)) (fun run t hread => ?_) fun w => ?_
  · exact readsAlone_whole_of_operand (readsAlone_operand (readsAlone_bracketed (k := 0) hread))
  · refine .test ?_ (.nextStart_bind (fun _ hc => hc.1.2) ?_)
    · exact (bounds_parenthesized h (fun _ hc => hc.2) fun _ hc => hc.1.2).imp fun _ => .inr
    · exact .bind (bounds_primaryShape h) fun shape => .spanFrom_pure fun hshape =>
        .inr ⟨rfl, hshape⟩

/-! ### Operators -/

/-- What is in front of the brackets lies where they do. -/
private theorem bounds_bracketPair (t : TypeExpr) :
    Bounds source (fun _ => True) w True
      (fun u => Hold source w [.type t] → u.span = w ∧ Hold source w u.shape.nodes)
      (bracketPair type w.start t) := by
  refine .test ?_ (.halt _)
  refine .skip_bind .bracketOpen (fun c hc => (Bool.and_eq_true_iff.mp hc.2).1) rfl fun _ => ?_
  refine .eat_bind rfl (.spanFrom_pure fun ht => ⟨rfl, ht⟩) ?_
  refine .bind (h.bounds w) fun index => .expect_bind rfl fun _ => ?_
  exact .spanFrom_pure fun hindex ht => ⟨rfl, hold_cons.mpr ⟨ht, hindex⟩⟩

/-- A type expression with any number of pairs of brackets behind it is read back. The induction is
on the number. -/
private theorem bounds_bracketedTo (k : ℕ) :
    Bounds source pre w exact (fun t => Hold source w [.type t]) (bracketedTo type k) := by
  induction k generalizing pre w exact with
  | zero => exact bounds_primary h
  | succ k ih =>
    refine bounds_level (fun σ => repeats_bracketedTo (h.repeats σ) (k + 1)) (fun run t hread => ?_)
      fun w => ?_
    · exact readsAlone_whole_of_operand (readsAlone_operand (readsAlone_bracketed hread))
    · refine .nextStart_bind (fun _ hc => hc.2) (.bind ih fun t => ?_)
      exact (bounds_bracketPair h t).imp fun _ hu ht => .inr (hu ht)

private theorem bounds_bracketed :
    Bounds source pre w exact (fun t => Hold source w [.type t]) (bracketed type) := by
  intro c t next hc hpc hdone
  obtain ⟨k, hk⟩ := exists_bracketedTo hdone
  exact bounds_bracketedTo h k c t next hc hpc hk

end

variable {inside : Nested}

/-- An operand is read back, with a question mark or without one. -/
private theorem bounds_operand (hwhole : Annotates source inside.whole unlimited.whole)
    (hoperand : Annotates source inside.operand unlimited.operand) :
    Bounds source pre w exact (fun t => Hold source w [.type t]) (operand inside) := by
  refine bounds_level (fun σ => repeats_operand (hwhole.repeats σ) (hoperand.repeats σ))
    (fun run t => readsAlone_whole_of_operand) fun w => ?_
  refine .test ?_ ((bounds_bracketed hwhole).imp fun _ => .inl)
  refine .advance_bind (fun t => t.kind = .question ∧ t.span.start = w.start) ?_ ?_ ?_
  · rintro c l ls ⟨⟨-, hstart⟩, hkind⟩ hrest
    refine ⟨Cursor.kind_of_hasKind hkind hrest, ?_⟩
    rw [← hstart, Cursor.nextStart, hrest]
  · rintro t ⟨ht, -⟩
    rw [ht]
    rfl
  · rintro token - ⟨-, hstart⟩
    rw [hstart]
    exact .bind (hoperand.bounds w) fun t => .spanFrom_pure fun ht _ => .inr ⟨rfl, ht⟩

/-- A list with an operator is read back from its span. If there is one part only, this is read back
as it is by itself. -/
private theorem bounds_joined {part part' : Parser TypeExpr} {operator : Token.Kind}
    (hclosed : operator.isClosed = true) {shape : List TypeExpr → Shape TypeExpr}
    (hshape : ∀ ts, (shape ts).nodes = ts.map .type)
    (hpart : ∀ w, Bounds source (fun _ => True) w False (fun t => Hold source w [.type t]) part)
    (hrepeats : ∀ σ, Repeats σ 0 1 0 (joined operator shape part) (joined operator shape part'))
    (hlift : ∀ run t, ReadsAlone (joined operator shape part') run t →
      ReadsAlone unlimited.whole run t) :
    Bounds source pre w exact (fun t => Hold source w [.type t]) (joined operator shape part) := by
  refine bounds_level hrepeats hlift fun w => ?_
  refine .nextStart_bind (fun _ hc => hc.2) (.bind (.eat hclosed) fun _ => ?_)
  refine .bind (hpart w) fun first => .bind (.operands hclosed (hpart w)) fun more => ?_
  split
  · exact .pure fun _ hfirst _ => .inl hfirst
  · refine .spanFrom_pure fun hmore hfirst _ => .inr ⟨rfl, ?_⟩
    dsimp only
    rw [hshape, List.map_cons]
    exact hold_cons.mpr ⟨hfirst, hold_map.mpr hmore⟩

/-- A union is read back, be it one of intersections or a single one. -/
private theorem bounds_union (hwhole : Annotates source inside.whole unlimited.whole)
    (hoperand : Annotates source inside.operand unlimited.operand) :
    Bounds source pre w exact (fun t => Hold source w [.type t]) (union inside) := by
  have hpart : ∀ (σ : Excerpt) taken spare,
      Parser.Repeats σ taken 1 spare (operand inside) (operand unlimited) :=
    fun σ _ _ => repeats_operand (hwhole.repeats σ) (hoperand.repeats σ)
  have hintersection : ∀ w, Bounds source (fun _ => True) w False
      (fun t => Hold source w [.type t])
      (joined .ampersand .intersection (operand inside)) := fun w =>
    bounds_joined rfl (fun _ => rfl) (fun _ => bounds_operand hwhole hoperand)
      (fun σ => repeats_joined (by decide) _ (hpart σ))
      fun run t hread => readsAlone_whole_of_union (readsAlone_union hread)
  exact bounds_joined rfl (fun _ => rfl) hintersection
    (fun σ => repeats_union (hwhole.repeats σ) (hoperand.repeats σ))
    fun run t => readsAlone_whole_of_union

/-- **What is read as a type expression lies in what is taken for it, and is read back.** -/
theorem annotates_nested (source : String) (limit : Option ℕ) (knots : ℕ) :
    Annotates source (nested limit knots).whole unlimited.whole ∧
      Annotates source (nested limit knots).operand unlimited.operand := by
  have hturns := turns_nested List.not_mem_nil limit
  induction knots with
  | zero => exact ⟨⟨fun _ => .halt _, fun σ _ _ => (repeats_nested limit 0 _ _).1, (hturns 0).1⟩,
      ⟨fun _ => .halt _, fun σ _ _ => (repeats_nested limit 0 _ _).2, (hturns 0).2⟩⟩
  | succ knots ih =>
    constructor
    · exact ⟨fun _ => .nesting (bounds_union ih.1 ih.2),
        fun σ _ _ => (repeats_nested limit (knots + 1) _ _).1, (hturns (knots + 1)).1⟩
    · exact ⟨fun _ => .nesting (bounds_operand ih.1 ih.2),
        fun σ _ _ => (repeats_nested limit (knots + 1) _ _).2, (hturns (knots + 1)).2⟩

end TypeExpr

end Reifier
