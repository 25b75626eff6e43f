import Reifier.Proofs.Parser.Taking
import Reifier.Proofs.Program.Layout
import Reifier.Proofs.Token.Excerpt

/-!
# What is read within a span

`p.Bounds source pre w exact post` follows the runs of lexemes that a parser takes from a source.
From a cursor that satisfies `pre` the parser `p`, if it is done, has taken a run of closed lexemes.
If this run lies in the span `w`, and ends where `w` ends in case of `exact`, then the value
satisfies `post`.

What a production reads is compared with the span of all that it takes (`Bounds.node`), so it is not
needed to follow where the parts of a value stand one behind the other.
-/

namespace Reifier

variable {α β : Type} {source : String}

/-! ### Runs of a source -/

namespace Lexeme

/-- All tokens of a run lie in a span. -/
def LieIn (w : Span) (run : List Lexeme) : Prop := ∀ l ∈ run, w.encloses l.token.span = true

/-- All tokens of a run are closed. -/
def Closed (run : List Lexeme) : Prop := ∀ l ∈ run, l.token.kind.isClosed = true

variable {w : Span} {run more : List Lexeme}

private theorem lieIn_append : LieIn w (run ++ more) ↔ LieIn w run ∧ LieIn w more :=
  List.forall_mem_append

private theorem closed_append : Closed (run ++ more) ↔ Closed run ∧ Closed more :=
  List.forall_mem_append

end Lexeme

/-- A cursor that has the last lexemes of a source ahead. Only the trivia before the first of them
may be recorded already. -/
def Cursor.Stands (source : String) (c : Cursor) : Prop :=
  ∃ front ls after, Lexeme.ofTokens (Token.scan source) = (front ++ ls, after) ∧
    c.rest.map Lexeme.token = ls.map Lexeme.token ∧ c.rest.tail = ls.tail

namespace Cursor.Stands

variable {c d : Cursor}

/-- The lexemes of the source that are ahead are in order, and but for the trivia in front of the
first of them they are those of the cursor. -/
private theorem exists_ordered {l : Lexeme} {ls : List Lexeme} (h : c.Stands source)
    (hrest : c.rest = l :: ls) : ∃ front m after,
      Lexeme.ofTokens (Token.scan source) = (front ++ m :: ls, after) ∧ m.token = l.token ∧
      Lexeme.Ordered (m :: ls) := by
  obtain ⟨front, ms, after, hscan, htokens, htail⟩ := h
  rw [hrest] at htokens htail
  obtain _ | ⟨m, ms⟩ := ms
  · cases htokens
  · obtain rfl : ls = ms := htail
    exact ⟨front, m, after, hscan, (List.cons.inj htokens).1.symm,
      (Lexeme.ordered_ofTokens hscan).2.append.2⟩

/-- Only the trivia before the first lexeme may be different. -/
theorem of_tokens (h : c.Stands source)
    (htokens : d.rest.map Lexeme.token = c.rest.map Lexeme.token)
    (htail : d.rest.tail = c.rest.tail) : d.Stands source := by
  unfold Cursor.Stands
  rwa [htokens, htail]

private theorem of_rest_eq (h : c.Stands source) (hrest : d.rest = c.rest) : d.Stands source :=
  h.of_tokens (by rw [hrest]) (by rw [hrest])

theorem took {l : Lexeme} {ls : List Lexeme} (h : c.Stands source) (hrest : c.rest = l :: ls) :
    (c.took l ls).Stands source := by
  obtain ⟨front, m, after, hscan, -, -⟩ := h.exists_ordered hrest
  exact ⟨front ++ [m], ls, after, by rw [hscan, List.append_assoc]; rfl, rfl, rfl⟩

/-- Recording the trivia ahead leaves a cursor in the source. -/
theorem settled (h : c.Stands source) : c.settled.Stands source := by
  refine h.of_tokens c.settled_tokens ?_
  unfold Cursor.settled
  split
  · rfl
  · rename_i l ls hrest
    rw [hrest]
    rfl

/-- The run that has been taken stands in the source, in front of what is left. -/
theorem exists_lexemes {l : Lexeme} {run : List Lexeme} (h : c.Stands source)
    (hover : c.Over (l :: run) d) : ∃ front m after,
      Lexeme.ofTokens (Token.scan source) = (front ++ (m :: run) ++ d.rest, after) ∧
      m.token = l.token ∧ Lexeme.spanOf (m :: run) = Lexeme.spanOf (l :: run) ∧
      Lexeme.Ordered (m :: run) := by
  obtain ⟨front, m, after, hscan, hm, hordered⟩ := h.exists_ordered hover.rest
  refine ⟨front, m, after, by rw [hscan, List.append_assoc]; rfl, hm, ?_, ?_⟩
  · rw [Lexeme.spanOf, Lexeme.spanOf, hm]
  · have hall : Lexeme.Ordered (m :: run ++ d.rest) := hordered
    exact hall.append.1

/-- Nothing that is ahead begins in front of the next token. -/
theorem nextStart_le {k : Lexeme} (h : c.Stands source) (hk : k ∈ c.rest) :
    c.nextStart ≤ k.token.span.start := by
  cases hrest : c.rest with
  | nil =>
    rw [hrest] at hk
    cases hk
  | cons l ls =>
    obtain ⟨_, m, _, -, hm, hordered⟩ := h.exists_ordered hrest
    rw [hrest] at hk
    rw [nextStart, hrest]
    rcases List.mem_cons.mp hk with rfl | hk
    · exact le_rfl
    · have hin := (Lexeme.spanOf_spec hordered).2 _
        (Lexeme.span_mem_spans (List.mem_cons_of_mem m hk))
      rw [Span.encloses_iff, Lexeme.spanOf, hm] at hin
      exact hin.1

/-- What begins at the next token or behind it is ahead. -/
theorem exists_of_nextStart_le {l : Lexeme} {ls : List Lexeme} {t : Token} (h : c.Stands source)
    (hrest : c.rest = l :: ls) (ht : t ∈ Token.scan source) (hkind : t.kind.isTrivia = false)
    (hstart : c.nextStart ≤ t.span.start) : ∃ k ∈ c.rest, k.token = t := by
  obtain ⟨front, m, after, hscan, hm, -⟩ := h.exists_ordered hrest
  obtain ⟨k, hk, rfl⟩ : ∃ k ∈ front ++ m :: ls, k.token = t := by
    have hall := Lexeme.tokens_ofTokensAfter Trivia.none (Token.scan source)
    rw [← Lexeme.ofTokens, hscan] at hall
    refine List.mem_map.mp ?_
    rw [hall]
    exact List.mem_filter.mpr ⟨ht, by rw [hkind]; rfl⟩
  rw [nextStart, hrest] at hstart
  rw [hrest]
  rcases List.mem_append.mp hk with hk | hk
  · -- What is behind the cursor ends in front of the next token.
    obtain ⟨hpairwise, hlt⟩ := (Lexeme.ordered_ofTokens hscan).2
    rw [Lexeme.spans_append] at hpairwise
    obtain ⟨-, -, hfront⟩ := List.pairwise_append.mp hpairwise
    have hstop : k.token.span.stop ≤ m.token.span.start :=
      hfront _ (Lexeme.token_mem_spans hk) _ (Lexeme.token_mem_spans List.mem_cons_self)
    have hpos := hlt _ (Lexeme.token_mem_spans (List.mem_append_left _ hk))
    rw [hm] at hstop
    exact absurd (hpos.trans_le hstop) (Nat.not_lt.mpr hstart)
  · rcases List.mem_cons.mp hk with rfl | hk
    · exact ⟨l, List.mem_cons_self, hm.symm⟩
    · exact ⟨k, List.mem_cons_of_mem l hk, rfl⟩

/-- The token that is ahead is one of the source. -/
private theorem mem_scan {l : Lexeme} {ls : List Lexeme} (h : c.Stands source)
    (hrest : c.rest = l :: ls) : l.token ∈ Token.scan source := by
  obtain ⟨front, ms, after, hscan, htokens, -⟩ := h
  have hall := Lexeme.tokens_ofTokensAfter Trivia.none (Token.scan source)
  rw [← Lexeme.ofTokens, hscan] at hall
  have hl : l.token ∈ ms.map Lexeme.token := by
    rw [← htokens, hrest]
    exact List.mem_cons_self
  refine List.mem_of_mem_filter (p := fun t => !t.kind.isTrivia) ?_
  rw [← hall, List.map_append]
  exact List.mem_append_right _ hl

/-- What is ahead when lexemes have been taken is still the end of the source. -/
theorem goes {run : List Lexeme} (h : c.Stands source) (hover : c.Over run d) :
    d.Stands source := by
  cases run with
  | nil => exact h.of_rest_eq hover.rest.symm
  | cons l run =>
    obtain ⟨front, m, after, hscan, -⟩ := h.exists_lexemes hover
    exact ⟨front ++ (m :: run), d.rest, after, hscan, rfl, rfl⟩

/-- The span of a run that has been taken begins where its first token begins, and ends where the
cursor says that the last one has ended. All its tokens lie in this span. -/
theorem spanOf {l : Lexeme} {run : List Lexeme} (h : c.Stands source)
    (hover : c.Over (l :: run) d) :
    (Lexeme.spanOf (l :: run)).start = c.nextStart ∧
      (Lexeme.spanOf (l :: run)).stop = d.lastEnd ∧
      Lexeme.LieIn (Lexeme.spanOf (l :: run)) (l :: run) := by
  obtain ⟨_, m, _, -, hm, hsame, hordered⟩ := h.exists_lexemes hover
  refine ⟨?_, ?_, fun k hk => ?_⟩
  · rw [Cursor.nextStart, hover.rest]
    rfl
  · rw [← hsame, Lexeme.stop_spanOf hordered, hm, hover.lastEnd, Lexeme.lastStop_cons]
  · rw [← hsame]
    refine (Lexeme.spanOf_spec hordered).2 _ ?_
    rcases List.mem_cons.mp hk with rfl | hk
    · rw [← hm]
      exact List.mem_cons_self
    · exact Lexeme.span_mem_spans (List.mem_cons_of_mem m hk)

/-- Where all tokens of a run lie, its span does, too. -/
theorem encloses {l : Lexeme} {run : List Lexeme} {w : Span} (h : c.Stands source)
    (hover : c.Over (l :: run) d) (hrun : Lexeme.LieIn w (l :: run)) :
    w.encloses (Lexeme.spanOf (l :: run)) = true := by
  obtain ⟨_, m, _, -, hm, hsame, hordered⟩ := h.exists_lexemes hover
  obtain ⟨⟨k, hk, hspan⟩, -⟩ := Lexeme.spanOf_spec hordered
  obtain ⟨hl, hrest⟩ := List.forall_mem_cons.mp hrun
  have hlast : w.encloses k.token.span = true := by
    rcases List.mem_cons.mp hk with rfl | hk
    · rwa [hm]
    · exact hrest k hk
  rw [← hsame, hspan, hm]
  rw [Span.encloses_iff] at hl hlast ⊢
  exact ⟨hl.1, hlast.2⟩

end Cursor.Stands

/-- From a cursor that has the end of a source ahead a run of closed lexemes has been taken. -/
structure Cursor.Cuts (source : String) (c : Cursor) (l : Lexeme) (run : List Lexeme)
    (next : Cursor) : Prop where
  stands : c.Stands source
  taken : c.Over (l :: run) next
  closed : Lexeme.Closed (l :: run)

/-! ### Parsers -/

namespace Parser

open Lexeme (LieIn Closed)

/-- From a cursor of the source that satisfies `pre` the parser, if it is done, has taken a run of
closed lexemes. If the run lies in `w`, and ends where `w` ends in case of `exact`, the value
satisfies `post`. -/
def Bounds (source : String) (pre : Cursor → Prop) (w : Span) (exact : Prop) (post : α → Prop)
    (p : Parser α) : Prop :=
  ∀ c a next, c.Stands source → pre c → p c = .done a next →
    ∃ run, c.Over run next ∧ Closed run ∧
      (LieIn w run → (exact → next.spanFrom w.start = w) → post a)

namespace Bounds

variable {pre pre' mid : Cursor → Prop} {w : Span} {exact : Prop} {post : α → Prop}
  {post' : β → Prop} {p : Parser α}

theorem imp {post' : α → Prop} (h : Bounds source pre w exact post p)
    (hpost : ∀ a, post a → post' a) : Bounds source pre w exact post' p := by
  intro c a next hc hpc hdone
  obtain ⟨run, hover, hclosed, ha⟩ := h c a next hc hpc hdone
  exact ⟨run, hover, hclosed, fun hrun hend => hpost a (ha hrun hend)⟩

theorem anti (h : Bounds source pre w exact post p) (hpre : ∀ c, pre' c → pre c) :
    Bounds source pre' w exact post p :=
  fun c a next hc hpc => h c a next hc (hpre c hpc)

/-- Nothing need be known where the parser begins, and nothing where it ends. -/
theorem always (h : Bounds source (fun _ => True) w False post p) :
    Bounds source pre w exact post p := by
  intro c a next hc _ hdone
  obtain ⟨run, hover, hclosed, ha⟩ := h c a next hc trivial hdone
  exact ⟨run, hover, hclosed, fun hrun _ => ha hrun False.elim⟩

/-! ### Sequence -/

protected theorem pure {a : α} (h : post a) :
    Bounds source pre w exact post (pure a : Parser α) := by
  rintro c _ _ - - ⟨⟩
  exact ⟨[], .refl c, List.forall_mem_nil _, fun _ _ => h⟩

/-- What is known of the first value may be used where it matters, which is for the second one. -/
theorem bind_where (mid : Cursor → Prop) {f : α → Parser β}
    (hmid : ∀ c a next, c.Stands source → pre c → p c = .done a next → mid next)
    (hp : Bounds source pre w False post p)
    (hf : ∀ a, Bounds source mid w exact (fun b => post a → post' b) (f a)) :
    Bounds source pre w exact post' (p >>= f) := by
  intro c b next hc hpc hdone
  obtain ⟨a, between, hfirst, hsecond⟩ := exists_of_bind_eq_done hdone
  obtain ⟨run, hover, hclosed, ha⟩ := hp c a between hc hpc hfirst
  obtain ⟨more, hover', hclosed', hb⟩ := hf a between b next (hc.goes hover)
    (hmid c a between hc hpc hfirst) hsecond
  refine ⟨run ++ more, hover.trans hover', Lexeme.closed_append.mpr ⟨hclosed, hclosed'⟩, ?_⟩
  intro hrun hend
  obtain ⟨hrun, hmore⟩ := Lexeme.lieIn_append.mp hrun
  exact hb hmore hend (ha hrun False.elim)

protected theorem bind {f : α → Parser β} (hp : Bounds source pre w False post p)
    (hf : ∀ a, Bounds source (fun _ => True) w exact (fun b => post a → post' b) (f a)) :
    Bounds source pre w exact post' (p >>= f) :=
  .bind_where (fun _ => True) (fun _ _ _ _ _ _ => trivial) hp hf

/-- Nothing is taken behind the first parser. -/
theorem map {g : α → β} (hp : Bounds source pre w exact post p)
    (hg : ∀ a, post a → post' (g a)) :
    Bounds source pre w exact post' (p >>= fun a => pure (g a)) := by
  intro c b next hc hpc hdone
  obtain ⟨a, mid, hfirst, hlast⟩ := exists_of_bind_eq_done hdone
  cases hlast
  obtain ⟨run, hover, hclosed, ha⟩ := hp c a next hc hpc hfirst
  exact ⟨run, hover, hclosed, fun hrun hend => hg a (ha hrun hend)⟩

protected theorem halt (cause : Halt) :
    Bounds source pre w exact post (halt cause : Parser α) := by
  rintro c a next - - ⟨⟩

protected theorem reject (kind : Diagnostic.Kind) (detail : Option String) :
    Bounds source pre w exact post (reject kind detail : Parser α) := by
  rintro c a next - - ⟨⟩

/-! ### Looking -/

theorem look_bind {view : Cursor → α} {f : α → Parser β}
    (hf : ∀ a, Bounds source pre w exact post' (f a)) :
    Bounds source pre w exact post' (look view >>= f) :=
  fun c => hf (view c) c

/-- The outcome of a test is known afterwards. -/
theorem test {view : Cursor → Bool} {a b : Parser β}
    (ha : Bounds source (fun c => pre c ∧ view c = true) w exact post' a)
    (hb : Bounds source (fun c => pre c ∧ ¬ view c = true) w exact post' b) :
    Bounds source pre w exact post'
      (look view >>= fun yes => if yes = true then a else b) := by
  intro c x next hc hpc hdone
  by_cases hview : view c = true
  · rw [test_of_true hview] at hdone
    exact ha c x next hc ⟨hpc, hview⟩ hdone
  · rw [test_of_not hview] at hdone
    exact hb c x next hc ⟨hpc, hview⟩ hdone

/-- What the kind of the next token decides. -/
theorem nextKind_bind {f : Option Token.Kind → Parser β}
    (hnone : Bounds source pre w exact post' (f none))
    (hsome : ∀ kind, Bounds source (fun c => pre c ∧ c.hasKind 0 kind = true) w exact post'
      (f (some kind))) :
    Bounds source pre w exact post' (nextKind >>= f) := by
  intro c x next hc hpc hdone
  rw [nextKind, look_bind_apply] at hdone
  cases hrest : c.rest with
  | nil =>
    rw [hrest] at hdone
    exact hnone c x next hc hpc hdone
  | cons l ls =>
    rw [hrest] at hdone
    have hkind : c.hasKind 0 l.token.kind = true :=
      Cursor.hasKind_zero_iff.mpr ⟨l, ls, hrest, decide_eq_true rfl⟩
    exact hsome l.token.kind c x next hc ⟨hpc, hkind⟩ hdone

/-- Where the next token begins, at the start of the span that is meant. -/
theorem nextStart_bind {f : ℕ → Parser β} (hpre : ∀ c, pre c → c.nextStart = w.start)
    (hf : Bounds source pre w exact post' (f w.start)) :
    Bounds source pre w exact post' (nextStart >>= f) := by
  intro c b next hc hpc hdone
  rw [nextStart, look_bind_apply, hpre c hpc] at hdone
  exact hf c b next hc hpc hdone

/-- Where the last token has ended, at the end of the span that is meant. -/
theorem spanFrom_pure {make : Span → α} (h : post (make w)) :
    Bounds source pre w True post (spanFrom w.start >>= fun span => pure (make span)) := by
  rintro c _ _ - - ⟨⟩
  refine ⟨[], .refl c, List.forall_mem_nil _, fun _ hend => ?_⟩
  have hspan : c.spanFrom w.start = w := hend trivial
  dsimp only
  rwa [hspan]

/-! ### Taking -/

/-- The next token is taken, of which something is known. -/
theorem advance_bind (found : Token → Prop) {f : Token → Parser β}
    (hfound : ∀ c l ls, pre c → c.rest = l :: ls → found l.token)
    (hclosed : ∀ t, found t → t.kind.isClosed = true)
    (hf : ∀ t ∈ Token.scan source, found t → Bounds source (fun _ => True) w exact
      (fun b => w.encloses t.span = true → post' b) (f t)) :
    Bounds source pre w exact post' (advance >>= f) := by
  intro c b next hc hpc hdone
  obtain ⟨l, ls, hrest, hsecond⟩ := Takes.exists_took hdone
  have hl := hfound c l ls hpc hrest
  obtain ⟨run, hover, hrun, hb⟩ := hf l.token (hc.mem_scan hrest) hl _ b next (hc.took hrest)
    trivial hsecond
  refine ⟨l :: run, (Cursor.Over.take hrest).trans hover,
    List.forall_mem_cons.mpr ⟨hclosed _ hl, hrun⟩, fun hin hend => ?_⟩
  obtain ⟨hlin, hmore⟩ := List.forall_mem_cons.mp hin
  exact hb hmore hend hlin

/-- The token that is taken has been looked at. -/
theorem take_bind (kind : Token.Kind) {f : Token → Parser β}
    (hpre : ∀ c, pre c → c.hasKind 0 kind = true) (hclosed : kind.isClosed = true)
    (hf : ∀ t ∈ Token.scan source, t.kind = kind → Bounds source (fun _ => True) w exact
      (fun b => w.encloses t.span = true → post' b) (f t)) :
    Bounds source pre w exact post' (advance >>= f) :=
  advance_bind (·.kind = kind) (fun c _ _ hc hrest => Cursor.kind_of_hasKind (hpre c hc) hrest)
    (fun _ ht => ht ▸ hclosed) hf

/-- The token that is taken is a sign, whose place does not matter. -/
theorem skip_bind (kind : Token.Kind) {f : Token → Parser β}
    (hpre : ∀ c, pre c → c.hasKind 0 kind = true) (hclosed : kind.isClosed = true)
    (hf : ∀ t, Bounds source (fun _ => True) w exact post' (f t)) :
    Bounds source pre w exact post' (advance >>= f) :=
  take_bind kind hpre hclosed fun t _ _ => (hf t).imp fun _ hb _ => hb

protected theorem take (kind : Token.Kind) (hpre : ∀ c, pre c → c.hasKind 0 kind = true)
    (hclosed : kind.isClosed = true) : Bounds source pre w exact (fun _ => True) advance := by
  rw [← bind_pure advance]
  exact skip_bind kind hpre hclosed fun _ => .pure trivial

/-- One of two signs. -/
theorem skip_or_bind (kind kind' : Token.Kind) {f : Token → Parser β}
    (hpre : ∀ c, pre c → (c.hasKind 0 kind || c.hasKind 0 kind') = true)
    (hclosed : kind.isClosed = true) (hclosed' : kind'.isClosed = true)
    (hf : ∀ t, Bounds source (fun _ => True) w exact post' (f t)) :
    Bounds source pre w exact post' (advance >>= f) := by
  refine advance_bind (fun t => t.kind = kind ∨ t.kind = kind') (fun c _ _ hc hrest => ?_) ?_
    fun t _ _ => (hf t).imp fun _ hb _ => hb
  · exact (Bool.or_eq_true_iff.mp (hpre c hc)).imp (Cursor.kind_of_hasKind · hrest)
      (Cursor.kind_of_hasKind · hrest)
  · rintro t (rfl | rfl)
    · exact hclosed
    · exact hclosed'

protected theorem expect_bind {kind : Token.Kind} {spelling : String} {f : Token → Parser β}
    (hclosed : kind.isClosed = true)
    (hf : ∀ t, Bounds source (fun _ => True) w exact post' (f t)) :
    Bounds source pre w exact post' (expect kind spelling >>= f) := by
  rw [Parser.expect_bind]
  exact test (skip_bind kind (fun _ hc => hc.2) hclosed hf) (.reject _ _)

protected theorem expectWord_bind {word : String} {f : Token → Parser β}
    (hf : ∀ t, Bounds source (fun _ => True) w exact post' (f t)) :
    Bounds source pre w exact post' (expectWord word >>= f) := by
  rw [Parser.expectWord_bind]
  exact test (skip_bind .identifier (fun _ hc => Placement.hasKind_of_isWord hc.2) rfl hf)
    (.reject _ _)

protected theorem eat_bind {kind : Token.Kind} {f : Bool → Parser β}
    (hclosed : kind.isClosed = true)
    (htrue : Bounds source (fun _ => True) w exact post' (f true))
    (hfalse : Bounds source (fun _ => True) w exact post' (f false)) :
    Bounds source pre w exact post' (eat kind >>= f) := by
  rw [Parser.eat_bind]
  exact test (skip_bind kind (fun _ hc => hc.2) hclosed fun _ => htrue)
    (hfalse.anti fun _ _ => trivial)

protected theorem eatWord_bind {word : String} {f : Bool → Parser β}
    (htrue : Bounds source (fun _ => True) w exact post' (f true))
    (hfalse : Bounds source (fun _ => True) w exact post' (f false)) :
    Bounds source pre w exact post' (eatWord word >>= f) := by
  rw [Parser.eatWord_bind]
  exact test (skip_bind .identifier (fun _ hc => Placement.hasKind_of_isWord hc.2) rfl
    fun _ => htrue) (hfalse.anti fun _ _ => trivial)

protected theorem eat {kind : Token.Kind} (hclosed : kind.isClosed = true) :
    Bounds source pre w exact (fun _ => True) (eat kind) := by
  rw [← bind_pure (Parser.eat kind)]
  exact .eat_bind hclosed (.pure trivial) (.pure trivial)

protected theorem after? {kind : Token.Kind} (hclosed : kind.isClosed = true)
    (hp : Bounds source (fun _ => True) w False post p) :
    Bounds source pre w exact (fun a? => ∀ a ∈ a?, post a) (after? kind p) := by
  refine .eat_bind hclosed (.bind hp fun a => .pure fun ha => ?_) (.pure ?_)
  · rintro b ⟨⟩
    exact ha
  · rintro b ⟨⟩

/-! ### Repeating -/

protected theorem rounds {loop : ℕ → Parser α}
    (h : ∀ n, Bounds source pre w exact post (loop n)) :
    Bounds source pre w exact post (rounds loop) :=
  fun c => h _ c

/-- Operands behind an operator are bounded one by one. -/
protected theorem operands {operator : Token.Kind} (hclosed : operator.isClosed = true)
    (hp : Bounds source (fun _ => True) w False post p) :
    Bounds source pre w exact (fun as => ∀ a ∈ as, post a) (operands operator p) := by
  refine always (.rounds fun n => ?_)
  induction n with
  | zero => exact .halt _
  | succ n ih =>
    refine .eat_bind hclosed (.bind hp fun a => .bind ih fun as => .pure fun has ha => ?_)
      (.pure (List.forall_mem_nil _))
    exact List.forall_mem_cons.mpr ⟨ha, has⟩

/-- Items of a list are bounded one by one. -/
protected theorem items {close : Token.Kind}
    (hp : Bounds source (fun _ => True) w False post p) :
    Bounds source pre w exact (fun as => ∀ a ∈ as, post a) (items close p) := by
  refine always (.rounds fun n => ?_)
  induction n with
  | zero => exact .halt _
  | succ n ih =>
    refine .test (.pure (List.forall_mem_nil _)) (.bind hp.always fun a => .eat_bind rfl ?_ ?_)
    · exact .bind ih fun as => .pure fun has ha => List.forall_mem_cons.mpr ⟨ha, has⟩
    · exact .pure fun ha => List.forall_mem_singleton.mpr ha

protected theorem commaSeparated (hp : Bounds source (fun _ => True) w False post p) :
    Bounds source pre w exact (fun as => ∀ a ∈ as, post a) (commaSeparated p) :=
  .bind hp.always fun _ => .bind (.operands rfl hp) fun _ =>
    .pure fun has ha => List.forall_mem_cons.mpr ⟨ha, has⟩

/-! ### Nesting -/

/-- A level of nesting bounds what is read in it. -/
protected theorem nesting {limit : Option ℕ}
    (hp : Bounds source (fun _ => True) w False post p) :
    Bounds source pre w exact post (nesting limit p) := by
  intro c a next hc _ hdone
  unfold nesting at hdone
  split at hdone
  · cases hdone
  · cases hrun : p c.entered with
    | done b inside =>
      rw [hrun] at hdone
      cases hdone
      obtain ⟨run, hover, hclosed, ha⟩ := hp c.entered a inside (hc.of_rest_eq rfl) trivial hrun
      exact ⟨run, ⟨hover.rest, hover.comments, hover.lastEnd⟩, hclosed,
        fun hrun _ => ha hrun False.elim⟩
    | failed inside => simp [hrun] at hdone
    | halted cause inside => simp [hrun] at hdone

/-! ### What is read from its first token to its last one -/

/-- What holds within a span that begins and ends where the run does holds within the span of the
run. -/
private theorem spanOf_of_cuts {c next : Cursor} {l : Lexeme} {run : List Lexeme}
    (hcuts : c.Cuts source l run next) {Q : Span → Prop}
    (hQ : ∀ w : Span, w.start = l.token.span.start → LieIn w (l :: run) →
      next.spanFrom w.start = w → Q w) : Q (Lexeme.spanOf (l :: run)) :=
  hQ _ rfl (hcuts.stands.spanOf hcuts.taken).2.2 hcuts.taken.spanFrom

/-- **A value with a span.** What is said of the value within the span from the first to the last
token that are taken is said where this span lies in another one. -/
theorem node {Q : Span → α → Prop}
    (htakes : ∀ c a next, p c = .done a next → next.rest.length < c.rest.length)
    (hp : ∀ w, Bounds source (fun c => pre c ∧ c.nextStart = w.start) w True (Q w) p)
    (hpost : ∀ c l run next a, pre c → c.Cuts source l run next → p c = .done a next →
      w.encloses (Lexeme.spanOf (l :: run)) = true → Q (Lexeme.spanOf (l :: run)) a → post a) :
    Bounds source pre w exact post p := by
  intro c a next hc hpc hdone
  cases hrest : c.rest with
  | nil =>
    have hlt := htakes c a next hdone
    rw [hrest] at hlt
    exact absurd hlt (Nat.not_lt_zero _)
  | cons l ls =>
    have hstart : c.nextStart = l.token.span.start := by rw [Cursor.nextStart, hrest]
    -- The run that is taken is the same for each span that begins at the first token.
    have hrun : ∀ w : Span, w.start = l.token.span.start → ∃ run, c.Over (l :: run) next ∧
        Closed (l :: run) ∧ (LieIn w (l :: run) → next.spanFrom w.start = w → Q w a) := by
      intro w hw
      obtain ⟨run, hover, hclosed, ha⟩ := hp w c a next hc ⟨hpc, hstart.trans hw.symm⟩ hdone
      cases run with
      | nil =>
        have hlt := htakes c a next hdone
        rw [hover.rest] at hlt
        exact absurd hlt (lt_irrefl _)
      | cons m run =>
        obtain rfl : l = m := by
          have hcons := hover.rest
          rw [hrest, List.cons_append] at hcons
          exact (List.cons.inj hcons).1
        exact ⟨run, hover, hclosed, fun hin hend => ha hin fun _ => hend⟩
    obtain ⟨run, hover, hclosed, -⟩ := hrun l.token.span rfl
    have hcuts : c.Cuts source l run next := ⟨hc, hover, hclosed⟩
    refine ⟨l :: run, hover, hclosed, fun hin _ => ?_⟩
    refine hpost c l run next a hpc hcuts hdone (hc.encloses hover hin) ?_
    refine spanOf_of_cuts hcuts (Q := fun w => Q w a) fun w hw hin hend => ?_
    obtain ⟨more, hover', -, ha⟩ := hrun w hw
    obtain rfl : more = run := (List.cons.inj (hover'.eq hover)).2
    exact ha hin hend

end Bounds

end Parser

end Reifier
