import Reifier.Proofs.TypeExpr.Excerpt

/-!
# Parts of type expressions that stand alone

What is read at any level of the grammar is read as a whole type expression where it stands alone:
a production goes on to a tighter level unless its own operator is ahead, and what begins at a
tighter level does not begin with this operator (`Parser.Avoids`). Behind it there is nothing to go
on with.

The type expression in front of a pair of brackets is no value of a production, but one that the
loop over the brackets carries. It is what is read with fewer pairs (`bracketedTo`).
-/

namespace Reifier

variable {α β : Type}

namespace Parser

/-! ### What a parser does not begin with -/

/-- Where a token of a certain kind is ahead the parser is not done. -/
def Avoids (kind : Token.Kind) (p : Parser α) : Prop :=
  ∀ c a next, p c = .done a next → ¬ c.hasKind 0 kind = true

namespace Avoids

variable {kind kind' : Token.Kind} {p : Parser α}

protected theorem bind (hp : Avoids kind p) (f : α → Parser β) : Avoids kind (p >>= f) := by
  intro c b next hdone
  obtain ⟨a, mid, hfirst, -⟩ := exists_of_bind_eq_done hdone
  exact hp c a mid hfirst

theorem look_bind {view : Cursor → α} {f : α → Parser β} (hf : ∀ a, Avoids kind (f a)) :
    Avoids kind (look view >>= f) :=
  fun c => hf (view c) c

/-- Another kind is tested for. -/
private theorem nextIs_bind {a b : Parser β} (hne : kind' ≠ kind) (hb : Avoids kind b) :
    Avoids kind (nextIs kind' >>= fun yes => if yes = true then a else b) := by
  intro c x next hdone
  by_cases hkind' : c.hasKind 0 kind' = true
  · exact fun hkind => hne (Cursor.hasKind_inj hkind' hkind)
  · rw [nextIs, test_of_not hkind'] at hdone
    exact hb c x next hdone

protected theorem eat_bind {f : Bool → Parser β} (hne : kind' ≠ kind) (hf : Avoids kind (f false)) :
    Avoids kind (eat kind' >>= f) := by
  rw [Parser.eat_bind]
  exact nextIs_bind hne hf

end Avoids

/-! ### Reading a run alone -/

private theorem operands_of_not {operator : Token.Kind} {c : Cursor}
    (h : ¬ c.hasKind 0 operator = true) (p : Parser α) : operands operator p c = .done [] c := by
  rw [operands, rounds, operandsLoop, bind_of_done (eat_of_not h)]
  rfl

/-- Of the kinds of tokens only a semicolon is ahead of nothing but semicolons. -/
private theorem not_hasKind_of_semicolons {c : Cursor} (h : ∀ l ∈ c.rest, l.token.kind = .semicolon)
    {kind : Token.Kind} (hne : kind ≠ .semicolon) : ¬ c.hasKind 0 kind = true := by
  intro hkind
  obtain ⟨l, ls, hrest, hl⟩ := Cursor.hasKind_zero_iff.mp hkind
  have hsemicolon := h l (by rw [hrest]; exact List.mem_cons_self)
  exact hne ((of_decide_eq_true hl).symm.trans hsemicolon)

namespace ReadsAlone

variable {p q : Parser α} {run : List Lexeme} {a : α}

/-- A parser that is done with the same where nothing but semicolons is left. -/
private theorem lift (h : ReadsAlone p run a)
    (hq : ∀ c next, p c = .done a next → (∀ l ∈ next.rest, l.token.kind = .semicolon) →
      q c = .done a next) : ReadsAlone q run a := by
  intro d ahead stop hrest htokens htail hstop hdiagnostics
  obtain ⟨next, hdone, hnext, hnone⟩ := h d ahead stop hrest htokens htail hstop hdiagnostics
  exact ⟨next, hq d next hdone (hnext ▸ hstop), hnext, hnone⟩

/-- What is read alone is read so at any level when nothing limits the nesting. -/
protected theorem nesting (h : ReadsAlone p run a) : ReadsAlone (nesting none p) run a := by
  intro d ahead stop hrest htokens htail hstop hdiagnostics
  obtain ⟨next, hdone, hnext, hnone⟩ :=
    h d.entered ahead stop hrest htokens htail hstop hdiagnostics
  refine ⟨next.left, ?_, hnext, hnone⟩
  rw [nesting_none_apply, hdone]

end ReadsAlone

end Parser

namespace TypeExpr

open Reifier.Parser (Avoids ReadsAlone Repeats bind_of_done)

variable {type : Parser TypeExpr} {inside : Nested} {run : List Lexeme} {t : TypeExpr}
  {kind : Token.Kind}

/-! ### Operators that nothing begins with -/

/-- A primary form begins with no question mark and no operator. -/
private theorem avoids_primaryShape (hkind : kind ∈ [.question, .ampersand, .pipe]) :
    Avoids kind (primaryShape type) := by
  intro c shape next hdone hahead
  obtain ⟨l, ls, hrest, hl⟩ := Cursor.hasKind_zero_iff.mp hahead
  have hnext : (c.rest.head?.map fun l => l.token.kind) = some kind := by
    rw [hrest, List.head?_cons, Option.map_some, of_decide_eq_true hl]
  rw [primaryShape, Parser.nextKind, Parser.look_bind_apply, hnext] at hdone
  simp only [List.mem_cons, List.not_mem_nil, or_false] at hkind
  rcases hkind with rfl | rfl | rfl <;> cases hdone

private theorem avoids_primary (hkind : kind ∈ [.question, .ampersand, .pipe]) :
    Avoids kind (primary type) := by
  refine .nextIs_bind ?_ (.look_bind fun _ => (avoids_primaryShape hkind).bind _)
  rintro rfl
  exact absurd hkind (by decide)

private theorem avoids_bracketed (hkind : kind ∈ [.question, .ampersand, .pipe]) :
    Avoids kind (bracketed type) :=
  .look_bind fun _ => (avoids_primary hkind).bind _

private theorem avoids_operand (hkind : kind ∈ [.ampersand, .pipe]) :
    Avoids kind (operand inside) := by
  refine .nextIs_bind ?_ (avoids_bracketed (List.mem_cons_of_mem _ hkind))
  rintro rfl
  exact absurd hkind (by decide)

private theorem avoids_intersection :
    Avoids .pipe (joined .ampersand .intersection (operand inside)) :=
  .look_bind fun _ => .eat_bind (by decide) ((avoids_operand (by decide)).bind _)

/-! ### From a level to the looser one -/

/-- A single part that is read alone is also read as a list, if the part does not begin with the
operator. -/
private theorem readsAlone_joined {part : Parser TypeExpr} {operator : Token.Kind}
    (h : ReadsAlone part run t) (hne : operator ≠ .semicolon) (havoids : Avoids operator part)
    (shape : List TypeExpr → Shape TypeExpr) :
    ReadsAlone (joined operator shape part) run t := by
  refine h.lift fun c next hdone hnext => ?_
  have hoperands := Parser.operands_of_not (Parser.not_hasKind_of_semicolons hnext hne) part
  rw [joined, Parser.nextStart, Parser.look_bind_apply,
    bind_of_done (Parser.eat_of_not (havoids c t next hdone)), bind_of_done hdone,
    bind_of_done hoperands]
  rfl

theorem readsAlone_operand (h : ReadsAlone (bracketed inside.whole) run t) :
    ReadsAlone (operand inside) run t := by
  refine h.lift fun c next hdone _ => ?_
  rw [operand, Parser.nextIs,
    Parser.test_of_not (avoids_bracketed (by decide) c t next hdone)]
  exact hdone

theorem readsAlone_union
    (h : ReadsAlone (joined .ampersand .intersection (operand unlimited)) run t) :
    ReadsAlone (union unlimited) run t :=
  readsAlone_joined h (by decide) avoids_intersection _

/-- What is read between two bars is read as a whole type expression. -/
theorem readsAlone_whole_of_union (h : ReadsAlone (union unlimited) run t) :
    ReadsAlone unlimited.whole run t := by
  rw [unlimited_whole]
  exact h.nesting

theorem readsAlone_whole_of_operand (h : ReadsAlone (operand unlimited) run t) :
    ReadsAlone unlimited.whole run t :=
  readsAlone_whole_of_union
    (readsAlone_union (readsAlone_joined h (by decide) (avoids_operand (by decide)) _))

/-! ### Brackets -/

/-- A pair of brackets behind `t`, which stands ahead. -/
def bracketStep (type : Parser TypeExpr) (start : ℕ) (t : TypeExpr) : Parser TypeExpr := do
  let _ ← Parser.advance
  if ← Parser.eat .bracketClose then
    return ⟨.array t, ← Parser.spanFrom start⟩
  else
    let index ← type
    let _ ← Parser.expect .bracketClose "]"
    return ⟨.indexedAccess t index, ← Parser.spanFrom start⟩

/-- A pair of brackets behind `t`. -/
def bracketPair (type : Parser TypeExpr) (start : ℕ) (t : TypeExpr) : Parser TypeExpr := do
  if ← Parser.look fun c => c.hasKind 0 .bracketOpen && !c.lineBreakAhead then
    bracketStep type start t
  else Parser.halt .overrun

/-- A primary form with a certain number of pairs of brackets behind it. -/
def bracketedTo (type : Parser TypeExpr) : ℕ → Parser TypeExpr
  | 0 => primary type
  | k + 1 => do
    let start ← Parser.nextStart
    let t ← bracketedTo type k
    bracketPair type start t

/-- A round of the loop over brackets takes a pair of them if one is ahead. -/
private theorem bracketsLoop_succ (type : Parser TypeExpr) (start n : ℕ) (t : TypeExpr) :
    bracketsLoop type start (n + 1) t =
      Parser.look (fun c => c.hasKind 0 .bracketOpen && !c.lineBreakAhead) >>= fun yes =>
        if yes = true then bracketStep type start t >>= bracketsLoop type start n
        else pure t := by
  rw [bracketsLoop]
  congr 1
  funext yes
  cases yes with
  | false => rfl
  | true =>
    simp only [bracketStep, bind_assoc, if_true]
    congr 1
    funext _
    congr 1
    funext closed
    cases closed <;> simp [bind_assoc]

section

variable {start : ℕ} {c mid next : Cursor} {t' : TypeExpr}

/-- A pair of brackets is a round of the loop. -/
private theorem bracketsLoop_of_pair (h : bracketPair type start t c = .done t' mid) (n : ℕ) :
    bracketsLoop type start (n + 1) t c = bracketsLoop type start n t' mid := by
  rw [bracketPair] at h
  rw [bracketsLoop_succ]
  by_cases hahead : (c.hasKind 0 .bracketOpen && !c.lineBreakAhead) = true
  · rw [Parser.test_of_true hahead] at h ⊢
    exact bind_of_done h _
  · rw [Parser.test_of_not hahead] at h
    cases h

private theorem bracketsLoop_of_not
    (h : ¬ (c.hasKind 0 .bracketOpen && !c.lineBreakAhead) = true) (n : ℕ) :
    bracketsLoop type start (n + 1) t c = .done t c := by
  rw [bracketsLoop_succ, Parser.test_of_not h]
  rfl

/-- The loop begins with a pair of brackets, or it is left. -/
private theorem bracketsLoop_cases {n : ℕ}
    (h : bracketsLoop type start (n + 1) t c = .done t' next) :
    (t = t' ∧ c = next) ∨ ∃ u mid, bracketPair type start t c = .done u mid ∧
      bracketsLoop type start n u mid = .done t' next := by
  rw [bracketsLoop_succ] at h
  by_cases hahead : (c.hasKind 0 .bracketOpen && !c.lineBreakAhead) = true
  · rw [Parser.test_of_true hahead] at h
    obtain ⟨u, mid, hstep, hloop⟩ := Parser.exists_of_bind_eq_done h
    refine .inr ⟨u, mid, ?_, hloop⟩
    rw [bracketPair, Parser.test_of_true hahead]
    exact hstep
  · rw [Parser.test_of_not hahead] at h
    cases h
    exact .inl ⟨rfl, rfl⟩

end

/-- Something with brackets behind it is read with some number of pairs. -/
theorem exists_bracketedTo {c next : Cursor} (h : bracketed type c = .done t next) :
    ∃ k, bracketedTo type k c = .done t next := by
  have hloop : ∀ n k u mid, bracketedTo type k c = .done u mid →
      bracketsLoop type c.nextStart n u mid = .done t next →
      ∃ k, bracketedTo type k c = .done t next := by
    intro n
    induction n with
    | zero => exact fun _ _ _ _ hdone => nomatch hdone
    | succ n ih =>
      intro k u mid hu hdone
      rcases bracketsLoop_cases hdone with ⟨rfl, rfl⟩ | ⟨u', mid', hpair, hloop⟩
      · exact ⟨k, hu⟩
      · refine ih (k + 1) u' mid' ?_ hloop
        rw [bracketedTo, Parser.nextStart, Parser.look_bind_apply, bind_of_done hu]
        exact hpair
  rw [bracketed, Parser.nextStart, Parser.look_bind_apply] at h
  obtain ⟨u, mid, hprimary, hrounds⟩ := Parser.exists_of_bind_eq_done h
  exact hloop _ 0 u mid hprimary hrounds

section Repeating

variable {σ : Excerpt} {taken spare : ℕ} {type' : Parser TypeExpr}

private theorem repeats_unlimited : Repeats σ taken 1 spare unlimited.whole unlimited.whole where
  takes c := (repeats_nested (σ := σ) none (c.rest.length + 1) taken spare).1.takes c
  repeats c := (repeats_nested (σ := σ) none (c.rest.length + 1) taken spare).1.repeats c

variable (h : ∀ taken spare, Repeats σ taken 1 spare type type')

include h

private theorem repeats_bracketPair (start : ℕ) (htaken : 0 < taken) (t : TypeExpr) :
    Repeats σ taken 1 spare (bracketPair type start t) (bracketPair type' start t) := by
  refine .test (k := 1) (m := 1) (Excerpt.sees_sameLine _ htaken Nat.zero_lt_one)
    (Excerpt.passes_sameLine (by decide) htaken) (by omega) le_rfl ?_ (.halt _)
  refine .advance_bind (m := 0) fun _ => .eat_bind (m := 0) (by decide) (by omega) ?_ ?_
  · exact .look_bind (k := 0) (.spanFrom start (by omega)) (by omega) fun span => .pure _
  · refine .least_le (m := 2) (.bind (m := 1) (h _ _) fun index => ?_) (by omega)
    refine .expect_bind (m := 0) fun _ => ?_
    exact .look_bind (k := 0) (.spanFrom start (by omega)) (by omega) fun span => .pure _

/-- A number of pairs of brackets is read from a part as it is from the source. The induction is on
the number. -/
theorem repeats_bracketedTo (k : ℕ) :
    Repeats σ taken 1 spare (bracketedTo type k) (bracketedTo type' k) := by
  induction k generalizing taken spare with
  | zero => exact repeats_primary h
  | succ k ih =>
    refine .look_bind (k := 1) (.nextStart Nat.zero_lt_one) (by omega) fun start => ?_
    refine .least_le (m := 2) (.bind (m := 1) ih fun t => ?_) (by omega)
    exact repeats_bracketPair h start (by omega) t

end Repeating

/-- What is read with a number of pairs of brackets is where the loop comes to, and there are as
many rounds left as it can need. -/
private theorem bracketed_of_bracketedTo
    (htakes : ∀ start t c u next, bracketPair type start t c = .done u next →
      next.rest.length < c.rest.length) {k : ℕ} {c next : Cursor}
    (h : bracketedTo type k c = .done t next) :
    ∃ n, next.rest.length ≤ n ∧
      bracketed type c = bracketsLoop type c.nextStart (n + 1) t next := by
  induction k generalizing t next with
  | zero =>
    refine ⟨next.rest.length, le_rfl, ?_⟩
    have hprimary : primary type c = .done t next := h
    rw [bracketed, Parser.nextStart, Parser.look_bind_apply, bind_of_done hprimary]
    rfl
  | succ k ih =>
    rw [bracketedTo, Parser.nextStart, Parser.look_bind_apply] at h
    obtain ⟨u, mid, hu, hpair⟩ := Parser.exists_of_bind_eq_done h
    obtain ⟨n, hn, hloop⟩ := ih hu
    have hlt := htakes _ _ _ _ _ hpair
    obtain ⟨m, rfl⟩ : ∃ m, n = m + 1 := Nat.exists_eq_add_one.mpr (by omega)
    refine ⟨m, by omega, ?_⟩
    rw [hloop, bracketsLoop_of_pair hpair]

/-- What is read alone with a number of pairs of brackets is read so by the loop, for no further
bracket stands behind it. -/
theorem readsAlone_bracketed {k : ℕ} (h : ReadsAlone (bracketedTo unlimited.whole k) run t) :
    ReadsAlone (bracketed unlimited.whole) run t := by
  have htakes : ∀ start t c u next, bracketPair unlimited.whole start t c = .done u next →
      next.rest.length < c.rest.length := by
    intro start t c u next hdone
    let σ : Excerpt := ⟨0, [], [], List.forall_mem_nil _⟩
    have hpair : Repeats σ 1 1 0 (bracketPair unlimited.whole start t)
        (bracketPair unlimited.whole start t) :=
      repeats_bracketPair (fun _ _ => repeats_unlimited) start Nat.zero_lt_one t
    exact hpair.takes c next u hdone
  refine h.lift fun c next hdone hnext => ?_
  obtain ⟨n, -, hloop⟩ := bracketed_of_bracketedTo htakes hdone
  rw [hloop]
  refine bracketsLoop_of_not (fun hahead => ?_) n
  exact Parser.not_hasKind_of_semicolons hnext (by decide) (Bool.and_eq_true_iff.mp hahead).1

end TypeExpr

end Reifier
