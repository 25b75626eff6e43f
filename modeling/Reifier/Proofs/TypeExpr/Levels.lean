import Reifier.Proofs.Parser.Reading
import Reifier.Proofs.TypeExpr.Agreement
import Reifier.Proofs.TypeExpr.Openers
import Reifier.Proofs.TypeExpr.Unplaced

/-!
# Levels of type expressions

Each level has a production that reads the forms of that level and of tighter ones (`ReadsAt`). A
production goes on as long as it can, so what stands behind must not be something that it would go
on with (`Stops`). Then a form that is read at one level is read at every looser one
(`ReadsAt.of_le`), and one that is too loose is read in parentheses (`Legible.readsAt`).
-/

namespace Reifier.TypeExpr

open Token (Word)
open Reifier.Parser (EndsItem Reads)

variable {ws rest : List Word} {t : TypeExpr}

/-! ### What stands behind -/

/-- The kinds of tokens that a form is not read back in front of at level `k`. -/
def barred : ℕ → List Token.Kind
  | 0 => [.dot, .less, .arrow, .bracketOpen, .ampersand, .pipe]
  | 1 => [.dot, .less, .arrow, .bracketOpen, .ampersand, .pipe]
  | 2 => [.dot, .less, .arrow, .bracketOpen, .ampersand]
  | 3 => [.dot, .less, .arrow, .bracketOpen]
  | _ => [.dot, .less, .arrow]

/-- What stands behind is nothing that a form at level `k` goes on with. -/
def Stops (k : ℕ) (rest : List Word) : Prop := ∀ w ∈ rest.head?, w.kind ∉ barred k

/-- The tighter a level, the fewer kinds of tokens go on with it. -/
private theorem barred_subset {j k : ℕ} (h : j ≤ k) : barred k ⊆ barred j := by
  induction k, h using Nat.le_induction with
  | base => exact List.Subset.refl _
  | succ k _ ih =>
    refine List.Subset.trans ?_ ih
    match k with
    | 0 | 1 | 2 | 3 => decide
    | k + 4 => exact List.Subset.refl _

namespace Stops

variable {j k : ℕ}

theorem mono (h : Stops j rest) (hle : j ≤ k) : Stops k rest := fun w hw hmem =>
  h w hw (barred_subset hle hmem)

theorem cons {w : Word} (h : w.kind ∉ barred k) (ws : List Word) : Stops k (w :: ws) := by
  rintro w ⟨⟩
  exact h

theorem ne (h : Stops k rest) {kind : Token.Kind} (hkind : kind ∈ barred k) :
    ∀ w ∈ rest.head?, w.kind ≠ kind := by
  rintro w hw rfl
  exact h w hw hkind

/-- What ends an item of a list ends every type expression. -/
theorem of_endsItem {close : Token.Kind} (h : EndsItem close rest) (hclose : close ∉ barred 0) :
    Stops 0 rest := by
  intro w hw
  rcases h w hw with hkind | hkind
  · rw [hkind]
    decide
  · rwa [hkind]

end Stops

/-! ### Levels -/

/-- When the words have been read, the loop over brackets goes on with what stands behind them. -/
def ReadsBase (t : TypeExpr) (ws behind : List Word) : Prop :=
  ∀ (vs rest : List Word) (post : TypeExpr → Prop), behind = vs ++ rest →
    (∀ start n a, behind.length < n → Same t a →
      Reads (bracketsLoop unlimited.whole start n a) vs rest post) →
    Reads (bracketed unlimited.whole) (ws ++ vs) rest post

/-- The production for level `k` reads a type expression from its words. -/
def ReadsAt (t : TypeExpr) (ws rest : List Word) : ℕ → Prop
  | 0 => Reads unlimited.whole ws rest (Same t)
  | 1 => Reads (union unlimited) ws rest (Same t)
  | 2 => Reads (joined .ampersand .intersection (operand unlimited)) ws rest (Same t)
  | 3 => Reads (operand unlimited) ws rest (Same t)
  | 4 => ReadsBase t ws rest
  | _ => Reads (primary unlimited.whole) ws rest (Same t)

section Joined

variable {operator : Token.Kind} {shape : List TypeExpr → Shape TypeExpr} {part : Parser TypeExpr}

/-- A first operand alone stands for itself, and several are put together. -/
theorem reads_joined {word : TypeExpr → List Word} {ts : List TypeExpr}
    (hpart : ∀ x ∈ t :: ts, ∀ behind, (∀ w ∈ behind.head?, w.kind = operator ∨ w ∈ rest.head?) →
      Reads part (word x) behind (Same x))
    (hword : ∀ ws, ∀ w ∈ (word t ++ ws).head?, w.kind ≠ operator)
    (hrest : ∀ w ∈ rest.head?, w.kind ≠ operator) :
    Reads (joined operator shape part) (Word.separated operator ((t :: ts).map word)) rest fun a =>
      ∃ first more, List.Forall₂ Same (t :: ts) (first :: more) ∧
        if more.isEmpty then a = first else a.shape = shape (first :: more) := by
  obtain ⟨ht, hts⟩ := List.forall_mem_cons.mp hpart
  rw [List.map_cons, Word.separated_cons, List.flatMap_map]
  refine .look_bind fun start => .eat_false ?_ ?_
  · rw [List.append_assoc]
    exact hword _
  · refine .bind (ht _ Reads.operator_or_rest) fun first hfirst => ?_
    rw [← List.append_nil (ts.flatMap _)]
    refine .bind (.operands hts hrest) fun more hmore => ?_
    have hall : List.Forall₂ Same (t :: ts) (first :: more) := .cons hfirst hmore
    cases more with
    | nil => exact .pure ⟨first, [], hall, rfl⟩
    | cons second more => exact .look_bind fun span => .pure ⟨first, second :: more, hall, rfl⟩

private theorem reads_joined_single (h : Reads part ws rest (Same t))
    (hws : ∀ w ∈ (ws ++ rest).head?, w.kind ≠ operator)
    (hrest : ∀ w ∈ rest.head?, w.kind ≠ operator) :
    Reads (joined operator shape part) ws rest (Same t) := by
  refine .look_bind fun start => .eat_false hws ?_
  rw [← List.append_nil ws]
  exact .bind h fun first hfirst => .operands_bind_nil hrest (.pure hfirst)

end Joined

/-- No bracket stands behind. -/
private theorem reads_bracketed (h : ReadsBase t ws rest)
    (hrest : ∀ w ∈ rest.head?, w.kind ≠ .bracketOpen) :
    Reads (bracketed unlimited.whole) ws rest (Same t) := by
  rw [← List.append_nil ws]
  refine h [] rest _ rfl fun start n a hn ha => ?_
  obtain ⟨n, rfl⟩ := Nat.exists_eq_add_one_of_ne_zero (Nat.ne_zero_of_lt hn)
  refine .test_false (fun c hc => ?_) (.pure ha)
  rw [hc.hasKind_zero_eq_false hrest, Bool.false_and]

private theorem readsBase_of_primary (h : Reads (primary unlimited.whole) ws rest (Same t)) :
    ReadsBase t ws rest := by
  rintro vs rest post rfl hloop
  exact .look_bind fun start => .bind h fun a ha => .rounds fun n hn => hloop start n a hn ha

/-- What is read at one level is read at the next looser one, if it does not begin like that. -/
private theorem ReadsAt.loosen {k : ℕ} (h : ReadsAt t ws rest (k + 1)) (hopens : Opens (k + 1) ws)
    (hstop : Stops k rest) : ReadsAt t ws rest k := by
  -- Each production passes on what begins a tighter form, and finds nothing behind to go on with.
  match k with
  | 0 =>
    change Reads unlimited.whole ws rest (Same t)
    rw [unlimited_whole]
    exact .nesting h
  | 1 => exact reads_joined_single h (hopens.ne rest (by decide)) (hstop.ne (by decide))
  | 2 => exact reads_joined_single h (hopens.ne rest (by decide)) (hstop.ne (by decide))
  | 3 =>
    refine .nextIs_false (hopens.ne rest (by decide)) ?_
    exact reads_bracketed h (hstop.ne (by decide))
  | 4 => exact readsBase_of_primary h
  | k + 5 => exact h

theorem ReadsAt.of_le {j k : ℕ} (hle : j ≤ k) (h : ReadsAt t ws rest k) (hopens : Opens k ws)
    (hstop : Stops j rest) : ReadsAt t ws rest j := by
  induction k, hle using Nat.le_induction with
  | base => exact h
  | succ k hle ih =>
    exact ih (h.loosen hopens (hstop.mono hle)) (hopens.mono (Nat.le_succ k))

/-! ### Parentheses -/

/-- What begins as a type expression is no parameter with a name. -/
theorem namedParamAhead_eq_false {k : ℕ} {c : Cursor} (us : List Word) (hopens : Opens k ws)
    (hc : c.Ahead (us ++ ws)) : namedParamAhead c us.length = false := by
  obtain ⟨w, vs, rfl, -, hvs⟩ := hopens
  unfold namedParamAhead
  rw [hc.hasKind_eq, hc.hasKind_eq, hc.hasKind_eq]
  by_cases hw : w.kind = .identifier
  · cases vs with
    | nil => simp
    | cons v vs =>
      obtain ⟨hcolon, hquestion⟩ := hvs hw v rfl
      simp [hcolon, hquestion]
  · simp [hw]

/-- Behind a parenthesis the words of a form do not look like parameters. -/
theorem paramsAhead_eq_false {k : ℕ} {c : Cursor} {w : Word} (hopens : Opens k ws)
    (hc : c.Ahead (w :: ws)) : paramsAhead c = false := by
  have hnamed : namedParamAhead c 1 = false := namedParamAhead_eq_false [w] hopens hc
  obtain ⟨v, vs, rfl, hv, -⟩ := hopens.mono (Nat.zero_le k)
  have hne : ∀ kind ∉ openers 0, c.hasKind 1 kind = false := fun kind hkind => by
    rw [hc.hasKind_eq]
    exact decide_eq_false fun h : v.kind = kind => hkind (h ▸ hv)
  rw [paramsAhead, hnamed, hne _ (by decide), hne _ (by decide)]
  rfl

/-- Parentheses only group, unless an arrow stands behind them. -/
private theorem reads_group {k : ℕ} (hopens : Opens k ws)
    (h : Reads unlimited.whole ws (.sign .parenClose :: rest) (Same t))
    (hrest : ∀ w ∈ rest.head?, w.kind ≠ .arrow) :
    Reads (primary unlimited.whole) (between .parenOpen .parenClose ws) rest (Same t) := by
  refine .nextIs_true rfl (.look_bind fun start => .test_false (fun c hc => ?_) ?_)
  · have hahead : c.Ahead (.sign .parenOpen :: (ws ++ .sign .parenClose :: rest)) := by
      simpa only [between, List.cons_append, List.append_assoc, List.nil_append] using hc
    exact paramsAhead_eq_false (hopens.append_cons (by decide) _) hahead
  · refine .advance_bind fun _ _ _ => .bind h fun inner hinner => .expect_bind rfl fun _ => ?_
    exact .eat_false hrest (.look_bind fun span => .pure (hinner.respan span))

/-! ### Forms among others -/

/-- A type expression can be read back wherever nothing stands behind that it would go on with. -/
structure Legible (t : TypeExpr) : Prop where
  opens : Opens t.shape.ownLevel t.words
  reads : ∀ rest, Stops t.shape.level rest → ReadsAt t t.words rest t.shape.ownLevel

namespace Legible

variable {k : ℕ}

/-- A legible type expression is read at every level, in parentheses where its own level is too
loose. -/
theorem readsAt (h : Legible t) (hk : k ≤ 5) (hstop : Stops k rest) :
    ReadsAt t (wordsAt k t) rest k := by
  unfold wordsAt enclose
  split
  -- Inside parentheses any form may stand; around them stands a primary form.
  · have hclose : Stops 0 (.sign .parenClose :: rest) := .cons (by decide) rest
    have hinside : ReadsAt t t.words (.sign .parenClose :: rest) 0 :=
      (h.reads _ (hclose.mono (Nat.zero_le _))).of_le (Nat.zero_le _) h.opens hclose
    have hgroup : ReadsAt t (between .parenOpen .parenClose t.words) rest 5 :=
      reads_group h.opens hinside ((hstop.mono hk).ne (by decide))
    exact hgroup.of_le hk (opens_between (by decide) _) hstop
  · rename_i hlevel
    have hle := Nat.le_of_not_lt hlevel
    exact (h.reads _ (hstop.mono hle)).of_le (hle.trans t.shape.level_le_ownLevel) h.opens hstop

/-- A type expression inside others is read back where any form is expected. -/
theorem whole (h : Legible t) (hstop : Stops 0 rest) :
    Reads unlimited.whole t.words rest (Same t) := by
  rw [← wordsAt_zero]
  exact h.readsAt (Nat.zero_le 5) hstop

end Legible

end Reifier.TypeExpr
