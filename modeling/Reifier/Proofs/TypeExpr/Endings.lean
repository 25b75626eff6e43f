import Reifier.Proofs.Parser.Triple
import Reifier.TypeExpr.Parser

/-!
# Where type expressions end

A type expression is read as far as it goes: what stands behind it is no operator that it would go
on with, and no bracket on the same line (`exhausts_nested`). `p.Exhausts more` says of a parser
that the lexeme ahead is none that satisfies `more` wherever `p` is done, whatever it has read.

What a production leaves ahead is what its last part leaves ahead, so the rules look at the last
part only. Operands are the exception: the loop over them is left without a step, so what holds
behind it is what held behind the operand before.
-/

namespace Reifier

/-- There is no lexeme ahead, or one of which `more` does not hold. -/
def Cursor.Stops (c : Cursor) (more : Lexeme → Prop) : Prop := ∀ l ∈ c.rest.head?, ¬ more l

theorem Cursor.stops_kind_iff {c : Cursor} {kind : Token.Kind} :
    c.Stops (·.token.kind = kind) ↔ c.hasKind 0 kind = false := by
  unfold Stops hasKind
  cases c.rest with
  | nil => simp
  | cons l ls => simp [Lexeme.hasKind]

/-- No lexeme of two kinds is ahead if there is none of either. -/
theorem Cursor.stops_or_iff {c : Cursor} {more more' : Lexeme → Prop} :
    (c.Stops fun l => more l ∨ more' l) ↔ c.Stops more ∧ c.Stops more' := by
  simp only [Stops, not_or, forall_and]

namespace Parser

variable {α β : Type} {more : Lexeme → Prop}

/-- Wherever the parser is done, there is no more of what satisfies `more`. -/
def Exhausts (more : Lexeme → Prop) (p : Parser α) : Prop :=
  Triple (fun _ => True) p (fun _ d => d.Stops more) fun _ => True

namespace Exhausts

variable {p : Parser α}

/-- The last part of a sequence decides. -/
protected theorem bind (p : Parser α) {f : α → Parser β} (hf : ∀ a, Exhausts more (f a)) :
    Exhausts more (p >>= f) :=
  Triple.bind (.any p) fun a => hf a

private theorem bind_look_pure {γ : Type} (hp : Exhausts more p) {view : Cursor → γ}
    {g : α → γ → β} : Exhausts more (p >>= fun a => look view >>= fun v => pure (g a v)) :=
  Triple.bind hp fun _ => .look_bind fun _ => .pure fun _ hc => hc.1

theorem test {view : Cursor → Bool} {a b : Parser β} (ha : Exhausts more a)
    (hb : Exhausts more b) :
    Exhausts more (look view >>= fun yes => if yes = true then a else b) :=
  Triple.test (ha.anti fun _ _ => trivial) hb

/-- A test that is not passed says what is not ahead. -/
private theorem test_pure {view : Cursor → Bool} {a : Parser β} {b : β} (ha : Exhausts more a)
    (hview : ∀ c, view c = false → c.Stops more) :
    Exhausts more (look view >>= fun yes => if yes = true then a else pure b) := by
  refine Triple.look_bind fun yes => ?_
  cases yes with
  | true => exact ha.anti fun _ _ => trivial
  | false => exact .pure fun c hc => hview c hc.2

protected theorem nesting {limit : Option ℕ} (hp : Exhausts more p) :
    Exhausts more (nesting limit p) :=
  Triple.nesting (fun _ _ _ => trivial) hp

end Exhausts

/-- Operands are read as long as there is an operator. -/
private theorem triple_operands {operator : Token.Kind} {p : Parser α} (hp : Exhausts more p) :
    Triple (fun c => c.Stops more) (operands operator p)
      (fun _ d => d.Stops fun l => l.token.kind = operator ∨ more l) fun _ => True := by
  refine .rounds fun n => ?_
  induction n with
  | zero => exact .halt _
  | succ n ih =>
    rw [operandsLoop, eat_bind]
    refine .look_bind fun yes => ?_
    cases yes with
    | true =>
      refine .bind (.any _) fun _ => Triple.bind hp fun first => ?_
      exact .bind ih fun _ => .pure fun _ hc => hc
    | false =>
      exact .pure fun c hc => Cursor.stops_or_iff.mpr ⟨Cursor.stops_kind_iff.mpr hc.2, hc.1⟩

end Parser

/-! ### Productions -/

namespace TypeExpr

open Reifier.Parser (Exhausts Triple)

/-- A bracket on the same line. -/
def IsBracket (l : Lexeme) : Prop := l.token.kind = .bracketOpen ∧ l.before.lineBreak = false

/-- What a type expression goes on with, whatever its form: an operator or a bracket. -/
def Continues (l : Lexeme) : Prop :=
  l.token.kind = .pipe ∨ l.token.kind = .ampersand ∨ IsBracket l

instance : DecidablePred IsBracket := fun _ => inferInstanceAs (Decidable (_ ∧ _))

instance : DecidablePred Continues := fun _ => inferInstanceAs (Decidable (_ ∨ _ ∨ _))

private theorem stops_isBracket {c : Cursor}
    (h : (c.hasKind 0 .bracketOpen && !c.lineBreakAhead) = false) : c.Stops IsBracket := by
  rintro l hl ⟨hkind, hline⟩
  obtain ⟨ls, hrest⟩ := List.head?_eq_some_iff.mp hl
  simp [Cursor.hasKind, Cursor.lineBreakAhead, hrest, Lexeme.hasKind, hkind, hline] at h

variable {type : Parser TypeExpr} {inside : Nested}

/-- The loop over brackets goes on until there are no more of them. The induction is on the rounds;
the loop comes to an end by an error when they are used up. -/
private theorem exhausts_bracketsLoop (start n : ℕ) (t : TypeExpr) :
    Exhausts IsBracket (bracketsLoop type start n t) := by
  induction n generalizing t with
  | zero => exact .halt _
  | succ n ih =>
    refine .test_pure (.bind _ fun _ => .bind _ fun closed => ?_) fun _ => stops_isBracket
    cases closed with
    | true => exact .bind _ fun _ => ih _
    | false => exact .bind _ fun _ => .bind _ fun _ => .bind _ fun _ => ih _

private theorem exhausts_operand (h : Exhausts IsBracket inside.operand) :
    Exhausts IsBracket (operand inside) := by
  refine .test (.bind _ fun _ => h.bind_look_pure) (.bind _ fun _ => .bind _ fun t => ?_)
  exact Triple.rounds fun n => exhausts_bracketsLoop _ n t

/-- A list of parts goes on with the operator, or with what a part goes on with. -/
private theorem exhausts_joined {operator : Token.Kind} {shape : List TypeExpr → Shape TypeExpr}
    {part : Parser TypeExpr} {more : Lexeme → Prop} (h : Exhausts more part) :
    Exhausts (fun l => l.token.kind = operator ∨ more l) (joined operator shape part) := by
  refine .bind _ fun start => .bind _ fun _ => ?_
  refine Triple.bind h fun first => .bind (Parser.triple_operands h) fun others => ?_
  split
  · exact .pure fun _ hc => hc
  · exact .look_bind fun _ => .pure fun _ hc => hc.1

/-- A union goes on until there is no operator and no bracket. -/
private theorem exhausts_union (h : Exhausts IsBracket inside.operand) :
    Exhausts Continues (union inside) :=
  exhausts_joined (exhausts_joined (exhausts_operand h))

/-- **A type expression is read as far as it goes.** -/
theorem exhausts_nested (limit : Option ℕ) (knots : ℕ) :
    Exhausts Continues (nested limit knots).whole ∧
      Exhausts IsBracket (nested limit knots).operand := by
  induction knots with
  | zero => exact ⟨.halt _, .halt _⟩
  | succ knots ih => exact ⟨.nesting (exhausts_union ih.2), .nesting (exhausts_operand ih.2)⟩

end TypeExpr

end Reifier
