import Mathlib.Tactic
import Reifier.Proofs.TypeExpr.Spelling

/-!
# Ways down through a type expression

A path leads from a type expression down through its parts, one inside the other. What is counted on
it are the forms other than arrays and indexed accesses: pairs of brackets may follow a form one
after another, and each of them puts one more form around it without anything being nested.

`DepthLe n t` says how `t` is built when no path counts more than `n` forms
(`DepthLe.formsOn_le`). It follows the forms, so it is what a parser can be shown to establish.
-/

namespace Reifier

/-- Whether a form is put around another one by a pair of brackets behind it. -/
def Shape.isBracketed {α : Type} : Shape α → Bool
  | array _ => true
  | indexedAccess .. => true
  | _ => false

namespace TypeExpr

/-- One type expression is directly inside another one. -/
def IsPart (t p : TypeExpr) : Prop := p ∈ t.shape.parts

/-- A way down from a type expression: the type expressions that are met, each directly inside the
one before. -/
inductive Path : TypeExpr → List TypeExpr → Prop
  | stop (t : TypeExpr) : Path t [t]
  | step {t p : TypeExpr} {path : List TypeExpr} (part : t.IsPart p) (rest : Path p path) :
      Path t (t :: path)

/-- The number of forms on a path, those that brackets make not counted. -/
def formsOn (path : List TypeExpr) : ℕ := path.countP fun t => !t.shape.isBracketed

/-- A step down counts one form at most. -/
private theorem formsOn_cons_le (t : TypeExpr) (path : List TypeExpr) :
    formsOn (t :: path) ≤ formsOn path + 1 := by
  unfold formsOn
  rw [List.countP_cons]
  split <;> omega

/-- A step down from a form that brackets make counts none. -/
private theorem formsOn_cons_of_isBracketed {t : TypeExpr} (h : t.shape.isBracketed = true)
    (path : List TypeExpr) : formsOn (t :: path) = formsOn path := by
  simp [formsOn, h]

/-- The path that goes down to the first part at each step, `steps` times at most. -/
def leftmost : ℕ → TypeExpr → List TypeExpr
  | 0, t => [t]
  | steps + 1, t =>
    match t.shape.parts with
    | [] => [t]
    | p :: _ => t :: leftmost steps p

/-- Going down to the first part is a path, however many steps are taken. -/
theorem path_leftmost (steps : ℕ) (t : TypeExpr) : t.Path (leftmost steps t) := by
  induction steps generalizing t with
  | zero => exact .stop t
  | succ steps ih =>
    rw [leftmost]
    split
    · exact .stop t
    · rename_i p ps hparts
      have hp : t.IsPart p := by
        rw [IsPart, hparts]
        exact List.mem_cons_self
      exact .step hp (ih p)

/-- At most `n` forms are inside each other, those that brackets make not counted. -/
inductive DepthLe : ℕ → TypeExpr → Prop
  | form {n : ℕ} {shape : Shape TypeExpr} {span : Span} (parts : ∀ p ∈ shape.parts, DepthLe n p) :
      DepthLe (n + 1) ⟨shape, span⟩
  | brackets {n : ℕ} {shape : Shape TypeExpr} {span : Span} (bracketed : shape.isBracketed = true)
      (parts : ∀ p ∈ shape.parts, DepthLe n p) : DepthLe n ⟨shape, span⟩

namespace DepthLe

variable {m n : ℕ} {t p : TypeExpr}

/-- A bound on the depth may be raised. -/
theorem mono (h : DepthLe m t) (hle : m ≤ n) : DepthLe n t := by
  induction h generalizing n with
  | form _ ih =>
    obtain ⟨k, rfl⟩ := Nat.exists_eq_add_one_of_ne_zero (Nat.ne_zero_of_lt hle)
    exact .form fun p hp => ih p hp (by omega)
  | brackets hshape _ ih => exact .brackets hshape fun p hp => ih p hp hle

/-- Where a form stands does not matter. -/
theorem respan (h : DepthLe n t) (span : Span) : DepthLe n ⟨t.shape, span⟩ := by
  cases h with
  | form parts => exact .form parts
  | brackets hshape parts => exact .brackets hshape parts

/-- A part is not deeper than what it is a part of. -/
private theorem of_isPart (h : DepthLe n t) (hp : t.IsPart p) : DepthLe n p := by
  cases h with
  | form parts => exact (parts p hp).mono (Nat.le_succ _)
  | brackets _ parts => exact parts p hp

/-- What holds of a type expression holds of all that is inside it. -/
theorem of_inside (h : DepthLe n t) (hp : Relation.ReflTransGen IsPart t p) : DepthLe n p := by
  induction hp with
  | refl => exact h
  | tail _ hpart ih => exact ih.of_isPart hpart

/-- No path counts more forms than are inside each other. -/
theorem formsOn_le {path : List TypeExpr} (h : DepthLe n t) (hpath : t.Path path) :
    formsOn path ≤ n := by
  -- The induction is on the path; a form that is counted leaves one less for the rest of it.
  induction hpath generalizing n with
  | stop t =>
    cases h with
    | form parts => exact (formsOn_cons_le _ []).trans (Nat.succ_le_succ (Nat.zero_le _))
    | brackets hshape parts => exact (formsOn_cons_of_isBracketed hshape []).trans_le (Nat.zero_le n)
  | step hpart _ ih =>
    cases h with
    | form parts => exact (formsOn_cons_le _ _).trans (Nat.succ_le_succ (ih (parts _ hpart)))
    | brackets hshape parts =>
      exact (formsOn_cons_of_isBracketed hshape _).trans_le (ih (parts _ hpart))

end DepthLe

end TypeExpr

end Reifier
