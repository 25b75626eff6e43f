import Reifier.Proofs.Session.Settled

/-!
# What steps do to the names of a unit

A step that refuses nothing leaves a trace: the names that it generates, say, or the values that it
notes. `Step.Traces R post` says that what the step comes to satisfies `post` with its trace, and
that `R` relates the scope before it, the trace and the scope after it. Traces of steps in a row are
put together, so `R` has to hold of nothing done, and of two traces one after the other if it holds
of each (`Scope.Composable`).
-/

namespace Reifier

/-- A relation of scopes that goes along with traces put together. -/
class Scope.Composable {τ : Type} (R : Scope → List τ → Scope → Prop) : Prop where
  refl (scope : Scope) : R scope [] scope
  trans {scope mid next : Scope} {trace more : List τ} :
    R scope trace mid → R mid more next → R scope (trace ++ more) next

namespace Session

open Scope (Composable)

/-- A step that does not refuse comes to something that satisfies `post` with the trace that it
leaves, and changes the scope as `R` says of this trace. -/
def Step.Traces {α τ : Type} (R : Scope → List τ → Scope → Prop) (post : α → List τ → Prop)
    (step : Step α) : Prop :=
  ∀ scope a scope', step.run scope = (.ok a, scope') → ∃ trace, post a trace ∧ R scope trace scope'

namespace Step.Traces

variable {α β τ : Type} {R : Scope → List τ → Scope → Prop} [Composable R]
  {post : α → List τ → Prop} {post' : β → List τ → Prop} {step : Step α}

/-- A step that does nothing leaves no trace. -/
protected theorem pure {a : α} (h : post a []) : Traces R post (pure a) := by
  intro scope b scope' hrun
  cases hrun
  exact ⟨[], h, Composable.refl scope⟩

/-- One step after another leaves the two traces one behind the other. -/
protected theorem bind {f : α → Step β} (hstep : Traces R post step)
    (hf : ∀ a trace, post a trace → Traces R (fun b more => post' b (trace ++ more)) (f a)) :
    Traces R post' (step >>= f) := by
  intro scope b scope' hrun
  obtain ⟨a, mid, hfirst, hrest⟩ := Step.exists_of_run_bind hrun
  obtain ⟨trace, ha, hscope⟩ := hstep scope a mid hfirst
  obtain ⟨more, hb, hscope'⟩ := hf a trace ha mid b scope' hrest
  exact ⟨trace ++ more, hb, Composable.trans hscope hscope'⟩

/-- What is made of the result of a step leaves no trace of its own. -/
protected theorem map {f : α → β} (hstep : Traces R post step)
    (hf : ∀ a trace, post a trace → post' (f a) trace) : Traces R post' (f <$> step) := by
  rw [map_eq_pure_bind]
  refine .bind hstep fun a trace ha => .pure ?_
  rw [List.append_nil]
  exact hf a trace ha

/-- A step that leaves no trace. -/
theorem quiet_bind {post : α → Prop} {f : α → Step β}
    (hstep : Traces R (fun a trace => trace = [] ∧ post a) step)
    (hf : ∀ a, post a → Traces R post' (f a)) : Traces R post' (step >>= f) := by
  refine .bind hstep fun a trace ha => ?_
  obtain ⟨rfl, ha⟩ := ha
  exact hf a ha

theorem ofExcept (x : Except Refusal α) :
    Traces R (fun _ trace => trace = [] ∧ True) (Step.ofExcept x) := by
  intro scope a scope' hrun
  cases hrun
  exact ⟨[], ⟨rfl, trivial⟩, Composable.refl scope⟩

/-- A change of the scope leaves the trace that describes it. -/
theorem modify_bind {change : Scope → Scope} {trace : List τ} {f : PUnit → Step β}
    (h : ∀ scope : Scope, R scope trace (change scope))
    (hf : Traces R (fun b more => post' b (trace ++ more)) (f ⟨⟩)) :
    Traces R post' (modify change >>= f) := by
  have hmodify : Traces R (fun _ more => more = trace) (modify change : Step PUnit) := by
    intro scope a scope' hrun
    cases hrun
    exact ⟨trace, rfl, h scope⟩
  refine .bind hmodify fun _ _ hmore => ?_
  rw [hmore]
  exact hf

theorem get : Traces R (fun _ trace => trace = [] ∧ True) (get : Step Scope) := by
  intro scope a scope' hrun
  cases hrun
  exact ⟨[], ⟨rfl, trivial⟩, Composable.refl scope⟩

end Step.Traces

end Session

end Reifier
