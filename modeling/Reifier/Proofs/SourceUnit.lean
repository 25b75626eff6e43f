import Reifier.Proofs.Session.Settled
import Reifier.Proofs.TypeExpr.Refusal
import Reifier.SourceUnit

/-!
# Transforming a unit again

A unit that has been transformed holds no types any more, so transforming it again changes none of
its statements. What it may change are comments: the directive is taken out of a comment only once
at a time, so a comment that held it twice takes part a second time.
-/

namespace Reifier.SourceUnit

variable {settings : Settings} {unit done : SourceUnit} {limit : Option ℕ} {source : String}

/-- What reading a unit comes to is what reading its program comes to. -/
theorem parse_program (h : parse limit source = .ok unit) :
    ∃ reading, Program.parse limit source = .ok reading ∧ unit.program = reading.program := by
  unfold parse at h
  split at h
  · rename_i reading hreading
    cases h
    exact ⟨reading, hreading, rfl⟩
  · cases h

/-- A unit keeps the source that it has been made of. -/
theorem parse_source (h : parse limit source = .ok unit) : unit.source = source := by
  unfold parse at h
  split at h
  · cases h
    rfl
  · cases h

/-- A unit takes part if a comment holds the directive. -/
theorem takesPart_iff : unit.takesPart settings = true ↔
    Directive.scan settings.directive unit.program.comments ≠ [] := by
  simp [takesPart]

/-- A unit that does not take part stays as it is. -/
theorem transform_of_not_takesPart (h : ¬ unit.takesPart settings = true) :
    unit.transform settings = .ok { unit with reified := false } := by
  rw [transform, if_pos (by simpa using h)]

/-- Only a unit that takes part is rewritten. -/
theorem takesPart_of_reified (hdone : unit.transform settings = .ok done)
    (hreified : done.reified = true) : unit.takesPart settings = true := by
  by_contra hnot
  rw [transform_of_not_takesPart hnot] at hdone
  cases hdone
  cases hreified

/-- What a successful transformation says about a unit that takes part. -/
theorem transform_of_takesPart (h : unit.takesPart settings = true)
    (hdone : unit.transform settings = .ok done) :
    unit.diagnostics = [] ∧ ∃ program, Session.run settings unit.program = .ok program ∧
      done = { unit with program, reified := true } := by
  rw [transform, if_neg (by simp [h])] at hdone
  split_ifs at hdone with hdiagnostics
  split at hdone
  · rename_i program hrun
    cases hdone
    exact ⟨by simpa using hdiagnostics, program, hrun, rfl⟩
  · cases hdone

/-- A unit that takes part and has been read without reports becomes what a session makes of it. -/
private theorem transform_of_run (h : unit.takesPart settings = true)
    (hdiagnostics : unit.diagnostics = [])
    {program : Program} (hrun : Session.run settings unit.program = .ok program) :
    unit.transform settings = .ok { unit with program, reified := true } := by
  rw [transform, if_neg (by simp [h]), if_neg (by simp [hdiagnostics]), hrun]

/-- **Transforming a unit again changes none of its statements.** It always succeeds, and takes the
directive once more out of the comments that still hold it. A unit that took no part is printed as
before, and one that takes part again as it was apart from those comments. -/
theorem transform_again (h : unit.transform settings = .ok done) :
    ∃ again, done.transform settings = .ok again ∧
      again.source = done.source ∧ again.diagnostics = done.diagnostics ∧
      again.program = Session.strip settings done.program ∧
      (¬ unit.takesPart settings = true → again.print = done.print) ∧
      (done.takesPart settings = true →
        again.print = { done with program := Session.strip settings done.program }.print) := by
  have hrest : ∀ u : SourceUnit, ¬ u.takesPart settings = true →
      u.program = Session.strip settings u.program := by
    intro u hu
    rw [takesPart_iff, not_not] at hu
    exact (Session.strip_of_scan_nil hu).symm
  by_cases hunit : unit.takesPart settings = true
  -- Whether the directive is left in a comment decides if the unit takes part a second time.
  · obtain ⟨hdiagnostics, program, hrun, rfl⟩ := transform_of_takesPart hunit h
    by_cases hdone : { unit with program, reified := true }.takesPart settings = true
    · have hagain := transform_of_run hdone hdiagnostics (Session.run_of_run hrun)
      exact ⟨_, hagain, rfl, rfl, rfl, fun hnot => absurd hunit hnot, fun _ => rfl⟩
    · have hagain := transform_of_not_takesPart hdone
      exact ⟨_, hagain, rfl, rfl, hrest _ hdone, fun hnot => absurd hunit hnot,
        fun hyes => absurd hyes hdone⟩
  · rw [transform_of_not_takesPart hunit] at h
    cases h
    have hagain := transform_of_not_takesPart hunit
    exact ⟨_, hagain, rfl, rfl, hrest unit hunit, fun _ => rfl, fun hyes => absurd hyes hunit⟩

/-! ### A comment that holds the directive twice -/

/-- What a source is printed as when it has been transformed once and when it has been transformed
twice. -/
def printsOf (limit : Option ℕ) (settings : Settings) (source : String) :
    Except UnitError (String × String) := do
  let unit ← parse limit source
  let done ← unit.transform settings
  let again ← done.transform settings
  return (done.print, again.print)

/-- What is printed after one transformation and after two comes from units that have been
transformed. -/
private theorem exists_of_printsOf {limit : Option ℕ} {source once twice : String}
    (h : (printsOf limit settings source).toOption = some (once, twice)) :
    ∃ unit done again, parse limit source = .ok unit ∧ unit.transform settings = .ok done ∧
      done.transform settings = .ok again ∧ done.print = once ∧ again.print = twice := by
  cases hprints : printsOf limit settings source with
  | error e =>
    rw [hprints] at h
    cases h
  | ok prints =>
    rw [hprints] at h
    cases h
    obtain ⟨unit, hunit, hprints⟩ := exists_of_bind_eq_ok hprints
    obtain ⟨done, hdone, hprints⟩ := exists_of_bind_eq_ok hprints
    obtain ⟨again, hagain, hprints⟩ := exists_of_bind_eq_ok hprints
    cases hprints
    exact ⟨unit, done, again, hunit, hdone, hagain, rfl, rfl⟩

/-- The source of both theorems below. -/
def twiceMarked : String := "// @tcomb @tcomb x\ntype A = string"

private theorem printsOf_twiceMarked :
    (printsOf (some Program.defaultLimit) .default twiceMarked).toOption =
      some ("import _t from 'tcomb';\n\n//  @tcomb x\nconst A = _t.String;\n",
        "import _t from 'tcomb';\n\n//   x\nconst A = _t.String;\n") := by
  decide +kernel

/-- The declaration in this source is a constant after the first time; the second time only changes
the comment. -/
theorem transform_again_twiceMarked :
    ∃ unit done again, parse (some Program.defaultLimit) twiceMarked = .ok unit ∧
      unit.transform .default = .ok done ∧ done.transform .default = .ok again ∧
      again.program = Session.strip .default done.program := by
  obtain ⟨unit, done, -, hunit, hdone, -⟩ := exists_of_printsOf printsOf_twiceMarked
  obtain ⟨again, hagain, -, -, hprogram, -⟩ := transform_again hdone
  exact ⟨unit, done, again, hunit, hdone, hagain, hprogram⟩

/-- Transforming a unit again may change what is printed. -/
theorem exists_print_again_ne :
    ∃ unit done again, parse (some Program.defaultLimit) twiceMarked = .ok unit ∧
      unit.transform .default = .ok done ∧ done.transform .default = .ok again ∧
      again.print ≠ done.print := by
  obtain ⟨unit, done, again, hunit, hdone, hagain, honce, htwice⟩ :=
    exists_of_printsOf printsOf_twiceMarked
  refine ⟨unit, done, again, hunit, hdone, hagain, ?_⟩
  rw [honce, htwice]
  decide

end Reifier.SourceUnit
