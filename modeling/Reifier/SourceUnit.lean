import Reifier.Program.Parser
import Reifier.Program.Printer
import Reifier.Session

/-!
# Source units

A source text, its program, and what is wrong with it. What is wrong counts only when the unit
takes part: any other text passes through as it is, whether it can be read or not.
-/

namespace Reifier

/-- Why a unit has no result: it is nested too deeply, it takes part but cannot be read, or a
declaration in it is refused. -/
inductive UnitError where
  | halted (cause : Halt)
  | unreadable (diagnostics : List Diagnostic)
  | refused (diagnostics : List Diagnostic)

/-- A source text and its program; `reified` when the types of the program have been turned into
values. -/
structure SourceUnit where
  source : String
  program : Program
  diagnostics : List Diagnostic
  reified : Bool

namespace SourceUnit

/-- Reads a unit. -/
def parse (limit : Option Nat) (source : String) : Except UnitError SourceUnit :=
  match Program.parse limit source with
  | .ok reading => .ok ⟨source, reading.program, reading.diagnostics, false⟩
  | .error cause => .error (.halted cause)

/-- Whether a unit takes part. -/
def takesPart (settings : Settings) (unit : SourceUnit) : Bool :=
  !(Directive.scan settings.directive unit.program.comments).isEmpty

/-- Turns the types of a unit into values, if the unit takes part. -/
def transform (settings : Settings) (unit : SourceUnit) : Except UnitError SourceUnit :=
  -- The program may be that of an earlier transformation; it is printed no more.
  if !unit.takesPart settings then .ok { unit with reified := false }
  else if !unit.diagnostics.isEmpty then .error (.unreadable unit.diagnostics)
  else
    match Session.run settings unit.program with
    | .ok program => .ok { unit with program, reified := true }
    | .error refusal => .error (.refused [refusal.diagnostic])

/-- Whether nothing is wrong with the source of a unit. -/
def isValid (unit : SourceUnit) : Bool := unit.diagnostics.isEmpty

/-- The printed program; the source as it is, if the program has not been changed. -/
def print (unit : SourceUnit) : String :=
  if unit.reified then unit.program.render unit.source true else unit.source

end SourceUnit

/-- Reads a source, turns its types into values, and prints the result. -/
def transform (settings : Settings) (source : String) : Except UnitError String := do
  let unit ← SourceUnit.parse (some Program.defaultLimit) source
  let unit ← unit.transform settings
  return unit.print

end Reifier
