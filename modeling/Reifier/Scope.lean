import Reifier.Expr.Basic
import Reifier.Name
import Reifier.NameSet

/-!
# Names in use

The names taken in a unit, and the three names that are generated for it at the start. A generated
name is `_` and a base, followed by the least number from 2 on that is needed for it to be free, or
by none when it is free without.
-/

namespace Reifier

/-- The names of a unit. `emitted` says that a value which refers to the library has been put into
the unit. -/
structure Scope where
  taken : NameSet
  library : String
  assert : String
  extend : String
  emitted : Bool

namespace Scope

/-- The generated name with a given base and number; the first one shows no number. -/
def candidate (base : String) (number : Nat) : String :=
  if number ≤ 1 then "_" ++ base else "_" ++ base ++ toString number

/-- The first of some candidates from `number` on that is not taken, and the one after them if all
are. -/
def firstFree (taken : NameSet) (base : String) : Nat → Nat → String
  | 0, number => candidate base number
  | tries + 1, number =>
    if taken.contains (candidate base number) then firstFree taken base tries (number + 1)
    else candidate base number

/-- The generated name for a text. Of one candidate more than there are names taken, one is
free. -/
def generated (taken : NameSet) (hint : String) : String :=
  firstFree taken (Name.generatedBase hint) taken.size 1

/-- Generates a name for a text, and takes it. -/
def fresh (scope : Scope) (hint : String) : String × Scope :=
  let name := generated scope.taken hint
  (name, { scope with taken := scope.taken.insert name })

/-- The scope of a unit that spells given names. -/
def ofNames (names : NameSet) : Scope :=
  let library := generated names "t"
  let taken := names.insert library
  let assert := generated taken "assert"
  let taken := taken.insert assert
  let extend := generated taken "extend"
  ⟨taken.insert extend, library, assert, extend, false⟩

/-- Takes a name, and says whether it was free. -/
def declare (scope : Scope) (name : String) : Bool × Scope :=
  let (added, taken) := scope.taken.add name
  (added, { scope with taken })

/-- Whether a name is taken. -/
def isTaken (scope : Scope) (name : String) : Bool := scope.taken.contains name

/-- Notes a value that has been put into the unit. -/
def note (scope : Scope) (value : Expr) : Scope :=
  { scope with emitted := scope.emitted || value.mentions scope.library }

end Scope

end Reifier
