import Reifier.JsonValue
import Reifier.NameSet

/-!
# Settings

What a build asks for: the names of types that are declared outside every unit, the module of the
runtime library, and the directive that makes a unit take part.

In JSON, settings are an object, in which other keys mean nothing but no key of a setting stands
twice; or an array that gives some first ones of the settings in the order above. Names are given
in sets, an array of objects whose keys are the names; what they are set to is a Boolean that means
nothing.
-/

namespace Reifier

/-- The choices shared by all units of a build. -/
structure Settings where
  globals : NameSet
  library : String
  directive : String

namespace Settings

/-- The settings when nothing is asked for. -/
def default : Settings := ⟨NameSet.empty, "tcomb", "@tcomb"⟩

/-! ### Reading from JSON -/

/-- The keys of an object whose values are Booleans. -/
def keysOfFlags? : List (Option String × JsonValue) → Option (List String)
  | [] => some []
  | (some key, .bool _) :: entries => (keysOfFlags? entries).map (key :: ·)
  | _ :: _ => none

/-- The names of sets of names. -/
def namesOfSets? : List JsonValue → Option (List String)
  | [] => some []
  | .object entries :: sets =>
    (keysOfFlags? entries).bind fun names => (namesOfSets? sets).map (names ++ ·)
  | _ :: _ => none

/-- The names that a value gives. -/
def globalsOf? : JsonValue → Option NameSet
  | .array sets => (namesOfSets? sets).map NameSet.ofList
  | _ => none

/-- The text that a value is. -/
def textOf? : JsonValue → Option String
  | .string value => value
  | _ => none

/-- What a setting is given as, if it is given at all; `none` if it is given twice. -/
def given? (entries : List (Option String × JsonValue)) (key : String) :
    Option (Option JsonValue) :=
  match entries.filter (·.1 = some key) with
  | [] => some none
  | [entry] => some (some entry.2)
  | _ => none

/-- A setting as it is given, or its default. -/
def orDefault? {α : Type} (read? : JsonValue → Option α) (default : α) :
    Option JsonValue → Option α
  | none => some default
  | some value => read? value

/-- Settings from what each of them is given as. -/
def ofGiven? (globals library directive : Option JsonValue) : Option Settings := do
  let globals ← orDefault? globalsOf? default.globals globals
  let library ← orDefault? textOf? default.library library
  let directive ← orDefault? textOf? default.directive directive
  return ⟨globals, library, directive⟩

/-- The settings that a value gives. -/
def ofJson? : JsonValue → Option Settings
  | .object entries =>
    if entries.all (·.1.isSome) then do
      let globals ← given? entries "globals"
      let library ← given? entries "library"
      let directive ← given? entries "directive"
      ofGiven? globals library directive
    else none
  | .array items =>
    if items.length ≤ 3 then ofGiven? items[0]? items[1]? items[2]? else none
  | _ => none

/-- The settings that a JSON text gives. -/
def parse? (text : String) : Option Settings := (JsonValue.parse? text).bind ofJson?

/-- The names that a JSON text gives. -/
def parseGlobals? (text : String) : Option NameSet := (JsonValue.parse? text).bind globalsOf?

end Settings

end Reifier
