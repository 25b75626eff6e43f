/-!
# First occurrences

Looking for one text inside another. All searches go from the left and stop at the first place
where the sought text begins; `erase?` takes that one occurrence out and leaves later ones alone.
-/

namespace Reifier.Text

/-- What stands before and after the first occurrence of `needle`. -/
def cut? (needle : List Char) : List Char → Option (List Char × List Char)
  | [] => if needle.isEmpty then some ([], []) else none
  | c :: cs =>
    if needle.isPrefixOf (c :: cs) then some ([], (c :: cs).drop needle.length)
    else (cut? needle cs).map fun (before, after) => (c :: before, after)

/-- Whether `needle` occurs. -/
def occurs (needle text : List Char) : Bool := (cut? needle text).isSome

/-- The text without the first occurrence of `needle`, if there is one. -/
def erase? (needle text : List Char) : Option (List Char) :=
  (cut? needle text).map fun (before, after) => before ++ after

/-- The lines of a text: what stands between its line feeds. -/
def lines : List Char → List (List Char)
  | [] => [[]]
  | c :: cs =>
    if c = '\n' then [] :: lines cs
    else
      match lines cs with
      | [] => [[c]]
      | l :: ls => (c :: l) :: ls

end Reifier.Text
