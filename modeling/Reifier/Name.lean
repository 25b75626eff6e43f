/-!
# Identifiers

An identifier is a letter, `_` or `$`, followed by such characters and digits; all of them are
ASCII. `toIdentifier` makes one from any text by taking the characters that cannot stand in an
identifier as breaks between words, and `generatedBase` the part of a generated name that its
leading underscore and its number are put around.
-/

namespace Reifier.Name

/-- Whether an identifier can begin with a character. -/
def isStart (c : Char) : Bool := c.isAlpha || c = '_' || c = '$'

/-- Whether an identifier can go on with a character. -/
def isPart (c : Char) : Bool := c.isAlphanum || c = '_' || c = '$'

/-- Whether characters spell an identifier. -/
def isIdentifierChars : List Char → Bool
  | [] => false
  | c :: cs => isStart c && cs.all isPart

/-- Whether a text is an identifier. -/
def isIdentifier (s : String) : Bool := isIdentifierChars s.toList

/-- Leaves out what cannot stand in an identifier and capitalises the character after each gap;
`afterGap` says that a gap has just been left out. -/
def camelCase (afterGap : Bool) : List Char → List Char
  | [] => []
  | c :: cs =>
    if isPart c then (if afterGap then c.toUpper else c) :: camelCase false cs
    else camelCase true cs

/-- The characters of the identifier made from a text; `_` when nothing in it can begin one. -/
def toIdentifierChars (cs : List Char) : List Char :=
  match camelCase false (cs.dropWhile (!isStart ·)) with
  | [] => ['_']
  | name => name

/-- The identifier made from a text. -/
def toIdentifier (s : String) : String := String.ofList (toIdentifierChars s.toList)

/-- A list without its longest tail whose members all satisfy `p`. -/
def dropTail (p : Char → Bool) (cs : List Char) : List Char :=
  (cs.reverse.dropWhile p).reverse

/-- The characters of the base of generated names: the identifier made from a text, without
underscores in front and digits at the end; `ref` when nothing is left. -/
def generatedBaseChars (cs : List Char) : List Char :=
  -- The digits would be taken for the number of a generated name.
  match dropTail Char.isDigit ((toIdentifierChars cs).dropWhile (· = '_')) with
  | [] => ['r', 'e', 'f']
  | base => base

/-- The base of the names generated from a text. -/
def generatedBase (s : String) : String := String.ofList (generatedBaseChars s.toList)

end Reifier.Name
