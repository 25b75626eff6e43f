import Reifier.Text.Hex

/-!
# JSON texts

A strict reader: no comments, no trailing commas, no zeros in front of a number, and nothing after
the value but blank space. What a number is worth is not kept.

A string is read in two steps. The first finds its characters and the code units of its `\u`
escapes, which any four digits may follow; the second puts surrogates together, and finds no
string if one is left alone. So a value that is not asked for may hold such a string.
-/

namespace Reifier

/-- A JSON value. A string, or a key of an object, is `none` when it has no characters because a
surrogate stands alone in it. -/
inductive JsonValue where
  | null
  | bool (value : Bool)
  | number
  | string (value : Option String)
  | array (items : List JsonValue)
  | object (entries : List (Option String × JsonValue))
deriving Inhabited

namespace JsonValue

/-- The text without the blank space in front of it. -/
def skipBlank (cs : List Char) : List Char :=
  cs.dropWhile fun c => c = ' ' || c = '\t' || c = '\n' || c = '\r'

/-! ### Strings -/

/-- A part of a string: a character, or a code unit written as an escape. -/
inductive Part where
  | char (c : Char)
  | codeUnit (n : Nat)

/-- What the escape whose backslash stands before `cs` denotes, and the text after it. -/
def escape? : List Char → Option (Part × List Char)
  | 'u' :: a :: b :: c :: d :: cs =>
    (Hex.value? [a, b, c, d]).map fun n => (.codeUnit n, cs)
  | '\x22' :: cs => some (.char '\x22', cs)
  | '\\' :: cs => some (.char '\\', cs)
  | '/' :: cs => some (.char '/', cs)
  | 'b' :: cs => some (.char '\x08', cs)
  | 'f' :: cs => some (.char '\x0c', cs)
  | 'n' :: cs => some (.char '\n', cs)
  | 'r' :: cs => some (.char '\r', cs)
  | 't' :: cs => some (.char '\t', cs)
  | _ => none

/-- The parts of a string after its opening quote, and the text after its closing one. -/
def parts? : Nat → List Char → Option (List Part × List Char)
  | 0, _ => none
  | _ + 1, [] => none
  | n + 1, c :: cs =>
    if c = '\x22' then some ([], cs)
    else if c = '\\' then
      (escape? cs).bind fun (part, rest) =>
        (parts? n rest).map fun (parts, rest) => (part :: parts, rest)
    else if c.toNat < 0x20 then none
    else (parts? n cs).map fun (parts, rest) => (.char c :: parts, rest)

/-- The characters of parts, unless a surrogate stands alone. -/
def charsOf? : List Part → Option (List Char)
  | [] => some []
  | .char c :: ps => (charsOf? ps).map (c :: ·)
  | .codeUnit n :: .codeUnit m :: ps =>
    if 0xD800 ≤ n ∧ n < 0xDC00 then
      if 0xDC00 ≤ m ∧ m < 0xE000 then
        (charsOf? ps).map (Char.ofNat (0x10000 + (n - 0xD800) * 0x400 + (m - 0xDC00)) :: ·)
      else none
    else if n.isValidChar then (charsOf? (.codeUnit m :: ps)).map (Char.ofNat n :: ·)
    else none
  | .codeUnit n :: ps =>
    if n.isValidChar then (charsOf? ps).map (Char.ofNat n :: ·) else none

/-- A string after its opening quote, and the text after its closing one. -/
def string? (cs : List Char) : Option (Option String × List Char) :=
  (parts? (cs.length + 1) cs).map fun (parts, rest) => ((charsOf? parts).map String.ofList, rest)

/-! ### Numbers -/

/-- The text after at least one digit. -/
def afterDigits? (cs : List Char) : Option (List Char) :=
  if cs.head?.any Char.isDigit then some (cs.dropWhile Char.isDigit) else none

/-- The text after the whole part of a number, which has no zero in front. -/
def afterWhole? : List Char → Option (List Char)
  | '0' :: cs => if cs.head?.any Char.isDigit then none else some cs
  | cs => afterDigits? cs

/-- The text after a fraction, if there is one. -/
def afterFraction? : List Char → Option (List Char)
  | '.' :: cs => afterDigits? cs
  | cs => some cs

/-- The text after an exponent, if there is one. -/
def afterExponent? : List Char → Option (List Char)
  | e :: cs =>
    if e = 'e' ∨ e = 'E' then
      match cs with
      | '+' :: rest => afterDigits? rest
      | '-' :: rest => afterDigits? rest
      | _ => afterDigits? cs
    else some (e :: cs)
  | [] => some []

/-- The text after a number. -/
def afterNumber? (cs : List Char) : Option (List Char) :=
  let unsigned := match cs with
    | '-' :: rest => rest
    | _ => cs
  (afterWhole? unsigned).bind fun rest => (afterFraction? rest).bind afterExponent?

/-! ### Values -/

mutual

/-- The value at the front of a text, and the text after it; at most `n` steps are taken. -/
def value? : Nat → List Char → Option (JsonValue × List Char)
  | 0, _ => none
  | n + 1, cs =>
    match skipBlank cs with
    | 'n' :: 'u' :: 'l' :: 'l' :: rest => some (null, rest)
    | 't' :: 'r' :: 'u' :: 'e' :: rest => some (bool true, rest)
    | 'f' :: 'a' :: 'l' :: 's' :: 'e' :: rest => some (bool false, rest)
    | '\x22' :: rest => (string? rest).map fun (s, rest) => (string s, rest)
    | '[' :: rest =>
      match skipBlank rest with
      | ']' :: rest => some (array [], rest)
      | rest => (items? n rest).map fun (items, rest) => (array items, rest)
    | '{' :: rest =>
      match skipBlank rest with
      | '}' :: rest => some (object [], rest)
      | rest => (entries? n rest).map fun (entries, rest) => (object entries, rest)
    | rest => (afterNumber? rest).map fun rest => (number, rest)

/-- At least one item of an array, and the text after its closing bracket. -/
def items? : Nat → List Char → Option (List JsonValue × List Char)
  | 0, _ => none
  | n + 1, cs =>
    (value? n cs).bind fun (first, rest) =>
      match skipBlank rest with
      | ',' :: rest => (items? n rest).map fun (more, rest) => (first :: more, rest)
      | ']' :: rest => some ([first], rest)
      | _ => none

/-- At least one entry of an object, and the text after its closing brace. -/
def entries? : Nat → List Char → Option (List (Option String × JsonValue) × List Char)
  | 0, _ => none
  | n + 1, cs =>
    match skipBlank cs with
    | '\x22' :: rest =>
      (string? rest).bind fun (key, rest) =>
        match skipBlank rest with
        | ':' :: rest =>
          (value? n rest).bind fun (first, rest) =>
            match skipBlank rest with
            | ',' :: rest => (entries? n rest).map fun (more, rest) => ((key, first) :: more, rest)
            | '}' :: rest => some ([(key, first)], rest)
            | _ => none
        | _ => none
    | _ => none

end

/-- The value that a text denotes. No character takes more than two steps. -/
def parse? (text : String) : Option JsonValue :=
  let cs := text.toList
  match value? (2 * cs.length + 2) cs with
  | some (value, rest) => if (skipBlank rest).isEmpty then some value else none
  | none => none

end JsonValue

end Reifier
