import Reifier.Text.Blank
import Reifier.Text.Hex

/-!
# Quoted strings

A string is written between single quotes. A quote, a backslash, a line feed, a carriage return
and a tab are written as a backslash and one more character, every other control character as
`\u` and four digits, and all else as itself (`encode`).

Reading (`decode`) knows more escapes than writing uses: the single-character ones, `\xHH`,
`\uHHHH` with surrogate pairs, `\u{H…}`, and a backslash before a line break, which stands for
nothing. An escape that is none of these, or is malformed, only loses its backslash.
-/

namespace Reifier.Text.Quoted

/-! ### Writing -/

/-- How one character is written between the quotes. -/
def escape (c : Char) : List Char :=
  if c = '\'' then ['\\', '\'']
  else if c = '\\' then ['\\', '\\']
  else if c = '\n' then ['\\', 'n']
  else if c = '\r' then ['\\', 'r']
  else if c = '\t' then ['\\', 't']
  else if isControl c then '\\' :: 'u' :: Hex.fourDigits c.toNat
  else [c]

/-- A string in single quotes. -/
def encode (cs : List Char) : List Char :=
  '\'' :: (cs.flatMap escape ++ ['\''])

/-! ### Reading -/

/-- The replacement character, read for a surrogate that has no partner. -/
def replacement : Char := '\uFFFD'

/-- What an escape stands for, and how many characters after the backslash belong to it. -/
structure Escape where
  char? : Option Char
  length : Nat

/-- Whether a code unit is the first half of a surrogate pair. -/
def isHighSurrogate (n : Nat) : Bool := 0xD800 ≤ n && n < 0xDC00

/-- Whether a code unit is the second half of a surrogate pair. -/
def isLowSurrogate (n : Nat) : Bool := 0xDC00 ≤ n && n < 0xE000

/-- The character that a surrogate pair denotes. -/
def pairChar (high low : Nat) : Char :=
  Char.ofNat (0x10000 + (high - 0xD800) * 0x400 + (low - 0xDC00))

/-- The character with a given code, if there is one. -/
def charOfCode? (n : Nat) : Option Char :=
  if n.isValidChar then some (Char.ofNat n) else none

/-- The second half of a surrogate pair, written `\uHHHH` at the front of `cs`. -/
def lowHalf? : List Char → Option Nat
  | '\\' :: 'u' :: cs => (Hex.leading? 4 cs).filter isLowSurrogate
  | _ => none

/-- The escape whose `u` stands before `cs`: `\u{H…}`, a surrogate pair, or `\uHHHH`. -/
def unicodeEscape (cs : List Char) : Escape :=
  match cs with
  | '{' :: braced =>
    let digits := braced.takeWhile (· ≠ '}')
    -- Braces that are not closed, or hold no code, are read letter by letter.
    if digits.length = braced.length then ⟨some 'u', 1⟩
    else
      match (Hex.bounded? (1 <<< 32) digits).bind charOfCode? with
      | some c => ⟨some c, digits.length + 3⟩
      | none => ⟨some 'u', 1⟩
  | _ =>
    match Hex.leading? 4 cs with
    | none => ⟨some 'u', 1⟩
    | some high =>
      -- A half that stands alone is read as the replacement character.
      match if isHighSurrogate high then lowHalf? (cs.drop 4) else none with
      | some low => ⟨some (pairChar high low), 11⟩
      | none => ⟨some ((charOfCode? high).getD replacement), 5⟩

/-- The escape whose backslash stands before `cs`. -/
def escapeAt (cs : List Char) : Escape :=
  match cs with
  | [] => ⟨none, 0⟩
  | 'n' :: _ => ⟨some '\n', 1⟩
  | 't' :: _ => ⟨some '\t', 1⟩
  | 'r' :: _ => ⟨some '\r', 1⟩
  | 'b' :: _ => ⟨some '\x08', 1⟩
  | 'f' :: _ => ⟨some '\x0c', 1⟩
  | 'v' :: _ => ⟨some '\x0b', 1⟩
  | '0' :: rest => ⟨some (if rest.head?.any Char.isDigit then '0' else '\x00'), 1⟩
  | '\n' :: _ => ⟨none, 1⟩
  | '\r' :: '\n' :: _ => ⟨none, 2⟩
  | '\r' :: _ => ⟨none, 1⟩
  | 'x' :: rest =>
    match Hex.leading? 2 rest with
    | some code => ⟨some (Char.ofNat code), 3⟩
    | none => ⟨some 'x', 1⟩
  | 'u' :: rest => unicodeEscape rest
  | c :: _ => ⟨some c, 1⟩

/-- Reads what stands between the quotes, after the next `skip` characters, which an escape has
already taken. -/
def decodeAfter (skip : Nat) : List Char → List Char
  | [] => []
  | c :: cs =>
    match skip with
    | skip + 1 => decodeAfter skip cs
    | 0 =>
      if c = '\\' then
        let e := escapeAt cs
        e.char?.toList ++ decodeAfter e.length cs
      else c :: decodeAfter 0 cs

/-- Reads what stands between the quotes. -/
def decodeBody (cs : List Char) : List Char := decodeAfter 0 cs

/-- A text without its first and last byte; empty when it has no two bytes or when one of these
bytes is only part of a character. -/
def inner : List Char → List Char
  | [] => []
  | c :: cs =>
    match cs.getLast? with
    | some d => if c.utf8Size = 1 ∧ d.utf8Size = 1 then cs.dropLast else []
    | none => []

/-- The string that a quoted text denotes. -/
def decode (cs : List Char) : List Char := decodeBody (inner cs)

end Reifier.Text.Quoted

namespace Reifier.Text

/-- A string in single quotes. -/
def quote (s : String) : String := String.ofList (Quoted.encode s.toList)

/-- The string that a quoted text denotes. -/
def unquote (s : String) : String := String.ofList (Quoted.decode s.toList)

end Reifier.Text
