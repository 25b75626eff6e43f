import Reifier.Name
import Reifier.Text.Hex
import Reifier.Token.Basic

/-!
# Splitting a text into tokens

Every text splits into tokens, and the tokens put together give the text back. At each place the
longest token that can stand there is taken. Where none can, the piece taken is `unexpected`: it
holds what a string, template or comment that is never closed could have held, and at least one
character. Neighbouring unexpected pieces form one token.
-/

namespace Reifier.Token

/-- A token without its place. Its first character is a field of its own, since no token is
empty. -/
structure Piece where
  kind : Kind
  first : Char
  more : List Char

/-- The characters of a piece. -/
def Piece.chars (p : Piece) : List Char := p.first :: p.more

/-! ### Runs that need a closing mark -/

/-- What follows an opening mark: the characters taken, and whether the closing mark is the last
of them. -/
structure Run where
  taken : List Char
  closed : Bool

/-- Puts characters in front of a run. -/
def Run.after (cs : List Char) (run : Run) : Run := { run with taken := cs ++ run.taken }

/-- The characters of a string after its opening quote. A backslash takes the next character
along, and both characters of a line break of two; a bare line feed ends the run. -/
def stringRun (quote : Char) : List Char → Run
  | [] => ⟨[], false⟩
  | '\\' :: '\r' :: '\n' :: cs => (stringRun quote cs).after ['\\', '\r', '\n']
  | '\\' :: c :: cs => (stringRun quote cs).after ['\\', c]
  | c :: cs =>
    if c = quote then ⟨[c], true⟩
    else if c = '\n' then ⟨[], false⟩
    else (stringRun quote cs).after [c]

/-- The characters of a template after its opening mark. A backslash takes the next character
along; before a line feed it ends the run. -/
def templateRun : List Char → Run
  | [] => ⟨[], false⟩
  | '\\' :: c :: cs => if c = '\n' then ⟨['\\'], false⟩ else (templateRun cs).after ['\\', c]
  | c :: cs => if c = '\x60' then ⟨[c], true⟩ else (templateRun cs).after [c]

/-- The characters of a block comment after its opening mark. -/
def blockRun : List Char → Run
  | [] => ⟨[], false⟩
  | '*' :: '/' :: _ => ⟨['*', '/'], true⟩
  | c :: cs => (blockRun cs).after [c]

/-- The piece of a run: of the given kind if it is closed. -/
def Run.piece (run : Run) (kind : Kind) (first : Char) : Piece :=
  ⟨if run.closed then kind else .unexpected, first, run.taken⟩

/-! ### Numbers -/

/-- The exponent at the front of a text: a letter, an optional sign and digits; empty when there
is none. -/
def exponentPart : List Char → List Char
  | e :: cs =>
    if e = 'e' ∨ e = 'E' then
      match cs with
      | s :: rest =>
        -- A letter without digits behind it is no exponent, with a sign or without one.
        if s = '+' ∨ s = '-' then
          match rest.takeWhile Char.isDigit with
          | [] => []
          | digits => e :: s :: digits
        else
          match cs.takeWhile Char.isDigit with
          | [] => []
          | digits => e :: digits
      | [] => []
    else []
  | [] => []

/-- The fraction at the front of a text: a point and digits; empty when there is none. -/
def fractionPart : List Char → List Char
  | '.' :: cs =>
    match cs.takeWhile Char.isDigit with
    | [] => []
    | digits => '.' :: digits
  | _ => []

/-- The digits behind a zero and an `x`; empty when there are none. -/
def hexPart (c : Char) : List Char → List Char
  | x :: cs => if c = '0' ∧ (x = 'x' ∨ x = 'X') then cs.takeWhile Hex.isDigit else []
  | [] => []

/-- The number whose first digit is `c`. -/
def numberPiece (c : Char) (cs : List Char) : Piece :=
  let hex := hexPart c cs
  if hex.isEmpty then
    let digits := cs.takeWhile Char.isDigit
    let tail := cs.dropWhile Char.isDigit
    if tail.head? = some 'n' then ⟨.bigInt, c, digits ++ ['n']⟩
    else
      let fraction := fractionPart tail
      ⟨.number, c, digits ++ fraction ++ exponentPart (tail.drop fraction.length)⟩
  else ⟨.number, c, cs.take 1 ++ hex⟩

/-! ### Pieces -/

/-- The blank characters of the grammar. -/
def isSpace (c : Char) : Bool :=
  c = ' ' || c = '\t' || c = '\r' || c = '\n' || c = '\x0c'

/-- The tokens of fixed spelling, each before those that it begins with. -/
def punctuation : List (Kind × Char × List Char) :=
  [(.braceBarOpen, '{', ['|']), (.barBraceClose, '|', ['}']), (.arrow, '=', ['>']),
    (.ellipsis, '.', ['.', '.']), (.braceOpen, '{', []), (.braceClose, '}', []),
    (.parenOpen, '(', []), (.parenClose, ')', []), (.bracketOpen, '[', []),
    (.bracketClose, ']', []), (.less, '<', []), (.greater, '>', []), (.comma, ',', []),
    (.semicolon, ';', []), (.colon, ':', []), (.question, '?', []), (.pipe, '|', []),
    (.ampersand, '&', []), (.equals, '=', []), (.dot, '.', []), (.star, '*', []),
    (.minus, '-', []), (.plus, '+', [])]

/-- The token of fixed spelling at the front of a text, if there is one. -/
def punctuationPiece? (c : Char) (cs : List Char) : Option Piece :=
  (punctuation.find? fun (_, first, more) => c = first && more.isPrefixOf cs).map
    fun (kind, first, more) => ⟨kind, first, more⟩

/-- The piece that a slash begins. -/
def slashPiece : List Char → Piece
  | '/' :: cs => ⟨.lineComment, '/', '/' :: cs.takeWhile (· ≠ '\n')⟩
  | '*' :: cs => ((blockRun cs).after ['*']).piece .blockComment '/'
  | _ => ⟨.unexpected, '/', []⟩

/-- The piece at the front of a text. -/
def pieceAt (c : Char) (cs : List Char) : Piece :=
  if isSpace c then ⟨.blank, c, cs.takeWhile isSpace⟩
  else if Name.isStart c then ⟨.identifier, c, cs.takeWhile Name.isPart⟩
  else if c.isDigit then numberPiece c cs
  else if c = '\'' ∨ c = '\x22' then (stringRun c cs).piece .string c
  else if c = '\x60' then (templateRun cs).piece .template c
  else if c = '/' then slashPiece cs
  else (punctuationPiece? c cs).getD ⟨.unexpected, c, []⟩

/-- The pieces of a text after the next `skip` characters, which the piece before has taken. -/
def piecesAfter (skip : Nat) : List Char → List Piece
  | [] => []
  | c :: cs =>
    match skip with
    | skip + 1 => piecesAfter skip cs
    | 0 =>
      let p := pieceAt c cs
      p :: piecesAfter p.more.length cs

/-- The pieces of a text. -/
def pieces (cs : List Char) : List Piece := piecesAfter 0 cs

/-! ### Tokens -/

/-- Joins neighbouring unexpected pieces. -/
def joinUnexpected : List Piece → List Piece
  | [] => []
  | p :: ps =>
    match joinUnexpected ps with
    | [] => [p]
    | q :: qs =>
      if p.kind = .unexpected ∧ q.kind = .unexpected then
        ⟨.unexpected, p.first, p.more ++ q.chars⟩ :: qs
      else p :: q :: qs

/-- Gives each piece its place, the first one the place `offset`. -/
def place (offset : Nat) : List Piece → List Token
  | [] => []
  | p :: ps =>
    let stop := offset + Text.byteLength p.chars
    ⟨p.kind, String.ofList p.chars, ⟨offset, stop⟩⟩ :: place stop ps

/-- The tokens of characters. -/
def ofChars (cs : List Char) : List Token := place 0 (joinUnexpected (pieces cs))

/-- The tokens of a text. -/
def scan (source : String) : List Token := ofChars source.toList

end Reifier.Token
