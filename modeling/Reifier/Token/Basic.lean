import Reifier.Text.Span

/-!
# Tokens

A token is a piece of a source text with a kind. Keywords are identifiers: which word is one
depends on where it stands, so the grammar decides. Angle brackets are not delimiters, because in
code they are also operators.
-/

namespace Reifier

/-- The kinds of tokens. -/
inductive Token.Kind where
  | braceBarOpen
  | barBraceClose
  | braceOpen
  | braceClose
  | parenOpen
  | parenClose
  | bracketOpen
  | bracketClose
  | less
  | greater
  | comma
  | semicolon
  | colon
  | question
  | pipe
  | ampersand
  | equals
  | arrow
  | dot
  | ellipsis
  | star
  | minus
  | plus
  | string
  | template
  | number
  | bigInt
  | identifier
  | lineComment
  | blockComment
  | blank
  | unexpected
deriving DecidableEq, Inhabited

/-- A piece of a source text, with its kind and its place. -/
structure Token where
  kind : Token.Kind
  text : String
  span : Span
deriving DecidableEq, Inhabited

namespace Token.Kind

/-- Comments. -/
def isComment : Kind → Bool
  | lineComment | blockComment => true
  | _ => false

/-- What may stand between any two tokens of the grammar: comments and blank space. -/
def isTrivia : Kind → Bool
  | blank => true
  | kind => kind.isComment

/-- Braces, parentheses and brackets that open. -/
def isOpen : Kind → Bool
  | braceOpen | braceBarOpen | parenOpen | bracketOpen => true
  | _ => false

/-- Braces, parentheses and brackets that close. -/
def isClose : Kind → Bool
  | braceClose | barBraceClose | parenClose | bracketClose => true
  | _ => false

/-- How many brackets are open after a token, given how many are before it. A bracket that
closes nothing counts for nothing. -/
def depthAfter (kind : Kind) (depth : Nat) : Nat :=
  if kind.isOpen then depth + 1
  else if kind.isClose then depth - 1
  else depth

end Token.Kind

end Reifier
