import Reifier.Comment

/-!
# Lexemes

The grammar reads the tokens that are not trivia. Of the trivia before such a token it records the
comments, asks whether there is a line break, and carries the text along inside statements that it
does not take apart; a `Lexeme` holds a token with these three. A line comment counts as a line
break, since one ends it.
-/

namespace Reifier

/-- What the grammar needs of the trivia before a token. -/
structure Trivia where
  text : String
  comments : List Comment
  lineBreak : Bool

/-- A token that is not trivia, and the trivia before it. -/
structure Lexeme where
  before : Trivia
  token : Token

namespace Trivia

/-- No trivia. -/
def none : Trivia := ⟨"", [], false⟩

/-- Adds a token at the end. -/
def push (trivia : Trivia) (token : Token) : Trivia where
  text := trivia.text ++ token.text
  comments := trivia.comments ++ (Comment.ofToken? token).toList
  lineBreak := trivia.lineBreak || token.kind = .lineComment || token.text.toList.contains '\n'

end Trivia

namespace Lexeme

/-- Whether a lexeme has a given kind. -/
def hasKind (lexeme : Lexeme) (kind : Token.Kind) : Bool := lexeme.token.kind = kind

/-- Whether a lexeme is a given word. -/
def isWord (lexeme : Lexeme) (word : String) : Bool :=
  lexeme.token.kind = .identifier && lexeme.token.text = word

/-- The text of lexemes, from the first token to the last. -/
def textOf : List Lexeme → String
  | [] => ""
  | l :: ls => l.token.text ++ String.join (ls.map fun l => l.before.text ++ l.token.text)

/-- The lexemes of tokens, and the trivia after the last of them, where `before` is the trivia
in front of the tokens. -/
def ofTokensAfter (before : Trivia) : List Token → List Lexeme × Trivia
  | [] => ([], before)
  | t :: ts =>
    if t.kind.isTrivia then ofTokensAfter (before.push t) ts
    else
      let (lexemes, after) := ofTokensAfter Trivia.none ts
      (⟨before, t⟩ :: lexemes, after)

/-- The lexemes of tokens, and the trivia after the last of them. -/
def ofTokens (tokens : List Token) : List Lexeme × Trivia := ofTokensAfter Trivia.none tokens

end Lexeme

end Reifier
