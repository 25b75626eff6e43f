import Reifier.Token.Basic

/-!
# Comments

A comment keeps the text between its marks. A comment that is `ignored` is left out when a
program is printed.
-/

namespace Reifier

/-- The two forms of comments. -/
inductive Comment.Kind where
  | line
  | block
deriving DecidableEq, Inhabited

/-- A comment of a source text. -/
structure Comment where
  kind : Comment.Kind
  text : String
  span : Span
  ignored : Bool
deriving DecidableEq, Inhabited

/-- The place of a comment in the list of a program's comments. -/
abbrev CommentId := Nat

namespace Comment

/-- The comment that a token is, if it is one. -/
def ofToken? (token : Token) : Option Comment :=
  match token.kind with
  | .lineComment => some ⟨.line, String.ofList (token.text.toList.drop 2), token.span, false⟩
  | .blockComment =>
    some ⟨.block, String.ofList (token.text.toList.drop 2).dropLast.dropLast, token.span, false⟩
  | _ => none

/-- A comment with its marks. -/
def render (comment : Comment) : String :=
  match comment.kind with
  | .line => "//" ++ comment.text
  | .block => "/*" ++ comment.text ++ "*/"

end Comment

end Reifier
