import Reifier.Diagnostic.Basic
import Reifier.Text.Search

/-!
# Snippets

A diagnostic shown together with the line it is about: the line with its number, and below it
carets under the span and the message once more. An empty span gets one caret. A place after the
last character of a line gets its caret one column after the line, and so does the end of a text
that ends in a line feed, which counts as the end of the line before.
-/

namespace Reifier.Diagnostic

/-- The number of the line that holds an offset, and the line and the offset of its start;
`number` and `start` are those of the first line. -/
def lineAt (number start offset : Nat) : List (List Char) → Nat × List Char × Nat
  | [] => (number, [], start)
  | [line] => (number, line, start)
  | line :: next :: rest =>
    let stop := start + Text.byteLength line
    -- The empty line after a last line feed is not shown: its offset counts for this line.
    if offset ≤ stop ∨ (rest = [] ∧ next = []) then (number, line, start)
    else lineAt (number + 1) (stop + 1) offset (next :: rest)

/-- Repeats a character. -/
def repeated (n : Nat) (c : Char) : String := String.ofList (List.replicate n c)

/-- A diagnostic with the line of the source that it is about. -/
def snippet (source : String) (d : Diagnostic) : String :=
  let (number, line, start) := lineAt 1 0 d.span.start (Text.lines source.toList)
  let label := toString number
  let gutter := repeated label.length ' ' ++ " |"
  let column := min (d.span.start - start) line.length
  let width := max 1 (min d.span.stop (start + line.length) - d.span.start)
  let shown := if line.isEmpty then label ++ " |" else label ++ " | " ++ String.ofList line
  "error: " ++ d.message ++ "\n" ++ gutter ++ "\n" ++ shown ++ "\n" ++
    gutter ++ " " ++ repeated column ' ' ++ repeated width '^' ++ " " ++ d.message

/-- The snippets of diagnostics. -/
def snippets (source : String) (ds : List Diagnostic) : String :=
  "\n".intercalate (ds.map (snippet source))

end Reifier.Diagnostic
