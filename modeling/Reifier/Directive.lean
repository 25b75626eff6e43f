import Reifier.Program.Basic
import Reifier.Text.Blank
import Reifier.Text.Search

/-!
# The directive

A unit takes part when one of its comments contains the directive. The directive is taken out of
every comment that contains it, once in each, and a comment of which only blank space and stars
are left is not printed any more. The empty directive is contained in no comment.
-/

namespace Reifier.Directive

/-- What becomes of a comment that contained the directive. -/
structure Edit where
  comment : CommentId
  text : String
  ignored : Bool
deriving DecidableEq

/-- The edit of one comment, if it contains the directive. -/
def edit? (directive : String) (id : CommentId) (comment : Comment) : Option Edit :=
  if directive.isEmpty then none
  else
    (Text.erase? directive.toList comment.text.toList).map fun text =>
      ⟨id, String.ofList text, text.all fun c => c = '*' || Text.isBlank c⟩

/-- The edits of comments, the first of which has the place `id`. -/
def scanFrom (directive : String) (id : CommentId) : List Comment → List Edit
  | [] => []
  | c :: cs => (edit? directive id c).toList ++ scanFrom directive (id + 1) cs

/-- The edits of all comments that contain the directive, in order. -/
def scan (directive : String) (comments : List Comment) : List Edit := scanFrom directive 0 comments

/-- Makes one edit; without effect if there is no such comment. -/
def Edit.apply (comments : List Comment) (edit : Edit) : List Comment :=
  comments.modify edit.comment fun c => { c with text := edit.text, ignored := edit.ignored }

/-- Makes edits. -/
def applyAll (edits : List Edit) (comments : List Comment) : List Comment :=
  edits.foldl Edit.apply comments

end Reifier.Directive
