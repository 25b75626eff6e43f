import Reifier.Expr.Printer
import Reifier.Program.Basic

/-!
# Printing programs

Statements are printed with an empty line between them, each below its comments. Constants and
imports have a printed form; of any other statement the source is kept. In a statement without a
structure only the spans change that something new stands in: a constant in place of a
declaration, with the indentation of the line that it begins on, and a comment in place of one that
has been edited.
-/

namespace Reifier

/-! ### Statements with a printed form -/

/-- The printed form of a constant. -/
def Const.render (decl : Const) : String :=
  "const " ++ decl.id.name ++ " = " ++ decl.init.render 0 ++ ";"

/-- The word that says what an import brings in. -/
def ImportKind.render : ImportKind → String
  | value => ""
  | type => "type "
  | typeOf => "typeof "

namespace Import

/-- The specifiers that stand outside braces. -/
def outerSpecifier? : ImportSpecifier → Option String
  | .default id => some id.name
  | .star id => some ("* as " ++ id.name)
  | .named .. => none

/-- The specifiers that stand in braces. -/
def namedSpecifier? : ImportSpecifier → Option String
  | .named imported id =>
    some (if imported.name = id.name then id.name else imported.name ++ " as " ++ id.name)
  | _ => none

/-- The specifiers of an import, those in braces last. -/
def clause (specifiers : List ImportSpecifier) : String :=
  let named := specifiers.filterMap namedSpecifier?
  let braces := if named.isEmpty then [] else ["\x7b " ++ ", ".intercalate named ++ " \x7d"]
  ", ".intercalate (specifiers.filterMap outerSpecifier? ++ braces)

/-- The printed form of an import. -/
def render (decl : Import) : String :=
  "import " ++ decl.kind.render ++
    (if decl.specifiers.isEmpty then "" else clause decl.specifiers ++ " from ") ++
    Text.quote decl.source.value ++ ";"

end Import

/-! ### Statements without a structure -/

/-- A text that goes into the place of a span. -/
structure Splice where
  span : Span
  text : String

namespace Splice

/-- Puts a splice in front of the first one that begins later. -/
def insert (s : Splice) : List Splice → List Splice
  | [] => [s]
  | t :: ts => if s.span.start < t.span.start then s :: t :: ts else t :: insert s ts

/-- Splices in the order of their starts; those of one start keep their order. -/
def sort (splices : List Splice) : List Splice := splices.foldl (fun sorted s => insert s sorted) []

/-- A text with splices put in; the text begins at `offset`. A splice that begins before it is left
out. -/
def weave (offset : Nat) (text : List Char) : List Splice → List Char
  | [] => text
  | s :: ss =>
    if s.span.start < offset then weave offset text ss
    else
      -- What stands before the splice is kept, and what it takes the place of is dropped.
      let kept := (Text.takeBytes? text (s.span.start - offset)).getD []
      let rest := (Text.dropBytes? text (s.span.stop - offset)).getD []
      kept ++ s.text.toList ++ weave s.span.stop rest ss

end Splice

/-- The blank space in front of a line up to an offset; nothing if other characters stand there. -/
def lineIndent (text : List Char) (offset : Nat) : List Char :=
  let before := (Text.takeBytes? text offset).getD []
  let line := (before.reverse.takeWhile (· ≠ '\n')).reverse
  if line.all fun c => c = ' ' || c = '\t' then line else []

/-- Puts blank space behind every line feed. -/
def reindent (indent : List Char) (text : List Char) : List Char :=
  text.flatMap fun c => if c = '\n' then '\n' :: indent else [c]

namespace Verbatim

/-- The constant that goes into the place of a declaration. -/
def constSplice? (text : Verbatim) (item : Item Declaration) : Option Splice :=
  match item.node with
  | .const decl =>
    let indent := lineIndent text.text.toList (decl.span.start - text.span.start)
    some ⟨decl.span, String.ofList (reindent indent decl.render.toList)⟩
  | _ => none

/-- What goes into the place of a comment, if that is not what stands there. -/
def commentSplice? (source : List Char) (comment : Comment) : Option Splice :=
  let rendered := if comment.ignored then "" else comment.render
  if rendered.toList = (Text.slice? source comment.span).getD [] then none
  else some ⟨comment.span, rendered⟩

/-- All that goes into a statement. A comment inside a declaration that is replaced goes with
it. -/
def splices (text : Verbatim) (source : List Char) (comments : List Comment) : List Splice :=
  let consts := text.nested.filterMap text.constSplice?
  let inside := comments.filter fun c =>
    text.span.encloses c.span && !consts.any fun s => s.span.encloses c.span
  Splice.sort (consts ++ inside.filterMap (commentSplice? source))

/-- The printed form of a statement without a structure. -/
def render (text : Verbatim) (source : List Char) (comments : List Comment) : String :=
  String.ofList
    (Splice.weave text.span.start text.text.toList (text.splices source comments))

end Verbatim

/-! ### Programs -/

namespace Program

/-- The text of a span of the source. -/
def sliceOf (source : List Char) (span : Span) : String :=
  String.ofList ((Text.slice? source span).getD [])

/-- The printed form of a statement. -/
def renderStatement (program : Program) (source : List Char) : Statement → String
  | .declaration (.const decl) => decl.render
  -- A type that has not been replaced is printed as it was written.
  | .declaration decl => sliceOf source decl.span
  | .imports decl => decl.render
  | .exports ⟨_, .const decl, _⟩ => "export " ++ decl.render
  | .exports decl => sliceOf source decl.span
  | .verbatim text => text.render source program.comments

/-- The comments that are printed among those with given places; none if `comments` is false. -/
def visibleComments (program : Program) (comments : Bool) (ids : List CommentId) : List Comment :=
  (program.commentsAt ids).filter fun c => comments && !c.ignored

/-- The printed form of an item: its comments on lines of their own, then its statement. -/
def renderItem (program : Program) (source : List Char) (comments : Bool)
    (item : Item Statement) : String :=
  String.join ((program.visibleComments comments item.comments).map (·.render ++ "\n")) ++
    program.renderStatement source item.node

/-- The printed form of a program; without the comments above its statements and after them if
`comments` is false. -/
def render (program : Program) (source : String) (comments : Bool) : String :=
  let items := program.body.map (program.renderItem source.toList comments)
  let trailing := (program.visibleComments comments program.trailing).map Comment.render
  let parts := items ++ (if trailing.isEmpty then [] else ["\n".intercalate trailing])
  if parts.isEmpty then "" else "\n\n".intercalate parts ++ "\n"

end Program

end Reifier
