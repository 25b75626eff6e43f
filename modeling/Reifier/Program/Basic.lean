import Reifier.Comment
import Reifier.NameSet
import Reifier.TypeExpr.Basic

/-!
# Programs

One unit of source: its comments, its statements, and the names it spells. Only declarations of
types and imports have a structure; any other statement is `Verbatim` text, which may hold
declarations inside its brackets.

An item is a statement with the comments above it, which are given by their places in the
program's list, since a comment can change while statements move.
-/

namespace Reifier

/-! ### Declarations -/

/-- A declaration `type id = right`; `recursive` when a host has flagged it. -/
structure TypeAlias where
  id : Identifier
  params : Option (List TypeParam)
  right : TypeExpr
  recursive : Bool
  span : Span

/-- A declaration `interface id extends bases body`; `recursive` when a host has flagged it. -/
structure Interface where
  id : Identifier
  params : Option (List TypeParam)
  bases : List (Generic TypeExpr)
  body : ObjectType TypeExpr
  bodySpan : Span
  recursive : Bool
  span : Span

/-- A declaration `const id = init`. -/
structure Const where
  id : Identifier
  init : Expr
  span : Span

/-- What declares a name: a type, or a value that a type has been turned into. -/
inductive Declaration where
  | typeAlias (decl : TypeAlias)
  | interface (decl : Interface)
  | const (decl : Const)

namespace Declaration

/-- Where a declaration stands. -/
def span : Declaration → Span
  | typeAlias decl => decl.span
  | interface decl => decl.span
  | const decl => decl.span

/-- Whether a declaration declares a type. -/
def isType : Declaration → Bool
  | const _ => false
  | _ => true

/-- Whether a host has flagged a declaration as recursive. -/
def recursive : Declaration → Bool
  | typeAlias decl => decl.recursive
  | interface decl => decl.recursive
  | const _ => false

/-- Sets the flag of a declaration of a type. -/
def setRecursive (value : Bool) : Declaration → Declaration
  | typeAlias decl => typeAlias { decl with recursive := value }
  | interface decl => interface { decl with recursive := value }
  | const decl => const decl

end Declaration

/-! ### Imports -/

/-- What an import brings in: values, types, or the types of values. -/
inductive ImportKind where
  | value
  | type
  | typeOf
deriving DecidableEq

/-- One binding of an import. -/
inductive ImportSpecifier where
  | default (id : Identifier)
  | star (id : Identifier)
  | named (imported id : Identifier)
deriving DecidableEq

/-- The name that a specifier binds in the importing unit. -/
def ImportSpecifier.id : ImportSpecifier → Identifier
  | default id => id
  | star id => id
  | named _ id => id

/-- The path of a module, and where it is written. -/
structure ModuleSource where
  value : String
  span : Span
deriving DecidableEq

/-- An import. -/
structure Import where
  kind : ImportKind
  specifiers : List ImportSpecifier
  source : ModuleSource
  span : Span
deriving DecidableEq

/-! ### Statements -/

/-- Something with the comments above it. -/
structure Item (α : Type) where
  comments : List CommentId
  node : α

/-- What an export makes known: a value, or a type. -/
inductive ExportKind where
  | value
  | type
deriving DecidableEq

/-- An exported declaration. -/
structure Export where
  kind : ExportKind
  declaration : Declaration
  span : Span

/-- Any other statement: its text, and the declarations inside its brackets. -/
structure Verbatim where
  text : String
  span : Span
  nested : List (Item Declaration)

/-- A statement. -/
inductive Statement where
  | declaration (decl : Declaration)
  | imports (decl : Import)
  | exports (decl : Export)
  | verbatim (text : Verbatim)

namespace Statement

/-- Where a statement stands. -/
def span : Statement → Span
  | declaration decl => decl.span
  | imports decl => decl.span
  | exports decl => decl.span
  | verbatim text => text.span

/-- Whether a host has flagged the declaration that a statement is or exports. -/
def recursive : Statement → Bool
  | declaration decl => decl.recursive
  | exports decl => decl.declaration.recursive
  | _ => false

/-- Sets the flag of the declaration that a statement is or exports. -/
def setRecursive (value : Bool) : Statement → Statement
  | declaration decl => declaration (decl.setRecursive value)
  | exports decl => exports { decl with declaration := decl.declaration.setRecursive value }
  | other => other

end Statement

/-- One unit of source. `trailing` are the comments after the last statement, and `names` the
identifiers spelled anywhere in the unit. -/
structure Program where
  comments : List Comment
  body : List (Item Statement)
  trailing : List CommentId
  names : NameSet

/-- The comments with given places. -/
def Program.commentsAt (program : Program) (ids : List CommentId) : List Comment :=
  ids.filterMap (program.comments[·]?)

end Reifier
