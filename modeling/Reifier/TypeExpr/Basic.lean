import Reifier.Expr.Basic
import Reifier.Text.Span

/-!
# Type expressions

Type annotations as they are written: a shape and a span, where the shape holds the parts, which
are type expressions again. The shapes form one family over the type of parts, so that what only
looks at the outermost form needs no recursion.
-/

namespace Reifier

/-- A name and where it stands. -/
structure Identifier where
  name : String
  span : Span
deriving DecidableEq, Inhabited

/-! ### Names with dots -/

/-- A dotted reference such as `A.B.C`, of at least one segment. -/
structure QualifiedName where
  head : Identifier
  tail : List Identifier
deriving DecidableEq, Inhabited

namespace QualifiedName

/-- All segments. -/
def segments (q : QualifiedName) : List Identifier := q.head :: q.tail

/-- The name, if there is only one segment. -/
def simple? (q : QualifiedName) : Option String :=
  match q.tail with
  | [] => some q.head.name
  | _ => none

/-- The last segment. -/
def last (q : QualifiedName) : Identifier := q.tail.getLast?.getD q.head

/-- From the start of the first segment to the end of the last. -/
def span (q : QualifiedName) : Span := q.head.span.cover q.last.span

/-- The segments with dots between them. -/
def text (q : QualifiedName) : String := ".".intercalate (q.segments.map Identifier.name)

/-- The value with the same spelling: an identifier or a chain of members. -/
def toExpr (q : QualifiedName) : Expr :=
  q.tail.foldl (fun object id => .member object id.name) (.ident q.head.name)

end QualifiedName

/-! ### Keyword types -/

/-- The types that are keywords; `existential` is written `*`. -/
inductive Keyword where
  | number
  | string
  | boolean
  | void
  | null
  | any
  | mixed
  | empty
  | symbol
  | existential
deriving DecidableEq, Inhabited

namespace Keyword

/-- The word a keyword type is written with, if it is a word. -/
def spelling? : Keyword → Option String
  | number => some "number"
  | string => some "string"
  | boolean => some "boolean"
  | void => some "void"
  | null => some "null"
  | any => some "any"
  | mixed => some "mixed"
  | empty => some "empty"
  | symbol => some "symbol"
  | existential => none

/-- All keyword types. -/
def all : List Keyword :=
  [number, string, boolean, void, null, any, mixed, empty, symbol, existential]

/-- The keyword type that is written with a word, if there is one. -/
def ofSpelling? (word : String) : Option Keyword := all.find? (·.spelling? = some word)

/-- What a keyword type is called in messages. -/
def describe : Keyword → String
  | number => "number type"
  | string => "string type"
  | boolean => "boolean type"
  | void => "void type"
  | null => "null type"
  | any => "any type"
  | mixed => "mixed type"
  | empty => "empty type"
  | symbol => "symbol type"
  | existential => "existential type"

end Keyword

/-! ### Shapes -/

/-- A parameter of a function type. -/
structure Param (α : Type) where
  name : Option Identifier
  type : α
  optional : Bool
deriving DecidableEq

/-- The key of a property, which may be written in quotes. -/
inductive PropertyKey where
  | identifier (id : Identifier)
  | string (value : String)
deriving DecidableEq

/-- The name that a key stands for. -/
def PropertyKey.name : PropertyKey → String
  | identifier id => id.name
  | string value => value

/-- A property of an object type. -/
structure Property (α : Type) where
  key : PropertyKey
  value : α
  optional : Bool
  span : Span
deriving DecidableEq

/-- An indexer `[id: key]: value` of an object type. -/
structure Indexer (α : Type) where
  id : Option Identifier
  key : α
  value : α
  span : Span
deriving DecidableEq

/-- An object type; `exact` when it is written with bars inside its braces. -/
structure ObjectType (α : Type) where
  properties : List (Property α)
  indexers : List (Indexer α)
  exact : Bool
deriving DecidableEq

/-- A reference to a type, with its arguments when an argument list is written. -/
structure Generic (α : Type) where
  name : QualifiedName
  args? : Option (List α)
deriving DecidableEq

/-- The arguments of a reference. -/
def Generic.args {α : Type} (g : Generic α) : List α := g.args?.getD []

/-- The forms of type expressions, over the type of their parts. Numbers keep their spelling, the
minus sign included. -/
inductive Shape (α : Type) where
  | keyword (word : Keyword)
  | function (params : List (Param α)) (rest : Option (Param α)) (result : α)
  | typeOf (target : QualifiedName)
  | array (element : α)
  | nullable (inner : α)
  | tuple (items : List α)
  | union (members : List α)
  | intersection (members : List α)
  | object (type : ObjectType α)
  | generic (ref : Generic α)
  | string (value : String)
  | number (spelling : String)
  | boolean (value : Bool)
  | bigInt (spelling : String)
  | indexedAccess (object index : α)
deriving DecidableEq

/-- What a form is called in messages. -/
def Shape.describe {α : Type} : Shape α → String
  | keyword word => word.describe
  | function .. => "function type"
  | typeOf _ => "typeof type"
  | array _ => "array type"
  | nullable _ => "nullable type"
  | tuple _ => "tuple type"
  | union _ => "union type"
  | intersection _ => "intersection type"
  | object _ => "object type"
  | generic _ => "generic type"
  | string _ => "string literal type"
  | number _ => "number literal type"
  | boolean _ => "boolean literal type"
  | bigInt _ => "bigint literal type"
  | indexedAccess .. => "indexed access type"

/-- A type expression. -/
structure TypeExpr where
  shape : Shape TypeExpr
  span : Span

instance : Inhabited TypeExpr := ⟨⟨.keyword .any, ⟨0, 0⟩⟩⟩

/-- A parameter of a generic declaration. -/
structure TypeParam where
  name : Identifier
  bound : Option TypeExpr
  default : Option TypeExpr
  span : Span

end Reifier
