import Reifier.Expr.Basic

/-!
# The runtime library

The validation library that expressions refer to: its combinators, its ready-made types, and the
calls that are built from them. The library itself is only a name here, that of the binding it is
imported as.

A combinator that is given a display name takes it as its last argument. An interface takes it in
a descriptor: nothing when it has no name and is not strict, the bare name when it only has a name,
and an object otherwise.
-/

namespace Reifier

/-- The combinators of the library. -/
inductive Combinator where
  | list
  | tuple
  | maybe
  | union
  | dict
  | refinement
  | interface
  | intersection
  | enums
  | irreducible
deriving DecidableEq

/-- The member of the library that holds a combinator. -/
def Combinator.name : Combinator → String
  | list => "list"
  | tuple => "tuple"
  | maybe => "maybe"
  | union => "union"
  | dict => "dict"
  | refinement => "refinement"
  | interface => "interface"
  | intersection => "intersection"
  | enums => "enums"
  | irreducible => "irreducible"

/-- The ready-made types of the library; `nil` has the values `null` and `undefined`. -/
inductive Primitive where
  | number
  | string
  | boolean
  | nil
  | any
  | object
  | function
deriving DecidableEq

/-- The member of the library that holds a ready-made type. -/
def Primitive.name : Primitive → String
  | number => "Number"
  | string => "String"
  | boolean => "Boolean"
  | nil => "Nil"
  | any => "Any"
  | object => "Object"
  | function => "Function"

/-- The binding that the library is imported as. -/
structure Library where
  binding : String

namespace Library

/-- A member of the library. -/
def member (lib : Library) (name : String) : Expr := .member (.ident lib.binding) name

/-- A ready-made type. -/
def primitive (lib : Library) (primitive : Primitive) : Expr := lib.member primitive.name

/-- The argument that a display name adds at the end. -/
def nameArg (name : Option String) : List Expr := (name.map Expr.string).toList

/-- A call of a combinator, with a display name. -/
def call (lib : Library) (combinator : Combinator) (args : List Expr) (name : Option String) :
    Expr :=
  .call (lib.member combinator.name) (args ++ nameArg name)

/-- Lists of one type. -/
def list (lib : Library) (element : Expr) (name : Option String) : Expr :=
  lib.call .list [element] name

/-- Lists of fixed length. -/
def tuple (lib : Library) (items : List Expr) (name : Option String) : Expr :=
  lib.call .tuple [.array items] name

/-- A type with `null` and `undefined` added. -/
def maybe (lib : Library) (inner : Expr) (name : Option String) : Expr :=
  lib.call .maybe [inner] name

/-- Values of one of several types. -/
def union (lib : Library) (members : List Expr) (name : Option String) : Expr :=
  lib.call .union [.array members] name

/-- Objects as maps from one type to another. -/
def dict (lib : Library) (domain codomain : Expr) (name : Option String) : Expr :=
  lib.call .dict [domain, codomain] name

/-- Values of all of several types. -/
def intersection (lib : Library) (members : List Expr) (name : Option String) : Expr :=
  lib.call .intersection [.array members] name

/-- Values of a type that a predicate holds of. -/
def refinement (lib : Library) (base predicate : Expr) (name : Option String) : Expr :=
  lib.call .refinement [base, predicate] name

/-- One of several strings. -/
def enums (lib : Library) (values : List String) (name : Option String) : Expr :=
  .call (.member (lib.member Combinator.enums.name) "of")
    (.array (values.map Expr.string) :: nameArg name)

/-- The descriptor of an interface, if it has one. -/
def descriptor? : Option String → Bool → Option Expr
  | none, false => none
  | some name, false => some (.string name)
  | some name, true => some (.object [("name", .string name), ("strict", .bool true)])
  | none, true => some (.object [("strict", .bool true)])

/-- Objects with given properties; with no others if `strict`. -/
def interface (lib : Library) (properties : List (String × Expr)) (name : Option String)
    (strict : Bool) : Expr :=
  .call (lib.member Combinator.interface.name)
    (.object properties :: (descriptor? name strict).toList)

/-- Objects with all that the given mixins ask for. -/
def interfaceExtend (lib : Library) (mixins : List Expr) (name : Option String) : Expr :=
  .call (.member (lib.member Combinator.interface.name) "extend")
    (.array mixins :: nameArg name)

/-- The type without values. -/
def empty (lib : Library) : Expr :=
  lib.call .irreducible [.string "Empty", .function none (.bool false)] none

/-- A refinement of a ready-made type to the values equal to `literal`. -/
def literal (lib : Library) (base : Primitive) (param : String) (literal : Expr) : Expr :=
  lib.refinement (lib.primitive base)
    (.function (some param) (.strictEq (.ident param) literal)) none

end Library

/-! ### Names with a meaning of their own -/

/-- Marks a member of an intersection as a predicate. -/
def refinementMarker : String := "$Refinement"

/-- Kept for reifying a type in an expression. -/
def reifyMarker : String := "$Reify"

/-- Whether no declaration may bind a name. -/
def isReservedName (name : String) : Bool := [refinementMarker, reifyMarker].contains name

/-- Whether a name is a utility type that has no runtime counterpart. -/
def isMagicType (name : String) : Bool :=
  ["$Shape", "$Keys", "$Diff", "$Abstract", "$Subtype", "$ObjMap"].contains name

end Reifier
