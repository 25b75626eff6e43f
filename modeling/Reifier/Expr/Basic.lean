/-!
# Value expressions

The expressions that types are turned into: references, calls, literals, and functions of at most
one parameter that return one expression.
-/

namespace Reifier

/-- A value expression. A number keeps its spelling. -/
inductive Expr where
  | ident (name : String)
  | member (object : Expr) (property : String)
  | call (callee : Expr) (args : List Expr)
  | array (items : List Expr)
  | object (entries : List (String × Expr))
  | string (value : String)
  | number (spelling : String)
  | bool (value : Bool)
  | function (param : Option String) (body : Expr)
  | strictEq (left right : Expr)
  | or (left right : Expr)
deriving Inhabited

namespace Expr

mutual

/-- Whether the identifier `name` occurs free. The name of a member is no identifier, and the
parameter of a function is bound in its body. -/
def mentions (name : String) : Expr → Bool
  | ident id => id = name
  | member owner _ => owner.mentions name
  | call callee args => callee.mentions name || anyMentions name args
  | array items => anyMentions name items
  | object entries => anyEntryMentions name entries
  | function param body => param ≠ some name && body.mentions name
  | strictEq left right => left.mentions name || right.mentions name
  | or left right => left.mentions name || right.mentions name
  | string _ => false
  | number _ => false
  | bool _ => false

/-- Whether the identifier `name` occurs free in one of some expressions. -/
def anyMentions (name : String) : List Expr → Bool
  | [] => false
  | e :: es => e.mentions name || anyMentions name es

/-- Whether the identifier `name` occurs free in the value of one of some entries. -/
def anyEntryMentions (name : String) : List (String × Expr) → Bool
  | [] => false
  | (_, e) :: es => e.mentions name || anyEntryMentions name es

end

end Expr

end Reifier
