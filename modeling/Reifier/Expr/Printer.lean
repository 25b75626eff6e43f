import Reifier.Expr.Basic
import Reifier.Name
import Reifier.Text.Quoted

/-!
# Printing expressions

Every expression has one printed form at each level of indentation. Entries of an object and the
body of a function go on lines of their own, two columns further in for each level. Operands are
never put into parentheses.
-/

namespace Reifier

/-- The blank space in front of a line at a level of indentation. -/
def indentation (level : Nat) : String := String.ofList (List.replicate (2 * level) ' ')

namespace Expr

/-- The key of an entry: bare if it is an identifier, else in quotes. -/
def renderKey (key : String) : String := if Name.isIdentifier key then key else Text.quote key

mutual

/-- The printed form of an expression at a level of indentation. -/
def render (level : Nat) : Expr → String
  | ident name => name
  | member owner property => owner.render level ++ "." ++ property
  | call callee args => callee.render level ++ "(" ++ renderList level args ++ ")"
  | array items => "[" ++ renderList level items ++ "]"
  | object [] => "\x7b\x7d"
  | object (entry :: entries) =>
    "\x7b\n" ++ renderEntries (level + 1) (entry :: entries) ++ "\n" ++ indentation level ++ "\x7d"
  | string value => Text.quote value
  | number spelling => spelling
  | bool value => if value then "true" else "false"
  | function param body =>
    "function (" ++ param.getD "" ++ ") \x7b\n" ++ indentation (level + 1) ++ "return " ++
      body.render (level + 1) ++ ";\n" ++ indentation level ++ "\x7d"
  | strictEq left right => left.render level ++ " === " ++ right.render level
  | or left right => left.render level ++ " || " ++ right.render level

/-- Expressions with commas between them. -/
def renderList (level : Nat) : List Expr → String
  | [] => ""
  | [e] => e.render level
  | e :: es => e.render level ++ ", " ++ renderList level es

/-- Entries on lines of their own, with commas between them. -/
def renderEntries (level : Nat) : List (String × Expr) → String
  | [] => ""
  | [(key, e)] => indentation level ++ renderKey key ++ ": " ++ e.render level
  | (key, e) :: es =>
    indentation level ++ renderKey key ++ ": " ++ e.render level ++ ",\n" ++ renderEntries level es

end

end Expr

end Reifier
