import Reifier.Parser.Basic
import Reifier.Text.Quoted
import Reifier.TypeExpr.Basic

/-!
# Reading type expressions

From the loosest to the tightest: unions, intersections, a question mark in front, brackets
behind, and the primary forms. A leading `|` or `&` is allowed and means nothing.

Productions do not call each other in a circle. Each is given parsers for the type expressions
inside it, a pair `Nested`, and `nested limit n` ties the knot `n` times. As many knots as there are
tokens suffice, since every type expression begins further on than the one around it. A type
expression, and likewise what follows a question mark, is one level further in than what is around
it, and reading halts when `limit` levels are open already.
-/

namespace Reifier.TypeExpr

open Reifier.Parser

/-- Parsers for the type expressions inside another one. -/
structure Nested where
  /-- A type expression of any form. -/
  whole : Parser TypeExpr
  /-- What may follow a question mark. -/
  operand : Parser TypeExpr

/-- An identifier. -/
def identifier : Parser Identifier := do
  if ← nextIs .identifier then
    let token ← advance
    return ⟨token.text, token.span⟩
  else reject .expectedIdentifier none

/-! ### Names and arguments -/

/-- The segments of a dotted name after the first. -/
def segmentsLoop : Nat → Parser (List Identifier)
  | 0 => halt .overrun
  | n + 1 => do
    if ← look fun c => c.hasKind 0 .dot && c.hasKind 1 .identifier then
      let _ ← advance
      let first ← identifier
      let more ← segmentsLoop n
      return first :: more
    else return []

/-- A dotted name. A dot that no identifier follows is left standing. -/
def qualifiedName : Parser QualifiedName := do
  let head ← identifier
  let tail ← rounds segmentsLoop
  return ⟨head, tail⟩

/-- Type arguments in angle brackets. -/
def typeArgs (type : Parser TypeExpr) : Parser (List TypeExpr) := do
  let _ ← expect .less "<"
  let args ← items .greater type
  let _ ← expect .greater ">"
  return args

/-- A reference to a type, with or without arguments. -/
def generic (type : Parser TypeExpr) : Parser (Generic TypeExpr) := do
  let name ← qualifiedName
  if ← nextIs .less then
    let args ← typeArgs type
    return ⟨name, some args⟩
  else return ⟨name, none⟩

/-- A sign of variance, if there is one. It means nothing. -/
def variance : Parser Unit := do
  if ← look fun c => c.hasKind 0 .plus || c.hasKind 0 .minus then
    let _ ← advance

/-- A parameter of a declaration, `+T: Bound = Default` at its fullest. -/
def typeParam (type : Parser TypeExpr) : Parser TypeParam := do
  let start ← nextStart
  variance
  let name ← identifier
  let bound ← after? .colon type
  let default ← after? .equals type
  return ⟨name, bound, default, ← spanFrom start⟩

/-- The parameters of a declaration, in angle brackets. -/
def typeParams (type : Parser TypeExpr) : Parser (List TypeParam) := do
  let _ ← expect .less "<"
  let all ← items .greater (typeParam type)
  let _ ← expect .greater ">"
  return all

/-! ### Functions -/

/-- Whether a parameter with a name stands `n` tokens ahead. -/
def namedParamAhead (c : Cursor) (n : Nat) : Bool :=
  c.hasKind n .identifier &&
    (c.hasKind (n + 1) .colon || (c.hasKind (n + 1) .question && c.hasKind (n + 2) .colon))

/-- A parameter `name: T`, `name?: T` or `T`. -/
def param (type : Parser TypeExpr) : Parser (Param TypeExpr) := do
  if ← look (namedParamAhead · 0) then
    let name ← identifier
    let optional ← eat .question
    -- The colon has been looked at with the name.
    let _ ← advance
    let t ← type
    return ⟨some name, t, optional⟩
  else
    let t ← type
    return ⟨none, t, false⟩

/-- Parameters up to a closing parenthesis, and the rest parameter. Nothing but a comma may follow
the rest parameter. -/
def paramsLoop (type : Parser TypeExpr) :
    Nat → Parser (List (Param TypeExpr) × Option (Param TypeExpr))
  | 0 => halt .overrun
  | n + 1 => do
    if ← nextIs .parenClose then return ([], none)
    else if ← eat .ellipsis then
      -- No parameter follows this one: the caller asks for the closing parenthesis.
      let rest ← param type
      let _ ← eat .comma
      return ([], some rest)
    else
      let first ← param type
      if ← eat .comma then
        let (more, rest) ← paramsLoop type n
        return (first :: more, rest)
      else return ([first], none)

/-- Parameters in parentheses, and the rest parameter. -/
def params (type : Parser TypeExpr) :
    Parser (List (Param TypeExpr) × Option (Param TypeExpr)) := do
  let _ ← expect .parenOpen "("
  let all ← rounds (paramsLoop type)
  let _ ← expect .parenClose ")"
  return all

/-- A function type; `separator` stands between its parameters and its result. -/
def function (type : Parser TypeExpr) (separator : Token.Kind) (spelling : String) :
    Parser (Shape TypeExpr) := do
  let (params, rest) ← params type
  let _ ← expect separator spelling
  let result ← type
  return .function params rest result

/-- Whether the parenthesis ahead begins a list that only parameters can begin with. -/
def paramsAhead (c : Cursor) : Bool :=
  c.hasKind 1 .parenClose || c.hasKind 1 .ellipsis || namedParamAhead c 1

/-- What begins with a parenthesis: a function type or a type expression in parentheses. These
only group, but the span takes them in. -/
def parenthesized (type : Parser TypeExpr) : Parser TypeExpr := do
  let start ← nextStart
  if ← look paramsAhead then
    let shape ← function type .arrow "=>"
    return ⟨shape, ← spanFrom start⟩
  else
    let _ ← advance
    let inner ← type
    let _ ← expect .parenClose ")"
    if ← eat .arrow then
      -- The type in parentheses was the only parameter.
      let result ← type
      return ⟨.function [⟨none, inner, false⟩] none result, ← spanFrom start⟩
    else return ⟨inner.shape, ← spanFrom start⟩

/-! ### Object types -/

/-- The name before the key of an indexer, with its colon, if there is one. -/
def indexerName : Parser (Option Identifier) := do
  if ← look fun c => c.hasKind 0 .identifier && c.hasKind 1 .colon then
    let id ← identifier
    let _ ← advance
    return some id
  else return none

/-- An indexer, whose brackets stand ahead; `start` is where the member begins. -/
def indexer (type : Parser TypeExpr) (start : Nat) : Parser (Indexer TypeExpr) := do
  let _ ← advance
  let id ← indexerName
  let key ← type
  let _ ← expect .bracketClose "]"
  let _ ← expect .colon ":"
  let value ← type
  return ⟨id, key, value, ← spanFrom start⟩

/-- The key of a property: an identifier or a string. -/
def propertyKey : Parser PropertyKey := do
  if ← nextIs .identifier then
    let id ← identifier
    return .identifier id
  else if ← nextIs .string then
    let token ← advance
    return .string (Text.unquote token.text)
  else reject .expectedIdentifier (some "property name")

/-- The type of a method: a function type whose result stands after a colon. -/
def method (type : Parser TypeExpr) : Parser TypeExpr := do
  let start ← nextStart
  if ← nextIs .less then
    let _ ← typeParams type
  let shape ← function type .colon ":"
  return ⟨shape, ← spanFrom start⟩

/-- A property or a method; `start` is where the member begins. -/
def property (type : Parser TypeExpr) (start : Nat) : Parser (Property TypeExpr) := do
  let key ← propertyKey
  if ← look fun c => c.hasKind 0 .parenOpen || c.hasKind 0 .less then
    let value ← method type
    return ⟨key, value, false, ← spanFrom start⟩
  else
    let optional ← eat .question
    let _ ← expect .colon ":"
    let value ← type
    return ⟨key, value, optional, ← spanFrom start⟩

/-- A member of an object type, put in front of further ones. -/
def member (type : Parser TypeExpr) : Parser (ObjectType TypeExpr → ObjectType TypeExpr) := do
  let start ← nextStart
  variance
  if ← nextIs .ellipsis then reject .unsupportedConstruct (some "object type spread")
  else if ← look fun c => c.hasKind 0 .parenOpen || c.hasKind 0 .less then
    reject .unsupportedConstruct (some "call property")
  else if ← nextIs .bracketOpen then
    let i ← indexer type start
    return fun o => { o with indexers := i :: o.indexers }
  else
    let p ← property type start
    return fun o => { o with properties := p :: o.properties }

/-- The members of an object type up to its closing brace, with a comma or a semicolon after each;
the last may do without. -/
def membersLoop (type : Parser TypeExpr) (exact : Bool) (close : Token.Kind) (spelling : String) :
    Nat → Parser (ObjectType TypeExpr)
  | 0 => halt .overrun
  | n + 1 => do
    if ← nextIs close then return ⟨[], [], exact⟩
    else if ← atEnd then reject .expectedToken (some spelling)
    else
      let add ← member type
      if ← look fun c => c.hasKind 0 .comma || c.hasKind 0 .semicolon then
        let _ ← advance
        return add (← membersLoop type exact close spelling n)
      else if ← nextIs close then return add ⟨[], [], exact⟩
      else if ← atEnd then reject .expectedToken (some spelling)
      else reject .expectedToken (some ",")

/-- An object type, whose opening brace stands ahead, and its span. -/
def objectType (type : Parser TypeExpr) : Parser (ObjectType TypeExpr × Span) := do
  let opening ← advance
  let exact := opening.kind = .braceBarOpen
  let object ←
    if exact then rounds (membersLoop type true .barBraceClose "|\x7d")
    else rounds (membersLoop type false .braceClose "\x7d")
  let _ ← advance
  return (object, ← spanFrom opening.span.start)

/-! ### Primary forms -/

/-- What begins with an identifier: a reference to a value's type, a boolean, a keyword type, or a
reference to a type. -/
def named (type : Parser TypeExpr) : Parser (Shape TypeExpr) := do
  let word ← nextText
  -- Without a name behind it the word is a reference to a type of this name.
  if ← look fun c => c.isWord 0 "typeof" && c.hasKind 1 .identifier then
    let _ ← advance
    return .typeOf (← qualifiedName)
  else if word = "true" ∨ word = "false" then
    let _ ← advance
    return .boolean (word = "true")
  else
    match Keyword.ofSpelling? word with
    | some keyword =>
      let _ ← advance
      return .keyword keyword
    | none => return .generic (← generic type)

/-- The items of a tuple type, in brackets. -/
def tuple (type : Parser TypeExpr) : Parser (Shape TypeExpr) := do
  let _ ← advance
  let all ← items .bracketClose type
  let _ ← expect .bracketClose "]"
  return .tuple all

/-- The primary forms other than those in parentheses. -/
def primaryShape (type : Parser TypeExpr) : Parser (Shape TypeExpr) := do
  match ← nextKind with
  | some .identifier => named type
  | some .string => return .string (Text.unquote (← advance).text)
  | some .number => return .number (← advance).text
  | some .minus =>
    if ← look (·.hasKind 1 .number) then
      let _ ← advance
      return .number ("-" ++ (← advance).text)
    else reject .expectedType none
  | some .bigInt => return .bigInt (← advance).text
  | some .star =>
    let _ ← advance
    return .keyword .existential
  | some .braceOpen => return .object (← objectType type).1
  | some .braceBarOpen => return .object (← objectType type).1
  | some .bracketOpen => tuple type
  | some .less =>
    let _ ← typeParams type
    function type .arrow "=>"
  | some .unexpected => reject .unexpectedToken (some (← nextText))
  | _ => reject .expectedType none

/-- A primary form. -/
def primary (type : Parser TypeExpr) : Parser TypeExpr := do
  if ← nextIs .parenOpen then parenthesized type
  else
    let start ← nextStart
    let shape ← primaryShape type
    return ⟨shape, ← spanFrom start⟩

/-! ### Operators -/

/-- Pairs of brackets behind a type expression that begins at `start`: empty ones for arrays, and
ones around an index. A bracket after a line break does not belong to the type. -/
def bracketsLoop (type : Parser TypeExpr) (start : Nat) : Nat → TypeExpr → Parser TypeExpr
  | 0, _ => halt .overrun
  | n + 1, t => do
    if ← look fun c => c.hasKind 0 .bracketOpen && !c.lineBreakAhead then
      let _ ← advance
      -- The index is read under the limit, but a pair without one nests nothing.
      if ← eat .bracketClose then
        bracketsLoop type start n ⟨.array t, ← spanFrom start⟩
      else
        let index ← type
        let _ ← expect .bracketClose "]"
        bracketsLoop type start n ⟨.indexedAccess t index, ← spanFrom start⟩
    else return t

/-- A primary form with brackets behind it. -/
def bracketed (type : Parser TypeExpr) : Parser TypeExpr := do
  let start ← nextStart
  let t ← primary type
  rounds (bracketsLoop type start · t)

/-- An operand of an intersection: a question mark and another such operand, or a primary form
with brackets behind it. -/
def operand (inside : Nested) : Parser TypeExpr := do
  if ← nextIs .question then
    let token ← advance
    let t ← inside.operand
    return ⟨.nullable t, ← spanFrom token.span.start⟩
  else bracketed inside.whole

/-- Operands with an operator between them, and possibly before the first. A single operand stands
for itself, even after an operator. -/
def joined (operator : Token.Kind) (shape : List TypeExpr → Shape TypeExpr)
    (part : Parser TypeExpr) : Parser TypeExpr := do
  let start ← nextStart
  let _ ← eat operator
  let first ← part
  let more ← operands operator part
  if more.isEmpty then return first
  else return ⟨shape (first :: more), ← spanFrom start⟩

/-- A union. -/
def union (inside : Nested) : Parser TypeExpr :=
  joined .pipe .union (joined .ampersand .intersection (operand inside))

/-- Parsers for type expressions with `n` knots tied, under a limit on how deep they nest. -/
def nested (limit : Option Nat) : Nat → Nested
  | 0 => ⟨halt .overrun, halt .overrun⟩
  | n + 1 =>
    let inside := nested limit n
    ⟨nesting limit (union inside), nesting limit (operand inside)⟩

end Reifier.TypeExpr
