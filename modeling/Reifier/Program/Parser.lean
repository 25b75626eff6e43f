import Reifier.Program.Basic
import Reifier.Token.Lexer
import Reifier.TypeExpr.Parser

/-!
# Reading programs

Declarations of types and imports are read for their structure. Any other statement is carried
along as text, up to a semicolon outside all brackets or a line break before a word that begins a
statement; declarations at the start of a line or a block inside its brackets are read as well.

A statement that cannot be read is left out, and reading goes on after its end. So every text can
be read, unless types are nested more deeply than allowed.
-/

namespace Reifier.Program

open Reifier.Parser Reifier.TypeExpr

/-! ### Declarations -/

/-- Whether a declaration of a type alias stands ahead. -/
def aliasAhead (c : Cursor) : Bool := c.isWord 0 "type" && c.hasKind 1 .identifier

/-- Whether a declaration of an interface stands ahead. -/
def interfaceAhead (c : Cursor) : Bool := c.isWord 0 "interface" && c.hasKind 1 .identifier

/-- The parameters of a declaration, if it has any. -/
def declarationParams (type : Parser TypeExpr) : Parser (Option (List TypeParam)) := do
  if ← nextIs .less then
    let params ← typeParams type
    return some params
  else return none

/-- A type alias, whose first word stands ahead. -/
def typeAlias (type : Parser TypeExpr) : Parser TypeAlias := do
  let first ← advance
  let id ← identifier
  let params ← declarationParams type
  let _ ← expect .equals "="
  let right ← type
  let _ ← eat .semicolon
  return ⟨id, params, right, false, ← spanFrom first.span.start⟩

/-- The interfaces that an interface extends. -/
def interfaceBases (type : Parser TypeExpr) : Parser (List (Generic TypeExpr)) := do
  if ← eatWord "extends" then commaSeparated (generic type)
  else return []

/-- An interface, whose first word stands ahead. -/
def interface (type : Parser TypeExpr) : Parser Interface := do
  let first ← advance
  let id ← identifier
  let params ← declarationParams type
  let bases ← interfaceBases type
  if ← look fun c => c.hasKind 0 .braceOpen || c.hasKind 0 .braceBarOpen then
    let (body, bodySpan) ← objectType type
    let _ ← eat .semicolon
    return ⟨id, params, bases, body, bodySpan, false, ← spanFrom first.span.start⟩
  else reject .expectedToken (some "\x7b")

/-- A declaration of a type, whose first word stands ahead. -/
def declaration (type : Parser TypeExpr) : Parser Declaration := do
  if ← nextIsWord "type" then return .typeAlias (← typeAlias type)
  else return .interface (← interface type)

/-! ### Imports -/

/-- Whether the word `kind` ahead says what an import brings in. It may itself be a name that is
bound by the import. -/
def importKindAhead (kind : String) (c : Cursor) : Bool :=
  c.isWord 0 kind &&
    (c.hasKind 1 .braceOpen || c.hasKind 1 .star ||
      (c.hasKind 1 .identifier && !(c.isWord 1 "from" && c.hasKind 2 .string)))

/-- What an import brings in. -/
def importKind : Parser ImportKind := do
  if ← look (importKindAhead "type") then
    let _ ← advance
    return .type
  else if ← look (importKindAhead "typeof") then
    let _ ← advance
    return .typeOf
  else return .value

/-- Whether a word ahead marks only the specifier after it. -/
def specifierMarkAhead (c : Cursor) : Bool :=
  (c.isWord 0 "type" || c.isWord 0 "typeof") && c.hasKind 1 .identifier && !c.isWord 1 "as"

/-- A specifier in braces. A mark that it brings in a type is dropped. -/
def namedSpecifier : Parser ImportSpecifier := do
  if ← atEnd then reject .expectedToken (some "\x7d")
  else
    if ← look specifierMarkAhead then
      let _ ← advance
    let imported ← identifier
    if ← eatWord "as" then return .named imported (← identifier)
    else return .named imported imported

/-- The specifiers after the default one: all of the module under one name, or some in braces. -/
def furtherSpecifiers : Parser (List ImportSpecifier) := do
  if ← eat .star then
    let _ ← expectWord "as"
    let id ← identifier
    return [.star id]
  else if ← eat .braceOpen then
    let all ← items .braceClose namedSpecifier
    let _ ← expect .braceClose "\x7d"
    return all
  else reject .expectedToken (some "\x7b")

/-- The specifiers of an import. -/
def importSpecifiers : Parser (List ImportSpecifier) := do
  if ← nextIs .identifier then
    let id ← identifier
    if ← eat .comma then
      let more ← furtherSpecifiers
      return .default id :: more
    else return [.default id]
  else furtherSpecifiers

/-- The specifiers of an import with the word after them; an import may do without both. -/
def importClause : Parser (List ImportSpecifier) := do
  if ← nextIs .string then return []
  else
    let all ← importSpecifiers
    let _ ← expectWord "from"
    return all

/-- The path that an import names. -/
def moduleSource : Parser ModuleSource := do
  if ← nextIs .string then
    let token ← advance
    return ⟨Text.unquote token.text, token.span⟩
  else reject .expectedModuleSource none

/-- An import, whose first word stands ahead. -/
def importDeclaration : Parser Import := do
  let first ← advance
  let kind ← importKind
  let specifiers ← importClause
  let source ← moduleSource
  let _ ← eat .semicolon
  return ⟨kind, specifiers, source, ← spanFrom first.span.start⟩

/-! ### The end of a statement -/

/-- The words that begin a statement with a structure. -/
def statementWords : List String := ["type", "interface", "import", "export"]

/-- Whether a statement ends after a token of a given kind that leaves `depth` brackets open. -/
def endsAfter (kind : Token.Kind) (depth : Nat) (c : Cursor) : Bool :=
  depth = 0 &&
    (kind = .semicolon || (c.lineBreakAhead && statementWords.any (c.isWord 0 ·)))

/-- Takes tokens up to the end of the statement; `depth` brackets are open. -/
def skipLoop : Nat → Nat → Parser Unit
  | 0, _ => halt .overrun
  | n + 1, depth => do
    if ← atEnd then return ()
    else
      let token ← advance
      let depth := token.kind.depthAfter depth
      if ← look (endsAfter token.kind depth) then return ()
      else skipLoop n depth

/-- Takes tokens up to the end of the statement. -/
def skipStatement : Parser Unit := rounds (skipLoop · 0)

/-! ### Statements without a structure -/

/-- Whether a declaration of a type stands ahead, judged also by what follows its name, since its
first word may be an ordinary name in code. -/
def nestedAhead (c : Cursor) : Bool :=
  if aliasAhead c then c.hasKind 2 .equals || c.hasKind 2 .less
  else
    interfaceAhead c &&
      (c.hasKind 2 .braceOpen || c.hasKind 2 .braceBarOpen || c.hasKind 2 .less ||
        c.isWord 2 "extends")

/-- Whether a statement in a block can begin after a token. -/
def beginsAfter (previous : Option Token.Kind) : Bool :=
  previous = some .braceOpen || previous = some .braceClose || previous = some .semicolon

/-- A declaration inside the brackets of a statement, if one begins at the cursor and can be read;
`lineStart` says that a line break stands before it. -/
def nestedDeclaration (type : Parser TypeExpr) (depth : Nat) (previous : Option Token.Kind)
    (lineStart : Bool) : Parser (Option Declaration) := do
  if ← look fun c => 0 < depth && (lineStart || beginsAfter previous) && nestedAhead c then
    attempt (declaration type)
  else return none

/-- Takes tokens up to the end of the statement, and gives the declarations inside its brackets;
`depth` brackets are open, and `previous` is the kind of the token before. -/
def verbatimLoop (type : Parser TypeExpr) :
    Nat → Nat → Option Token.Kind → Parser (List (Item Declaration))
  | 0, _, _ => halt .overrun
  | n + 1, depth, previous => do
    if ← atEnd then return []
    else
      let lineStart ← look (·.lineBreakAhead)
      let comments ← settle
      match ← nestedDeclaration type depth previous lineStart with
      | some decl =>
        -- Its brackets are balanced, so the depth is what it was before.
        let more ← verbatimLoop type n depth (some .semicolon)
        return ⟨comments, decl⟩ :: more
      | none =>
        -- No declaration after all, or none that can be read: the next token is text.
        let token ← advance
        let depth := token.kind.depthAfter depth
        if ← look (endsAfter token.kind depth) then return []
        else verbatimLoop type n depth (some token.kind)

/-- A statement without a structure. -/
def verbatim (type : Parser TypeExpr) : Parser Verbatim := do
  let start ← nextStart
  -- The text is that of the lexemes taken, with what stands between them.
  let ahead ← look (·.rest)
  let nested ← rounds (verbatimLoop type · 0 none)
  let left ← look (·.rest.length)
  return ⟨Lexeme.textOf (ahead.take (ahead.length - left)), ← spanFrom start, nested⟩

/-! ### Statements -/

/-- Whether an import stands ahead, and not a call or a property of that name. -/
def importAhead (c : Cursor) : Bool :=
  c.isWord 0 "import" && !(c.hasKind 1 .parenOpen || c.hasKind 1 .dot)

/-- Whether an exported declaration of a type stands ahead. -/
def exportAhead (c : Cursor) : Bool :=
  c.isWord 0 "export" && (c.isWord 1 "type" || c.isWord 1 "interface") && c.hasKind 2 .identifier

/-- A statement. -/
def statement (type : Parser TypeExpr) : Parser Statement := do
  if ← look fun c => aliasAhead c || interfaceAhead c then
    return .declaration (← declaration type)
  else if ← look importAhead then return .imports (← importDeclaration)
  else if ← look exportAhead then
    let first ← advance
    let decl ← declaration type
    return .exports ⟨.type, decl, ← spanFrom first.span.start⟩
  else return .verbatim (← verbatim type)

/-- The statements up to the end of the source. One that cannot be read is left out. -/
def bodyLoop (type : Parser TypeExpr) : Nat → Parser (List (Item Statement))
  | 0 => halt .overrun
  | n + 1 => do
    if ← atEnd then return []
    else
      let comments ← settle
      match ← recover (statement type) with
      | some stmt =>
        let more ← bodyLoop type n
        return ⟨comments, stmt⟩ :: more
      | none =>
        -- The brackets open at this point are not known, so counting begins anew.
        skipStatement
        bodyLoop type n

/-! ### Programs -/

/-- The limit on nesting when none is asked for. -/
def defaultLimit : Nat := 512

/-- A program as read, and what is wrong with its source. -/
structure Reading where
  program : Program
  diagnostics : List Diagnostic

/-- The statements that lexemes form, in which no more than `limit` type expressions are read inside
each other. -/
def statements (limit : Option Nat) (lexemes : List Lexeme) : Parser (List (Item Statement)) :=
  rounds (bodyLoop (nested limit (lexemes.length + 1)).whole)

/-- Where reading begins. -/
def startCursor (endOffset : Nat) (lexemes : List Lexeme) : Cursor where
  rest := lexemes
  endOffset := endOffset
  lastEnd := 0
  comments := []
  diagnostics := []
  lastReport := none
  depth := 0

/-- Reads a source, in which no more than `limit` type expressions are read inside each other. -/
def parse (limit : Option Nat) (source : String) : Except Halt Reading :=
  let tokens := Token.scan source
  let (lexemes, after) := Lexeme.ofTokens tokens
  match statements limit lexemes (startCursor (Text.byteLength source.toList) lexemes) with
  | .done body c =>
    .ok
      { program :=
          { comments := c.comments ++ after.comments
            body := body
            trailing := List.range' c.comments.length after.comments.length
            names := NameSet.ofList
              ((tokens.filter (·.kind = .identifier)).map Token.text) }
        diagnostics := c.diagnostics }
  -- The statements never fail: each failure is recovered from.
  | .failed _ => .error .overrun
  | .halted cause _ => .error cause

end Reifier.Program
