import Reifier.Directive
import Reifier.Scope
import Reifier.Settings
import Reifier.TypeExpr.Reify

/-!
# Sessions

A session turns the types of one unit into values. It is opened on a program, which takes the
directive out of its comments and sets up the names of the unit; each statement then has its
replacements; and closing the session puts the import of the library in front, if a replacement
refers to it.

* A declaration of a type becomes a constant that holds the counterpart of the type.
* An import of types from a module of the same project becomes an import of values, since the other
  module has the values once it has been treated too.
* An import of types from elsewhere becomes an import of the whole module and a constant for each
  name, which falls back to the type of all values if the module has no such member.

A refused declaration still takes its name if it is recursive, so the steps keep the scope also
when they fail.
-/

namespace Reifier

/-- A session on one unit: the settings, the names of the unit, and whether the unit takes part. -/
structure Session where
  settings : Settings
  scope : Scope
  active : Bool

/-- A step of a session, which may refuse a declaration. -/
abbrev Session.Step (α : Type) := ExceptT Refusal (StateM Scope) α

namespace Session

/-- The step that leaves the scope alone and ends as `result` says. -/
def Step.ofExcept {α : Type} (result : Except Refusal α) : Step α := ExceptT.mk (pure result)

/-- A session that is not open on any program yet. -/
def ofSettings (settings : Settings) : Session :=
  ⟨settings, Scope.ofNames NameSet.empty, false⟩

/-- Opens a session on a program. -/
def enter (session : Session) (program : Program) : Session × Program :=
  let edits := Directive.scan session.settings.directive program.comments
  ({ session with scope := Scope.ofNames program.names, active := !edits.isEmpty },
    { program with comments := Directive.applyAll edits program.comments })

/-- The import of the library. -/
def libraryImport (settings : Settings) (scope : Scope) : Import where
  kind := .value
  specifiers := [.default ⟨scope.library, Span.point 0⟩]
  source := ⟨settings.library, Span.point 0⟩
  span := Span.point 0

/-- Closes a session on a program. -/
def exit (session : Session) (program : Program) : Program :=
  if session.scope.emitted then
    let first := Statement.imports (libraryImport session.settings session.scope)
    { program with body := ⟨[], first⟩ :: program.body }
  else program

/-! ### Declarations -/

/-- What types mean in a declaration. -/
def context (settings : Settings) (scope : Scope) (params : Option (List TypeParam)) :
    TypeContext where
  library := ⟨scope.library⟩
  params := TypeParam.names params
  globals := settings.globals

/-- Refuses to bind a reserved name. -/
def checkReserved (id : Identifier) : Except Refusal PUnit :=
  if isReservedName id.name then .error (.reservedName id.name id.span) else .ok ⟨⟩

/-- The constant that a declaration of a type becomes, given how its type is reified. -/
def constant (id : Identifier) (span : Span) (recursive : Bool)
    (reify : Scope → Except Refusal Expr) : Step Const := do
  Step.ofExcept (checkReserved id)
  -- The name of a recursive declaration is taken before what refers to it is reified.
  if recursive then modify fun scope => (scope.declare id.name).2
  let init ← Step.ofExcept (reify (← get))
  modify (·.note init)
  return ⟨id, init, span⟩

/-- The constant that a type alias becomes. -/
def typeAlias (settings : Settings) (decl : TypeAlias) (recursive : Bool) : Step Const :=
  constant decl.id decl.span recursive fun scope =>
    decl.right.reify (context settings scope decl.params) (some decl.id.name)

/-- The constant that an interface becomes. -/
def interface (settings : Settings) (decl : Interface) (recursive : Bool) : Step Const :=
  constant decl.id decl.span recursive fun scope =>
    decl.reify (context settings scope decl.params)

/-- The replacement of a declaration. -/
def declaration (settings : Settings) (recursive : Bool) : Declaration → Step Declaration
  | .typeAlias decl => .const <$> typeAlias settings decl recursive
  | .interface decl => .const <$> interface settings decl recursive
  | .const decl => pure (.const decl)

/-- The replacement of an export. A declaration of a type is exported as the constant that it
becomes, which is a value; anything else is exported as before. -/
def exported (settings : Settings) (recursive : Bool) (decl : Export) : Step Export :=
  match decl.declaration with
  | .typeAlias inner => do
    return ⟨.value, .const (← typeAlias settings inner recursive), decl.span⟩
  | .interface inner => do
    return ⟨.value, .const (← interface settings inner recursive), decl.span⟩
  | .const _ => pure decl

/-! ### Imports -/

/-- Whether the path of a module leads to a module of the same project. -/
def isRelative (path : String) : Bool :=
  ['.', '/'].isPrefixOf path.toList || ['.', '.', '/'].isPrefixOf path.toList

/-- The value of a member of a module, or the type of all values if there is none. -/
def orAny (lib : Library) (module member : String) : Expr :=
  .or (.member (.ident module) member) (lib.primitive .any)

/-- The value that a specifier of an import of types stands for. -/
def specifierValue (lib : Library) (module : String) : ImportSpecifier → Expr
  | .star _ => .ident module
  | .default _ => orAny lib module "default"
  | .named imported _ => orAny lib module imported.name

/-- The constant for a specifier of an import of types. -/
def specifierConst (lib : Library) (module : String) (span : Span) (specifier : ImportSpecifier) :
    Const :=
  ⟨specifier.id, specifierValue lib module specifier, span⟩

/-- The import of a whole module under a generated name. -/
def wholeImport (decl : Import) (module : String) : Import :=
  { decl with kind := .value, specifiers := [.star ⟨module, Span.point decl.span.start⟩] }

/-- The replacements of an import. -/
def imports (decl : Import) (scope : Scope) : List Statement × Scope :=
  if decl.kind ≠ .type then ([.imports decl], scope)
  -- In a module of the same project the types become values of the same names.
  else if isRelative decl.source.value then ([.imports { decl with kind := .value }], scope)
  else
    let (module, scope) := scope.fresh decl.source.value
    let consts := decl.specifiers.map (specifierConst ⟨scope.library⟩ module decl.span)
    (.imports (wholeImport decl module) :: consts.map fun c => .declaration (.const c),
      consts.foldl (fun scope c => scope.note c.init) scope)

/-! ### Statements -/

/-- The mark of a recursive declaration in a comment above it. -/
def recursiveMark : String := "recursive"

/-- Whether a declaration is recursive: flagged by a host, or marked by a comment above it. -/
def isRecursive (program : Program) (comments : List CommentId) (flag : Bool) : Bool :=
  flag || (program.commentsAt comments).any fun c =>
    Text.occurs recursiveMark.toList c.text.toList

/-- The replacements of declarations inside a statement. -/
def nested (settings : Settings) (program : Program) :
    List (Item Declaration) → Step (List (Item Declaration))
  | [] => pure []
  | item :: items => do
    let recursive := isRecursive program item.comments item.node.recursive
    let node ← declaration settings recursive item.node
    let more ← nested settings program items
    return ⟨item.comments, node⟩ :: more

/-- The replacements of a statement, apart from those inside it. An export of a value is not looked
into. -/
def statement (settings : Settings) (recursive : Bool) : Statement → Step (List Statement)
  | .declaration decl => do
    let decl ← declaration settings recursive decl
    return [.declaration decl]
  | .exports decl =>
    if decl.kind = .type then do return [.exports (← exported settings recursive decl)]
    else pure [.exports decl]
  | .imports decl => ExceptT.mk (modifyGet fun scope => (imports decl scope).map .ok id)
  | .verbatim text => pure [.verbatim text]

/-- The replacements of the declarations inside a statement. -/
def inside (settings : Settings) (program : Program) : Statement → Step Statement
  | .verbatim text => do
    let items ← nested settings program text.nested
    return .verbatim { text with nested := items }
  | other => pure other

/-- Gives the comments of an item to the first of its replacements. -/
def withComments (comments : List CommentId) : List Statement → List (Item Statement)
  | [] => []
  | s :: ss => ⟨comments, s⟩ :: ss.map (⟨[], ·⟩)

/-- The replacements of items. -/
def body (settings : Settings) (program : Program) :
    List (Item Statement) → Step (List (Item Statement))
  | [] => pure []
  | item :: items => do
    let recursive := isRecursive program item.comments item.node.recursive
    let node ← inside settings program item.node
    let replacements ← statement settings recursive node
    let more ← body settings program items
    return withComments item.comments replacements ++ more

/-- Turns the types of a program into values, if the program takes part. The first refused
declaration decides. -/
def run (settings : Settings) (program : Program) : Except Refusal Program :=
  let (session, program) := (ofSettings settings).enter program
  if session.active then
    match (body settings program program.body).run session.scope with
    | (.ok items, scope) => .ok ({ session with scope }.exit { program with body := items })
    | (.error refusal, _) => .error refusal
  else .ok program

end Session

end Reifier
