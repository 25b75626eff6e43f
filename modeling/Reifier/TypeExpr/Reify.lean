import Reifier.Diagnostic.Basic
import Reifier.Library
import Reifier.Program.Basic

/-!
# Reifying type expressions

A type expression is turned into the expression that builds its runtime counterpart. A display
name goes to the outermost combinator only. What the runtime library does not check becomes the
type of all values: type parameters, names declared elsewhere, and utility types. Some forms have
no counterpart at all, and a type that is reached in such a form is refused; the first one in the
order of the text decides.

In an intersection a member `$Refinement<typeof p>` is no type but a predicate. The types are
merged, and each predicate then refines the result, in the order of the text.
-/

namespace Reifier

/-! ### Refusals -/

/-- What can be wrong with the form of a type. -/
inductive ShapeProblem where
  | arrayArity (found : Nat)
  | invalidRefinement
  | invalidExact
  | refinementWithoutBase
  | unsupported (form : String)
deriving DecidableEq

/-- Why a declaration is refused, and where. -/
inductive Refusal where
  | reservedName (name : String) (span : Span)
  | shape (problem : ShapeProblem) (span : Span)
deriving DecidableEq

namespace ShapeProblem

/-- The kind of diagnostic that a problem is reported as. -/
def kind : ShapeProblem → Diagnostic.Kind
  | arrayArity _ => .arrayArity
  | invalidRefinement => .invalidRefinement
  | invalidExact => .invalidExact
  | refinementWithoutBase => .refinementWithoutBase
  | unsupported _ => .unsupportedType

/-- The detail of the diagnostic that a problem is reported as. -/
def detail : ShapeProblem → Option String
  | arrayArity found => some (toString found)
  | unsupported form => some form
  | _ => none

end ShapeProblem

namespace Refusal

/-- Where the refused type or name stands. -/
def span : Refusal → Span
  | reservedName _ span => span
  | shape _ span => span

/-- The diagnostic that a refusal is reported as. -/
def diagnostic : Refusal → Diagnostic
  | reservedName name span => ⟨.reservedName, span, some name⟩
  | shape problem span => ⟨problem.kind, span, problem.detail⟩

/-- Why a declaration is refused, in words. -/
def message (refusal : Refusal) : String := refusal.diagnostic.message

end Refusal

/-! ### Contexts -/

/-- What the meaning of a type depends on: the library, the type parameters in scope, and the
names declared elsewhere. -/
structure TypeContext where
  library : Library
  params : NameSet
  globals : NameSet

/-- The type parameters of a declaration. -/
def TypeParam.names (params : Option (List TypeParam)) : NameSet :=
  NameSet.ofList ((params.getD []).map (·.name.name))

namespace TypeContext

/-- Whether a reference stands for the type of all values. -/
def isAny {α : Type} (ctx : TypeContext) (g : Generic α) : Bool :=
  g.name.simple?.any fun name =>
    ctx.params.contains name || ctx.globals.contains name || isMagicType name

end TypeContext

namespace TypeExpr

/-- Whether a reference is marked as a predicate. -/
def isRefinement {α : Type} (g : Generic α) : Bool := g.name.simple? = some refinementMarker

/-- The predicate `p` of `$Refinement<typeof p>`. -/
def predicate (g : Generic TypeExpr) (span : Span) : Except Refusal Expr :=
  match g.args with
  | [⟨.typeOf target, _⟩] => .ok target.toExpr
  | _ => .error (.shape .invalidRefinement span)

/-- The predicate that a member of an intersection is; nothing if the member is a type. -/
def predicateMember? (ctx : TypeContext) (t : TypeExpr) : Option (Except Refusal Expr) :=
  match t.shape with
  | .generic g => if isRefinement g && !ctx.isAny g then some (predicate g t.span) else none
  | _ => none

/-- A member of an intersection. -/
inductive Member where
  | type (value : Expr)
  | predicate (value : Expr)

/-- The types among members. -/
def Member.types (members : List Member) : List Expr :=
  members.filterMap fun
    | type value => some value
    | predicate _ => none

/-- The predicates among members. -/
def Member.predicates (members : List Member) : List Expr :=
  members.filterMap fun
    | type _ => none
    | predicate value => some value

/-- Merges the types of an intersection, a single one into itself, and refines the result by each
predicate. -/
def merge (lib : Library) (members : List Member) (name : Option String) (span : Span) :
    Except Refusal Expr :=
  let refine (base : Expr) : Expr :=
    (Member.predicates members).foldl (fun base p => lib.refinement base p name) base
  match Member.types members with
  | [] => .error (.shape .refinementWithoutBase span)
  | [single] => .ok (refine single)
  | several => .ok (refine (lib.intersection several name))

/-- The strings of a union of nothing but string literals. -/
def literals? : List TypeExpr → Option (List String)
  | [] => some []
  | ⟨.string value, _⟩ :: ts => (literals? ts).map (value :: ·)
  | _ :: _ => none

/-- The counterpart of a keyword type. -/
def reifyKeyword (lib : Library) (keyword : Keyword) (span : Span) : Except Refusal Expr :=
  match keyword with
  | .number => .ok (lib.primitive .number)
  | .string => .ok (lib.primitive .string)
  | .boolean => .ok (lib.primitive .boolean)
  | .void | .null => .ok (lib.primitive .nil)
  | .any | .mixed | .existential => .ok (lib.primitive .any)
  | .empty => .ok lib.empty
  | .symbol => .error (.shape (.unsupported keyword.describe) span)

mutual

/-- The counterpart of a type expression, with a display name. -/
def reify (ctx : TypeContext) : TypeExpr → Option String → Except Refusal Expr
  | ⟨.keyword word, span⟩, _ => reifyKeyword ctx.library word span
  | ⟨.function .., _⟩, _ => .ok (ctx.library.primitive .function)
  | ⟨.typeOf _, _⟩, _ => .ok (ctx.library.primitive .any)
  | ⟨.array element, _⟩, name => do
    let e ← reify ctx element none
    return ctx.library.list e name
  | ⟨.nullable inner, _⟩, name => do
    let e ← reify ctx inner none
    return ctx.library.maybe e name
  | ⟨.tuple items, _⟩, name => do
    let es ← reifyAll ctx items
    return ctx.library.tuple es name
  | ⟨.union members, _⟩, name =>
    match literals? members with
    | some values => .ok (ctx.library.enums values name)
    | none => do
      let es ← reifyAll ctx members
      return ctx.library.union es name
  | ⟨.intersection members, span⟩, name => do
    let ms ← reifyMembers ctx members
    merge ctx.library ms name span
  | ⟨.object type, _⟩, name => reifyObject ctx type name
  | ⟨.generic ref, span⟩, name => reifyGeneric ctx ref span name
  | ⟨.string value, _⟩, name => .ok (ctx.library.enums [value] name)
  | ⟨.number spelling, _⟩, _ => .ok (ctx.library.literal .number "n" (.number spelling))
  | ⟨.boolean value, _⟩, _ => .ok (ctx.library.literal .boolean "b" (.bool value))
  | ⟨.bigInt spelling, span⟩, _ =>
    .error (.shape (.unsupported (Shape.bigInt spelling : Shape TypeExpr).describe) span)
  | ⟨.indexedAccess object index, span⟩, _ =>
    .error (.shape (.unsupported (Shape.indexedAccess object index).describe) span)
termination_by structural t => t

/-- The counterpart of a reference that stands at `span`. -/
def reifyGeneric (ctx : TypeContext) :
    Generic TypeExpr → Span → Option String → Except Refusal Expr
  | ⟨name, args?⟩, span, display =>
    if ctx.isAny (⟨name, args?⟩ : Generic TypeExpr) then .ok (ctx.library.primitive .any)
    else if name.simple? = some "Array" then
      match args? with
      | some [element] => do
        let e ← reify ctx element none
        return ctx.library.list e display
      | _ => .error (.shape (.arrayArity (args?.getD []).length) span)
    else if name.simple? = some "Object" then .ok (ctx.library.primitive .object)
    else if name.simple? = some "Function" then .ok (ctx.library.primitive .function)
    else if name.simple? = some "$Exact" then
      match args? with
      | some [⟨.object ⟨properties, _, _⟩, _⟩] => do
        let es ← reifyProperties ctx properties
        return ctx.library.interface es display true
      | _ => .error (.shape .invalidExact span)
    else if name.simple? = some refinementMarker then do
      -- Outside of an intersection there is nothing to refine.
      let _ ← predicate ⟨name, args?⟩ span
      return name.toExpr
    else .ok name.toExpr
termination_by structural g => g

/-- The counterpart of an object type: a map if there is exactly one indexer, and otherwise an
interface of the properties. -/
def reifyObject (ctx : TypeContext) :
    ObjectType TypeExpr → Option String → Except Refusal Expr
  | ⟨_, [⟨_, key, value, _⟩], _⟩, name => do
    let domain ← reify ctx key none
    let codomain ← reify ctx value none
    return ctx.library.dict domain codomain name
  -- Several indexers, like none, leave only the properties.
  | ⟨properties, _, exact⟩, name => do
    let es ← reifyProperties ctx properties
    return ctx.library.interface es name exact
termination_by structural o => o

/-- The counterparts of type expressions. -/
def reifyAll (ctx : TypeContext) : List TypeExpr → Except Refusal (List Expr)
  | [] => .ok []
  | t :: ts => do
    let e ← reify ctx t none
    let es ← reifyAll ctx ts
    return e :: es
termination_by structural ts => ts

/-- The members of an intersection. -/
def reifyMembers (ctx : TypeContext) : List TypeExpr → Except Refusal (List Member)
  | [] => .ok []
  | t :: ts => do
    let m ← match predicateMember? ctx t with
      | some p => Member.predicate <$> p
      | none => Member.type <$> reify ctx t none
    let ms ← reifyMembers ctx ts
    return m :: ms
termination_by structural ts => ts

/-- The entries of an interface. An optional property may also be missing. -/
def reifyProperties (ctx : TypeContext) :
    List (Property TypeExpr) → Except Refusal (List (String × Expr))
  | [] => .ok []
  | ⟨key, value, optional, _⟩ :: ps => do
    let e ← reify ctx value none
    let es ← reifyProperties ctx ps
    return (key.name, if optional then ctx.library.maybe e none else e) :: es
termination_by structural ps => ps

end

/-- The counterparts of references, each standing at its name. -/
def reifyBases (ctx : TypeContext) : List (Generic TypeExpr) → Except Refusal (List Expr)
  | [] => .ok []
  | g :: gs => do
    let e ← reifyGeneric ctx g g.name.span none
    let es ← reifyBases ctx gs
    return e :: es

end TypeExpr

/-- The counterpart of an interface: that of its body, or an extension of its bases by the
properties of its body. -/
def Interface.reify (ctx : TypeContext) (decl : Interface) : Except Refusal Expr :=
  if decl.bases.isEmpty then TypeExpr.reifyObject ctx decl.body (some decl.id.name)
  else do
    let bases ← TypeExpr.reifyBases ctx decl.bases
    let properties ← TypeExpr.reifyProperties ctx decl.body.properties
    return ctx.library.interfaceExtend (bases ++ [.object properties]) (some decl.id.name)

end Reifier
