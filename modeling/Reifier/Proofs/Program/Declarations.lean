import Mathlib.Tactic
import Reifier.Program.Basic

/-!
# The declarations of a program

All declarations of a program in the order of its text: those that are statements, those that are
exported, and those inside the brackets of other statements.
-/

namespace Reifier

/-- The name that a declaration declares. -/
def Declaration.id : Declaration → Identifier
  | typeAlias decl => decl.id
  | interface decl => decl.id
  | const decl => decl.id

/-- The declarations that a statement is, exports, or has inside its brackets. -/
def Statement.declarations : Statement → List Declaration
  | declaration decl => [decl]
  | imports _ => []
  | exports decl => [decl.declaration]
  | verbatim text => text.nested.map Item.node

/-- An export, if it is one, of a type. -/
def Statement.ExportsType : Statement → Prop
  | exports decl => decl.kind = .type
  | _ => True

/-- The declarations of statements, in order. -/
def Item.declarations (items : List (Item Statement)) : List Declaration :=
  items.flatMap fun item => item.node.declarations

/-- The declarations of a program, in order. -/
def Program.declarations (program : Program) : List Declaration := Item.declarations program.body

@[simp] theorem Item.declarations_nil : Item.declarations [] = [] := rfl

@[simp] theorem Item.declarations_cons (item : Item Statement) (items : List (Item Statement)) :
    Item.declarations (item :: items) = item.node.declarations ++ Item.declarations items := rfl

end Reifier
