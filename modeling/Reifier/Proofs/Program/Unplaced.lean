import Reifier.Program.Basic
import Reifier.Proofs.Token.Lexing
import Reifier.Proofs.TypeExpr.Unplaced

/-!
# Statements without places

Declarations and imports forget where they and their parts stand as type expressions do. Of a
statement that is carried along as text the words are kept: two statements are the `Same` if they
differ at most in places, in the comments above what they hold, and in the trivia inside text.
-/

namespace Reifier

/-- A type alias at no place in particular. -/
def TypeAlias.unplaced (decl : TypeAlias) : TypeAlias where
  id := decl.id.unplaced
  params := decl.params.map (List.map TypeParam.unplaced)
  right := decl.right.unplaced
  recursive := decl.recursive
  span := .point 0

/-- An interface at no place in particular. -/
def Interface.unplaced (decl : Interface) : Interface where
  id := decl.id.unplaced
  params := decl.params.map (List.map TypeParam.unplaced)
  bases := decl.bases.map TypeExpr.unplacedGeneric
  body := TypeExpr.unplacedObject decl.body
  bodySpan := .point 0
  recursive := decl.recursive
  span := .point 0

/-- A declaration at no place in particular. -/
def Declaration.unplaced : Declaration → Declaration
  | typeAlias decl => .typeAlias decl.unplaced
  | interface decl => .interface decl.unplaced
  | const decl => .const ⟨decl.id.unplaced, decl.init, .point 0⟩

/-- A binding of an import at no place in particular. -/
def ImportSpecifier.unplaced : ImportSpecifier → ImportSpecifier
  | default id => .default id.unplaced
  | star id => .star id.unplaced
  | named imported id => .named imported.unplaced id.unplaced

/-- The path of a module at no place in particular. -/
def ModuleSource.unplaced (source : ModuleSource) : ModuleSource := ⟨source.value, .point 0⟩

/-- An import at no place in particular. -/
def Import.unplaced (decl : Import) : Import :=
  ⟨decl.kind, decl.specifiers.map ImportSpecifier.unplaced, decl.source.unplaced, .point 0⟩

/-- The tokens of a text apart from trivia, and the declarations inside it at no place in
particular. -/
def Verbatim.bare (text : Verbatim) : List Token.Word × List Declaration :=
  (Token.wordsOf text.text.toList, text.nested.map fun item => item.node.unplaced)

/-- Two statements differ at most in places, in comments, and in the trivia inside text. -/
inductive Statement.Same : Statement → Statement → Prop
  | declaration {decl decl' : Declaration} (h : decl'.unplaced = decl.unplaced) :
      Same (.declaration decl) (.declaration decl')
  | imports {decl decl' : Import} (h : decl'.unplaced = decl.unplaced) :
      Same (.imports decl) (.imports decl')
  | exports {decl decl' : Export} (hkind : decl'.kind = decl.kind)
      (h : decl'.declaration.unplaced = decl.declaration.unplaced) :
      Same (.exports decl) (.exports decl')
  | verbatim {text text' : Verbatim} (h : text'.bare = text.bare) :
      Same (.verbatim text) (.verbatim text')

end Reifier
