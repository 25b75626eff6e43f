import Reifier.Text.Span

/-!
# Diagnostics

What is wrong with a source text and where. A diagnostic has a kind and may have a detail, such as
the token that was expected; its message is made from these two.
-/

namespace Reifier

/-- What can be wrong: something is missing, something is not supported, a declaration binds a
reserved name, or a type has no runtime counterpart. -/
inductive Diagnostic.Kind where
  | expectedType
  | expectedIdentifier
  | expectedToken
  | expectedModuleSource
  | unexpectedToken
  | unsupportedConstruct
  | reservedName
  | unsupportedType
  | arrayArity
  | invalidRefinement
  | invalidExact
  | refinementWithoutBase
deriving DecidableEq, Inhabited

namespace Diagnostic.Kind

/-- The message of a diagnostic without a detail. -/
def fallback : Kind → String
  | expectedType => "expected a type"
  | expectedIdentifier => "expected an identifier"
  | expectedToken => "expected token"
  | expectedModuleSource => "expected a module path string"
  | unexpectedToken => "unexpected token"
  | unsupportedConstruct => "unsupported syntax"
  | reservedName => "reserved type name"
  | unsupportedType => "unsupported type annotation"
  | arrayArity => "`Array` expects exactly one type argument"
  | invalidRefinement => "invalid refinement definition, expected `$Refinement<typeof predicate>`"
  | invalidExact => "`$Exact` expects a single object type argument"
  | refinementWithoutBase => "refinements need a base type to refine"

/-- What stands before and after the detail in a message. -/
def frame : Kind → String × String
  | expectedToken => ("expected `", "`")
  | reservedName => ("`", "` is a reserved type name")
  | arrayArity => ("`Array` expects exactly one type argument, found ", "")
  | kind => (kind.fallback ++ ": ", "")

/-- The frame with a pair of braces for the detail. -/
def template (kind : Kind) : String := kind.frame.1 ++ "\x7b\x7d" ++ kind.frame.2

/-- The message with or without a detail. -/
def message (kind : Kind) : Option String → String
  | none => kind.fallback
  | some detail => kind.frame.1 ++ detail ++ kind.frame.2

end Diagnostic.Kind

/-- Something that is wrong with a source text. -/
structure Diagnostic where
  kind : Diagnostic.Kind
  span : Span
  detail : Option String
deriving DecidableEq, Inhabited

namespace Diagnostic

/-- The message of a diagnostic. -/
def message (d : Diagnostic) : String := d.kind.message d.detail

/-- A diagnostic in one line, with its byte offsets. -/
def text (d : Diagnostic) : String :=
  "error at " ++ toString d.span.start ++ ".." ++ toString d.span.stop ++ ": " ++ d.message

/-- Diagnostics in one line each. -/
def textOfAll (ds : List Diagnostic) : String := "\n".intercalate (ds.map text)

end Diagnostic

end Reifier
