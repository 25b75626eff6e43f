import Reifier.Proofs.TypeExpr.Building
import Reifier.Proofs.TypeExpr.Offending

/-!
# Where display names go

A display name is put on what stands outermost in the counterpart of a type, and the form of the
type says where that is (`TypeExpr.label`). With a name and without one a type is refused alike, or
its counterparts differ in this place at most; the counterparts of its components are the same
(`reify_some_labelled`).
-/

namespace Reifier

/-! ### Places for a name -/

/-- Where a display name goes: nowhere, behind the arguments of a call, into the descriptor of an
interface, or on each of `count` refinements and, inside them, to the place `base`. -/
inductive Label where
  | nowhere
  | argument
  | entry
  | refinements (count : ℕ) (base : Label)

/-- The second expression is the first one with the display name `n` at a place. Everything else
that stands in them is the same. -/
inductive Labelled (lib : Library) (n : String) : Label → Expr → Expr → Prop
  | nowhere (e : Expr) : Labelled lib n .nowhere e e
  | call {c : Combinator} (args : List Expr)
      (hc : c ∈ [.list, .maybe, .tuple, .union, .intersection, .dict, .interface]) :
      Labelled lib n .argument (.call (lib.member c.name) args)
        (.call (lib.member c.name) (args ++ [.string n]))
  | enums (args : List Expr) :
      Labelled lib n .argument (.call (.member (lib.member "enums") "of") args)
        (.call (.member (lib.member "enums") "of") (args ++ [.string n]))
  | entry (properties : List (String × Expr)) :
      Labelled lib n .entry
        (.call (lib.member "interface") [.object properties, .object [("strict", .bool true)]])
        (.call (lib.member "interface")
          [.object properties, .object [("name", .string n), ("strict", .bool true)]])
  | base {label : Label} {e e' : Expr} (h : Labelled lib n label e e') :
      Labelled lib n (.refinements 0 label) e e'
  | refinement {count : ℕ} {label : Label} {e e' : Expr} (p : Expr)
      (h : Labelled lib n (.refinements count label) e e') :
      Labelled lib n (.refinements (count + 1) label) (.call (lib.member "refinement") [e, p])
        (.call (lib.member "refinement") [e', p, .string n])

namespace Labelled

variable {lib : Library} {n : String} {label : Label} {e e' : Expr}

private theorem of_call {c : Combinator} (args : List Expr)
    (hc : c ∈ [.list, .maybe, .tuple, .union, .intersection, .dict, .interface]) :
    Labelled lib n .argument (lib.call c args none) (lib.call c args (some n)) := by
  have hnone : args ++ Library.nameArg none = args := List.append_nil args
  rw [Library.call, Library.call, hnone]
  exact .call args hc

private theorem of_enums (values : List String) :
    Labelled lib n .argument (lib.enums values none) (lib.enums values (some n)) :=
  .enums [.array (values.map Expr.string)]

private theorem of_interface (properties : List (String × Expr)) (strict : Bool) :
    Labelled lib n (if strict then .entry else .argument)
      (lib.interface properties none strict) (lib.interface properties (some n) strict) := by
  cases strict with
  | true => exact .entry properties
  | false => exact .call (c := .interface) [.object properties] (by decide)

/-- Each predicate that is put around an expression takes the name. -/
private theorem of_refineAll {count : ℕ} (h : Labelled lib n (.refinements count label) e e')
    (ps : List Expr) :
    Labelled lib n (.refinements (count + ps.length) label) (TypeExpr.refineAll lib none e ps)
      (TypeExpr.refineAll lib (some n) e' ps) := by
  induction ps generalizing count e e' with
  | nil => exact h
  | cons p ps ih =>
    have hlength : count + (p :: ps).length = count + 1 + ps.length := by
      rw [List.length_cons]
      omega
    rw [hlength]
    exact ih (.refinement p h)

end Labelled

namespace TypeExpr

variable {ctx : TypeContext} {t : TypeExpr} {n : String}

/-- Where a display name goes in the counterpart of a type. -/
def label (ctx : TypeContext) (t : TypeExpr) : Label :=
  match t.shape with
  | .array _ => .argument
  | .nullable _ => .argument
  | .tuple _ => .argument
  | .union _ => .argument
  | .string _ => .argument
  | .intersection members =>
    .refinements (predicates ctx members).length
      (if (t.typeComponents ctx).length = 1 then .nowhere else .argument)
  | .object type =>
    if type.indexers.length = 1 then .argument else if type.exact then .entry else .argument
  | .generic g =>
    match ctx.referent g with
    | .list _ => .argument
    | .strict _ => .entry
    | _ => .nowhere
  | _ => .nowhere

private theorem labelled_buildObject (lib : Library) (type : ObjectType TypeExpr) (es : List Expr) :
    Labelled lib n
      (if type.indexers.length = 1 then .argument else if type.exact then .entry else .argument)
      (buildObject lib type es none) (buildObject lib type es (some n)) := by
  obtain ⟨properties, _ | ⟨i, _ | _⟩, strict⟩ := type
  · exact .of_interface (entries lib properties es) strict
  · exact .of_call es (by decide)
  · exact .of_interface (entries lib properties es) strict

/-- A single type keeps its own label; several are labelled as an intersection. -/
private theorem labelled_buildBase (lib : Library) (es : List Expr) :
    Labelled lib n (if es.length = 1 then .nowhere else .argument) (buildBase lib es none)
      (buildBase lib es (some n)) := by
  match es with
  | [] => exact .of_call (c := .intersection) [.array []] (by decide)
  | [single] => exact .nowhere single
  | first :: second :: more =>
    exact .of_call (c := .intersection) [.array (first :: second :: more)] (by decide)

/-- What is built from the same counterparts with a name and without one differs in the place of the
name. -/
private theorem labelled_build {es : List Expr} (h : es.length = (t.typeComponents ctx).length) :
    Labelled ctx.library n (t.label ctx) (t.build ctx es none) (t.build ctx es (some n)) := by
  obtain ⟨shape, span⟩ := t
  cases shape with
  | array element => exact .of_call es (by decide)
  | nullable inner => exact .of_call es (by decide)
  | tuple items => exact .of_call (c := .tuple) [.array es] (by decide)
  | union members =>
    unfold build
    dsimp only
    cases literals? members with
    | some values => exact .of_enums values
    | none => exact .of_call (c := .union) [.array es] (by decide)
  | intersection members =>
    unfold label
    dsimp only
    -- The base has the label of its types, and each predicate adds one around it.
    rw [← h, ← Nat.zero_add (predicates ctx members).length]
    exact .of_refineAll (.base (labelled_buildBase ctx.library es)) _
  | object type => exact labelled_buildObject ctx.library type es
  | generic g =>
    unfold label build
    dsimp only
    cases ctx.referent g with
    | list element => exact .of_call es (by decide)
    | strict properties => exact .of_interface (entries ctx.library properties es) true
    | _ => exact .nowhere _
  | string value => exact .of_enums [value]
  | _ => exact .nowhere _

/-- **The display name touches what stands outermost only.** With a display name and without one, a
type is refused for the same reason, or the two counterparts are the same but for the name at the
place where names go for the form of the type. Both are built from the same counterparts of its
components. -/
theorem reify_some_labelled (ctx : TypeContext) (t : TypeExpr) (n : String) :
    Alike (fun e e' => Labelled ctx.library n (t.label ctx) e e' ∧
        ∃ es, Counterparts ctx (t.typeComponents ctx) es ∧ e = t.build ctx es none ∧
          e' = t.build ctx es (some n))
      (reify ctx t none) (reify ctx t (some n)) := by
  cases h : reify ctx t none with
  | ok e =>
    obtain ⟨es, hes, hbuilt⟩ := isBuilt_of_reify h
    have he : e = t.build ctx es none := Except.ok.inj (h.symm.trans (hbuilt none))
    rw [hbuilt (some n), he]
    exact .ok ⟨labelled_build hes.length_eq.symm, es, hes, rfl, rfl⟩
  | error refusal =>
    have hsame : Refusal.of? (reify ctx t (some n)) = Refusal.of? (reify ctx t none) := by
      rw [of?_reify_eq_findSome?, of?_reify_eq_findSome?]
    rw [h, Refusal.of?, Refusal.of?_eq_some] at hsame
    rw [hsame]
    exact .error refusal

end TypeExpr

end Reifier
