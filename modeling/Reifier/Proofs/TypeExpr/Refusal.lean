import Mathlib.Tactic
import Reifier.TypeExpr.Reify

/-!
# Refusals do not depend on the library

Whether a type has a counterpart, and if not, why, depends on the type, on the type parameters in
scope and on the names declared elsewhere. The library only gives the counterpart its form, so under
another name of the library the same types are refused for the same reasons (`alike_reify`,
`Interface.alike_reify`).
-/

namespace Reifier

/-- The refusal that a result is, if it is one. -/
def Refusal.of? {α : Type} : Except Refusal α → Option Refusal
  | .ok _ => none
  | .error refusal => some refusal

theorem Refusal.of?_eq_some {α : Type} {x : Except Refusal α} {refusal : Refusal} :
    Refusal.of? x = some refusal ↔ x = .error refusal := by
  cases x <;> simp [Refusal.of?]

theorem exists_of_bind_eq_ok {ε α β : Type} {x : Except ε α} {f : α → Except ε β} {b : β}
    (h : (x >>= f) = .ok b) : ∃ a, x = .ok a ∧ f a = .ok b := by
  cases x with
  | error e => cases h
  | ok a => exact ⟨a, rfl, h⟩

/-- Two results are the same refusal, or values that `R` relates. -/
inductive Alike {α β : Type} (R : α → β → Prop) : Except Refusal α → Except Refusal β → Prop
  | ok {a : α} {b : β} (h : R a b) : Alike R (.ok a) (.ok b)
  | error (refusal : Refusal) : Alike R (.error refusal) (.error refusal)

namespace Alike

variable {α β γ δ : Type} {R : α → β → Prop} {S : γ → δ → Prop} {x : Except Refusal α}
  {y : Except Refusal β}

protected theorem bind {f : α → Except Refusal γ} {g : β → Except Refusal δ} (h : Alike R x y)
    (hf : ∀ a b, R a b → Alike S (f a) (g b)) : Alike S (x >>= f) (y >>= g) := by
  cases h with
  | ok hab => exact hf _ _ hab
  | error refusal => exact .error refusal

protected theorem map {f : α → γ} {g : β → δ} (h : Alike R x y)
    (hf : ∀ a b, R a b → S (f a) (g b)) : Alike S (f <$> x) (g <$> y) := by
  cases h with
  | ok hab => exact .ok (hf _ _ hab)
  | error refusal => exact .error refusal

protected theorem refl {R : α → α → Prop} (h : ∀ a, R a a) (x : Except Refusal α) :
    Alike R x x := by
  cases x with
  | ok a => exact .ok (h a)
  | error refusal => exact .error refusal

theorem of?_eq (h : Alike R x y) : Refusal.of? x = Refusal.of? y := by
  cases h <;> rfl

end Alike

namespace TypeExpr

variable (lib lib' : Library) (params globals : NameSet)

/-- Nothing is asked of two values. -/
def Any {α β : Type} (_ : α) (_ : β) : Prop := True

/-- Lists of members with as many types. -/
def SameTypes (ms ms' : List Member) : Prop :=
  (Member.types ms).length = (Member.types ms').length

/-- Two types or two predicates. -/
inductive SameKind : Member → Member → Prop
  | type (e e' : Expr) : SameKind (.type e) (.type e')
  | predicate (e e' : Expr) : SameKind (.predicate e) (.predicate e')

theorem SameTypes.cons {ms ms' : List Member} {m m' : Member} (h : SameTypes ms ms')
    (hm : SameKind m m') : SameTypes (m :: ms) (m' :: ms') := by
  cases hm with
  | type e e' => exact congrArg (· + 1) h
  | predicate e e' => exact h

/-- Only an intersection without types cannot be merged. -/
private theorem alike_merge {ms ms' : List Member} (h : SameTypes ms ms') (name : Option String)
    (span : Span) : Alike Any (merge lib ms name span) (merge lib' ms' name span) := by
  unfold SameTypes at h
  unfold merge
  match hms : Member.types ms, hms' : Member.types ms' with
  | [], [] => exact .error _
  | [single], [single'] => exact .ok trivial
  | _ :: _ :: _, _ :: _ :: _ => exact .ok trivial
  | [], _ :: _ => simp [hms, hms'] at h
  | _ :: _, [] => simp [hms, hms'] at h
  | [_], _ :: _ :: _ => simp [hms, hms'] at h
  | _ :: _ :: _, [_] => simp [hms, hms'] at h

private theorem alike_reifyKeyword (keyword : Keyword) (span : Span) :
    Alike Any (reifyKeyword lib keyword span) (reifyKeyword lib' keyword span) := by
  cases keyword with
  | symbol => exact .error _
  | _ => exact .ok trivial

/-- The cases of a reference. -/
theorem reifyGeneric_eq (ctx : TypeContext) (name : QualifiedName) (args? : Option (List TypeExpr))
    (span : Span) (display : Option String) :
    reifyGeneric ctx ⟨name, args?⟩ span display =
      if ctx.isAny (⟨name, args?⟩ : Generic TypeExpr) then .ok (ctx.library.primitive .any)
      else if name.simple? = some "Array" then
        match args? with
        | some [element] => do
          let e ← reify ctx element none
          return ctx.library.list e display
        | _ => .error (.shape (.arrayArity (args?.getD []).length) span)
      else if name.simple? = some "Object" then .ok (ctx.library.primitive .object)
      else if name.simple? = some "Function" then .ok (ctx.library.primitive .function)
      else if name.simple? = some "$Exact" then
        match args? with
        | some [⟨.object ⟨properties, _, _⟩, _⟩] => do
          let es ← reifyProperties ctx properties
          return ctx.library.interface es display true
        | _ => .error (.shape .invalidExact span)
      else if name.simple? = some refinementMarker then do
        let _ ← predicate ⟨name, args?⟩ span
        return name.toExpr
      else .ok name.toExpr := by
  obtain _ | _ | ⟨⟨shape, _⟩, _ | ⟨_, _⟩⟩ := args?
  · rfl
  · rfl
  · cases shape <;> rfl
  · cases shape <;> rfl

mutual

/-- **A type is refused under every library for the same reason, or under none.** -/
theorem alike_reify : (t : TypeExpr) → (name : Option String) →
    Alike Any (reify ⟨lib, params, globals⟩ t name) (reify ⟨lib', params, globals⟩ t name)
  | ⟨.keyword word, span⟩, _ => alike_reifyKeyword lib lib' word span
  | ⟨.function .., _⟩, _ => .ok trivial
  | ⟨.typeOf _, _⟩, _ => .ok trivial
  | ⟨.array element, _⟩, _ => (alike_reify element none).bind fun _ _ _ => .ok trivial
  | ⟨.nullable inner, _⟩, _ => (alike_reify inner none).bind fun _ _ _ => .ok trivial
  | ⟨.tuple items, _⟩, _ => (alike_reifyAll items).bind fun _ _ _ => .ok trivial
  | ⟨.union members, _⟩, _ => by
    rw [reify, reify]
    cases literals? members with
    | some values => exact .ok trivial
    | none => exact (alike_reifyAll members).bind fun _ _ _ => .ok trivial
  | ⟨.intersection members, span⟩, name =>
    (alike_reifyMembers members).bind fun _ _ h => alike_merge lib lib' h name span
  | ⟨.object type, _⟩, name => alike_reifyObject type name
  | ⟨.generic ref, span⟩, name => alike_reifyGeneric ref span name
  | ⟨.string _, _⟩, _ => .ok trivial
  | ⟨.number _, _⟩, _ => .ok trivial
  | ⟨.boolean _, _⟩, _ => .ok trivial
  | ⟨.bigInt _, _⟩, _ => .error _
  | ⟨.indexedAccess .., _⟩, _ => .error _
termination_by structural t => t

/-- Whether and why a reference is refused does not depend on the library. The cases are the known
names and all others. -/
private theorem alike_reifyGeneric :
    (g : Generic TypeExpr) → (span : Span) → (display : Option String) →
    Alike Any (reifyGeneric ⟨lib, params, globals⟩ g span display)
      (reifyGeneric ⟨lib', params, globals⟩ g span display)
  | ⟨name, args?⟩, span, display => by
    rw [reifyGeneric_eq, reifyGeneric_eq]
    have hany : (⟨lib, params, globals⟩ : TypeContext).isAny (⟨name, args?⟩ : Generic TypeExpr) =
        (⟨lib', params, globals⟩ : TypeContext).isAny (⟨name, args?⟩ : Generic TypeExpr) := rfl
    rw [hany]
    split_ifs
    · exact .ok trivial
    · match args? with
      | some [element] => exact (alike_reify element none).bind fun _ _ _ => .ok trivial
      | none => exact .error _
      | some [] => exact .error _
      | some (_ :: _ :: _) => exact .error _
    · exact .ok trivial
    · exact .ok trivial
    · obtain _ | _ | ⟨⟨shape, _⟩, more⟩ := args?
      · exact .error _
      · exact .error _
      · cases shape with
        | object type =>
          obtain ⟨properties, _, _⟩ := type
          cases more with
          | nil => exact (alike_reifyProperties properties).bind fun _ _ _ => .ok trivial
          | cons => exact .error _
        | _ => exact .error _
    · have hpredicate : Alike Any (predicate ⟨name, args?⟩ span) (predicate ⟨name, args?⟩ span) :=
        .refl (fun _ => trivial) _
      exact hpredicate.bind fun _ _ _ => .ok trivial
    · exact .ok trivial
termination_by structural g => g

private theorem alike_reifyObject : (o : ObjectType TypeExpr) → (name : Option String) →
    Alike Any (reifyObject ⟨lib, params, globals⟩ o name)
      (reifyObject ⟨lib', params, globals⟩ o name)
  | ⟨_, [⟨_, key, value, _⟩], _⟩, _ =>
    (alike_reify key none).bind fun _ _ _ => (alike_reify value none).bind fun _ _ _ => .ok trivial
  | ⟨properties, [], _⟩, _ => (alike_reifyProperties properties).bind fun _ _ _ => .ok trivial
  | ⟨properties, _ :: _ :: _, _⟩, _ =>
    (alike_reifyProperties properties).bind fun _ _ _ => .ok trivial
termination_by structural o => o

private theorem alike_reifyAll : (ts : List TypeExpr) →
    Alike Any (reifyAll ⟨lib, params, globals⟩ ts) (reifyAll ⟨lib', params, globals⟩ ts)
  | [] => .ok trivial
  | t :: ts =>
    (alike_reify t none).bind fun _ _ _ => (alike_reifyAll ts).bind fun _ _ _ => .ok trivial
termination_by structural ts => ts

/-- Whether and why the members of an intersection are refused does not depend on the library, nor
does how many of them are types. -/
private theorem alike_reifyMembers : (ts : List TypeExpr) →
    Alike SameTypes (reifyMembers ⟨lib, params, globals⟩ ts)
      (reifyMembers ⟨lib', params, globals⟩ ts)
  | [] => .ok rfl
  | t :: ts => by
    rw [reifyMembers, reifyMembers]
    have hmember : predicateMember? ⟨lib, params, globals⟩ t =
        predicateMember? ⟨lib', params, globals⟩ t := rfl
    rw [hmember]
    cases predicateMember? ⟨lib', params, globals⟩ t with
    | some p =>
      have hp : Alike Any p p := .refl (fun _ => trivial) p
      have hfirst := hp.map (S := SameKind) fun e e' _ => .predicate e e'
      exact hfirst.bind fun _ _ hm => (alike_reifyMembers ts).bind fun _ _ hms => .ok (hms.cons hm)
    | none =>
      have hfirst := (alike_reify t none).map (S := SameKind) fun e e' _ => .type e e'
      exact hfirst.bind fun _ _ hm => (alike_reifyMembers ts).bind fun _ _ hms => .ok (hms.cons hm)
termination_by structural ts => ts

private theorem alike_reifyProperties : (ps : List (Property TypeExpr)) →
    Alike Any (reifyProperties ⟨lib, params, globals⟩ ps)
      (reifyProperties ⟨lib', params, globals⟩ ps)
  | [] => .ok trivial
  | ⟨_, value, _, _⟩ :: ps =>
    (alike_reify value none).bind fun _ _ _ => (alike_reifyProperties ps).bind fun _ _ _ =>
      .ok trivial
termination_by structural ps => ps

end

private theorem alike_reifyBases (gs : List (Generic TypeExpr)) :
    Alike Any (reifyBases ⟨lib, params, globals⟩ gs) (reifyBases ⟨lib', params, globals⟩ gs) := by
  induction gs with
  | nil => exact .ok trivial
  | cons g gs ih =>
    exact (alike_reifyGeneric lib lib' params globals g g.name.span none).bind fun _ _ _ =>
      ih.bind fun _ _ _ => .ok trivial

end TypeExpr

/-- **An interface is refused under every library for the same reason, or under none.** -/
theorem Interface.alike_reify (lib lib' : Library) (params globals : NameSet) (decl : Interface) :
    Alike TypeExpr.Any (decl.reify ⟨lib, params, globals⟩)
      (decl.reify ⟨lib', params, globals⟩) := by
  unfold Interface.reify
  split_ifs
  · exact TypeExpr.alike_reifyObject lib lib' params globals decl.body (some decl.id.name)
  · refine (TypeExpr.alike_reifyBases lib lib' params globals decl.bases).bind fun _ _ _ => ?_
    exact (TypeExpr.alike_reifyProperties lib lib' params globals decl.body.properties).bind
      fun _ _ _ => .ok trivial

end Reifier
