import Reifier.Proofs.TypeExpr.Components

/-!
# The two spellings of an exact object type

`$Exact<o>` and `o` written with bars inside its braces mean an object with the properties of `o`
and no others. Both are turned into a strict interface of the properties, unless `o` has exactly one
indexer: then the braces with bars stay a map, to which neither the properties nor the bars matter,
while `$Exact` asks for a strict interface all the same, and the indexer is dropped
(`TypeExpr.reify_exactOf`).
-/

namespace Reifier

/-- An object type written with bars inside its braces. -/
def ObjectType.barred (o : ObjectType TypeExpr) : ObjectType TypeExpr := { o with exact := true }

namespace TypeExpr

/-- The reference `$Exact<o>` that stands at `span`, where `name` is the place of its name and
`inner` that of its argument. -/
def exactOf (o : ObjectType TypeExpr) (name inner span : Span) : TypeExpr :=
  ⟨.generic ⟨⟨⟨"$Exact", name⟩, []⟩, some [⟨.object o, inner⟩]⟩, span⟩

variable {ctx : TypeContext} {o : ObjectType TypeExpr} {display : Option String}

/-- An object type with bars becomes a map if it has exactly one indexer. -/
private theorem reifyObject_barred_of_indexer {i : Indexer TypeExpr} (hi : o.indexers = [i]) :
    reifyObject ctx o.barred display = reifyObject ctx ⟨[], [i], false⟩ display := by
  obtain ⟨properties, indexers, exact⟩ := o
  obtain rfl : indexers = [i] := hi
  rfl

/-- Otherwise it becomes a strict interface of its properties. -/
private theorem reifyObject_barred (h : o.indexers.length ≠ 1) :
    reifyObject ctx o.barred display =
      (ctx.library.interface · display true) <$> reifyProperties ctx o.properties := by
  obtain ⟨properties, _ | ⟨i, _ | _⟩, exact⟩ := o
  · rfl
  · exact absurd rfl h
  · rfl

/-- `$Exact` asks for a strict interface of the properties, whatever else the object has. -/
private theorem reify_exactOf_eq (hparams : "$Exact" ∉ ctx.params)
    (hglobals : "$Exact" ∉ ctx.globals) (name inner span : Span) :
    reify ctx (exactOf o name inner span) display =
      (ctx.library.interface · display true) <$> reifyProperties ctx o.properties := by
  have hany : ctx.isAny (⟨⟨⟨"$Exact", name⟩, []⟩, some [⟨.object o, inner⟩]⟩ :
      Generic TypeExpr) = false := by
    have hmagic : isMagicType "$Exact" = false := by decide
    simp [TypeContext.isAny, QualifiedName.simple?, hmagic, NameSet.contains, ← NameSet.mem_def,
      hparams, hglobals]
  have hreferent : ctx.referent ⟨⟨⟨"$Exact", name⟩, []⟩, some [⟨.object o, inner⟩]⟩ =
      .strict o.properties := by
    rw [TypeContext.referent, hany]
    rfl
  rw [exactOf, reify, reifyGeneric_eq_referent, hreferent]

/-- A map is no interface. -/
private theorem dict_ne_interface (lib : Library) (domain codomain : Expr)
    (properties : List (String × Expr)) (name : Option String) (strict : Bool) :
    lib.dict domain codomain name ≠ lib.interface properties name strict := by
  intro h
  have hcallee := (Expr.call.inj h).1
  exact absurd (Expr.member.inj hcallee).2 (by decide)

/-- **The two spellings of an exact object type agree unless it has exactly one indexer.** Then they
never do: with bars the object is what it is without its properties and without bars, a map, and
inside of `$Exact` it is what it is without its indexer, a strict interface. -/
theorem reify_exactOf (ctx : TypeContext) (hparams : "$Exact" ∉ ctx.params)
    (hglobals : "$Exact" ∉ ctx.globals) (o : ObjectType TypeExpr) (display : Option String)
    (name inner span span' : Span) :
    (o.indexers.length ≠ 1 →
      reify ctx (exactOf o name inner span) display = reify ctx ⟨.object o.barred, span'⟩ display) ∧
    ∀ i, o.indexers = [i] →
      reify ctx ⟨.object o.barred, span'⟩ display =
          reify ctx ⟨.object ⟨[], [i], false⟩, span'⟩ display ∧
        reify ctx (exactOf o name inner span) display =
          reify ctx ⟨.object ⟨o.properties, [], true⟩, span'⟩ display ∧
        ∀ e e', reify ctx ⟨.object o.barred, span'⟩ display = .ok e →
          reify ctx (exactOf o name inner span) display = .ok e' → e ≠ e' := by
  have hexact := @reify_exactOf_eq ctx o display hparams hglobals name inner span
  refine ⟨fun hlength => ?_, fun i hi => ⟨?_, ?_, fun e e' he he' => ?_⟩⟩
  · rw [hexact, reify, reifyObject_barred hlength]
  · rw [reify, reify, reifyObject_barred_of_indexer hi]
  · rw [hexact, reify]
    exact (@reifyObject_barred ctx ⟨o.properties, [], true⟩ display Nat.zero_ne_one).symm
  · -- What is a map on one side is an interface on the other.
    rw [reify, reifyObject_barred_of_indexer hi] at he
    obtain ⟨domain, -, he⟩ := exists_of_bind_eq_ok he
    obtain ⟨codomain, -, he⟩ := exists_of_bind_eq_ok he
    rw [hexact] at he'
    obtain ⟨es, -, he'⟩ := exists_of_bind_eq_ok he'
    cases he
    cases he'
    exact dict_ne_interface ctx.library domain codomain es display true

/-- `$Exact<{ 'a': string }>` is what `{| 'a': string |}` is. -/
theorem reify_exactOf_property :
    "$Exact" ∉ NameSet.empty ∧ ([] : List (Indexer TypeExpr)).length ≠ 1 ∧
      reify ⟨⟨"_t"⟩, .empty, .empty⟩
          (exactOf ⟨[⟨.string "a", ⟨.keyword .string, ⟨22, 28⟩⟩, false, ⟨19, 28⟩⟩], [], false⟩
            ⟨9, 15⟩ ⟨16, 30⟩ ⟨9, 31⟩) (some "A") =
        reify ⟨⟨"_t"⟩, .empty, .empty⟩
          ⟨.object ⟨[⟨.string "a", ⟨.keyword .string, ⟨22, 28⟩⟩, false, ⟨19, 28⟩⟩], [], true⟩,
            ⟨16, 30⟩⟩ (some "A") := by
  have hnone : "$Exact" ∉ NameSet.empty := NameSet.not_mem_empty _
  refine ⟨hnone, Nat.zero_ne_one, ?_⟩
  exact (reify_exactOf ⟨⟨"_t"⟩, .empty, .empty⟩ hnone hnone _ _ _ _ _ _).1 Nat.zero_ne_one

/-- The indexer of `$Exact<{ [k: string]: number }>` is dropped, and that of
`{| [k: string]: number |}` is not. -/
theorem not_forall_reify_exactOf :
    ¬ ∀ (ctx : TypeContext) (o : ObjectType TypeExpr) (display : Option String)
      (name inner span span' : Span), "$Exact" ∉ ctx.params → "$Exact" ∉ ctx.globals →
      reify ctx (exactOf o name inner span) display =
        reify ctx ⟨.object o.barred, span'⟩ display := by
  intro hall
  let lib : Library := ⟨"_t"⟩
  let o : ObjectType TypeExpr := ⟨[], [⟨some ⟨"k", ⟨19, 20⟩⟩, ⟨.keyword .string, ⟨22, 28⟩⟩,
    ⟨.keyword .number, ⟨31, 37⟩⟩, ⟨18, 37⟩⟩], false⟩
  have hnone : "$Exact" ∉ NameSet.empty := NameSet.not_mem_empty _
  have heq : (.ok (lib.interface [] (some "A") true) : Except Refusal Expr) =
      .ok (lib.dict (lib.primitive .string) (lib.primitive .number) (some "A")) :=
    hall ⟨lib, .empty, .empty⟩ o (some "A") ⟨9, 15⟩ ⟨16, 39⟩ ⟨9, 40⟩ ⟨16, 39⟩ hnone hnone
  exact dict_ne_interface lib _ _ _ _ _ (Except.ok.inj heq).symm

end TypeExpr

end Reifier
