import Mathlib
import Reifier.Proofs.Name
import Reifier.Proofs.Scope

/-!
# Names generated from different bases

A generated name shows the base that it was generated from, whatever number it has: the base that is
made from the name is that one again (`generatedBase_fresh`). So names that are generated from
different bases differ, in one unit or in two (`identifiers_and_bases_stable`).
-/

namespace Reifier.Scope

/-- The base of a fresh name is that of its hint, whatever digits have been put behind it. -/
theorem generatedBase_fresh (scope : Scope) (hint : String) :
    Name.generatedBase (scope.fresh hint).1 = Name.generatedBase hint := by
  obtain ⟨digits, hname, hdigits⟩ := exists_generated_eq_append scope.taken hint
  have hfresh : (scope.fresh hint).1 = "_" ++ Name.generatedBase hint ++ digits := hname
  rw [hfresh]
  exact (Name.generated_stable hint hdigits).2

/-- **Names made from texts are sound and stable.** What is made from a text is an identifier, and
the text itself if that is one; a base is not empty, is made of what can stand in an identifier, and
has no underscore in front and no digit at the end; an underscore and the base, with or without a
number, form an identifier that has the same base; and names that are generated from different bases
differ. -/
theorem identifiers_and_bases_stable (s : String) :
    (Name.isIdentifier (Name.toIdentifier s) = true ∧
      (Name.toIdentifier s = s ↔ Name.isIdentifier s = true) ∧
      Name.toIdentifier (Name.toIdentifier s) = Name.toIdentifier s) ∧
    Name.IsBase (Name.generatedBase s).toList ∧
    (Name.isIdentifier ("_" ++ Name.generatedBase s) = true ∧
      Name.generatedBase ("_" ++ Name.generatedBase s) = Name.generatedBase s) ∧
    (∀ number : ℕ, Name.isIdentifier ("_" ++ Name.generatedBase s ++ toString number) = true ∧
      Name.generatedBase ("_" ++ Name.generatedBase s ++ toString number) =
        Name.generatedBase s) ∧
    ∀ (scope scope' : Scope) (other : String),
      Name.generatedBase other ≠ Name.generatedBase s →
        (scope.fresh s).1 ≠ (scope'.fresh other).1 := by
  have hidentifier := Name.isIdentifier_toIdentifier s
  have hsame := Name.toIdentifier_eq_self_iff.mpr hidentifier
  have hbase : Name.IsBase (Name.generatedBase s).toList := by
    have hchars : (Name.generatedBase s).toList = Name.generatedBaseChars s.toList :=
      String.toList_ofList
    rw [hchars]
    exact Name.isBase_generatedBaseChars s.toList
  refine ⟨⟨hidentifier, Name.toIdentifier_eq_self_iff, hsame⟩, hbase, ?_, fun number => ?_, ?_⟩
  · have hempty : ∀ d ∈ "".toList, d.isDigit = true := List.forall_mem_nil _
    have hbare := Name.generated_stable s hempty
    rwa [String.append_empty] at hbare
  · exact Name.generated_stable s fun d hd => Name.isDigit_of_mem_toString hd
  · intro scope scope' other hother heq
    refine hother ?_
    rw [← generatedBase_fresh scope' other, ← heq, generatedBase_fresh scope s]

example : ["t", "_t", "_t2", "tcomb-react", "___", "_1a2"].map Name.generatedBase =
    ["t", "t", "t", "tcombReact", "ref", "1a"] := by
  rfl

end Reifier.Scope
