import Mathlib
import Reifier.Proofs.Name
import Reifier.Scope

/-!
# Generated names are free

The names that are tried for a text differ from each other, and there is one more of them than there
are names taken, so one of them is free, and it is the one that is generated (`generated_not_mem`).
So names that are generated one after another differ from the names of the unit and from each other
(`Gains.trans`).
-/

namespace Reifier.Scope

/-- The candidates from the first one on differ. -/
private theorem candidate_inj {base : String} {m n : ℕ} (hm : 1 ≤ m) (hn : 1 ≤ n)
    (h : candidate base m = candidate base n) : m = n := by
  -- The first candidate shows no number, and a number is never shown as nothing.
  have hshown : ∀ k : ℕ, "_" ++ base ≠ "_" ++ base ++ toString k := by
    intro k hk
    have hempty : "_" ++ base ++ "" = "_" ++ base ++ toString k := by rwa [String.append_empty]
    exact Nat.repr_ne_empty ((String.append_right_inj _).mp hempty).symm
  unfold candidate at h
  split_ifs at h with hfirst hsecond hsecond
  · omega
  · exact absurd h (hshown n)
  · exact absurd h.symm (hshown m)
  · exact Nat.repr_injective ((String.append_right_inj _).mp h)

/-- What is found is a candidate, and those that were tried before it are taken. -/
theorem exists_firstFree_eq (taken : NameSet) (base : String) (tries number : ℕ) :
    ∃ k, firstFree taken base tries number = candidate base (number + k) ∧
      ∀ j < k, candidate base (number + j) ∈ taken := by
  induction tries generalizing number with
  | zero => exact ⟨0, rfl, fun j hj => absurd hj (Nat.not_lt_zero j)⟩
  | succ tries ih =>
    unfold firstFree
    split_ifs with hnumber
    · rw [NameSet.contains_eq_true] at hnumber
      obtain ⟨k, hfound, htried⟩ := ih (number + 1)
      have hshift : ∀ j, number + 1 + j = number + (j + 1) := fun j => by omega
      refine ⟨k + 1, by rw [hfound, hshift], fun j hj => ?_⟩
      cases j with
      | zero => exact hnumber
      | succ j => exact hshift j ▸ htried j (Nat.lt_of_succ_lt_succ hj)
    · exact ⟨0, rfl, fun j hj => absurd hj (Nat.not_lt_zero j)⟩

/-- If what is found is taken, so are all candidates that were tried. -/
private theorem candidates_of_firstFree_mem {taken : NameSet} {base : String} {tries number : ℕ}
    (h : firstFree taken base tries number ∈ taken) :
    ∀ k ≤ tries, candidate base (number + k) ∈ taken := by
  induction tries generalizing number with
  | zero =>
    intro k hk
    obtain rfl := Nat.le_zero.mp hk
    exact h
  | succ tries ih =>
    unfold firstFree at h
    split_ifs at h with hnumber
    · rw [NameSet.contains_eq_true] at hnumber
      intro k hk
      cases k with
      | zero => exact hnumber
      | succ k =>
        have hnext := ih h k (Nat.le_of_succ_le_succ hk)
        rwa [Nat.add_right_comm, Nat.add_assoc] at hnext
    · exact absurd (NameSet.contains_eq_true.mpr h) hnumber

/-- **A generated name is not taken.** -/
theorem generated_not_mem (taken : NameSet) (hint : String) : generated taken hint ∉ taken := by
  intro h
  let candidates :=
    (List.range (taken.size + 1)).map fun k => candidate (Name.generatedBase hint) (1 + k)
  have hsubset : candidates ⊆ taken.toList := by
    intro name hname
    obtain ⟨k, hk, rfl⟩ := List.mem_map.mp hname
    exact candidates_of_firstFree_mem h k (Nat.le_of_lt_succ (List.mem_range.mp hk))
  have hnodup : candidates.Nodup := by
    refine List.nodup_range.map_on fun k _ l _ heq => ?_
    have := candidate_inj (Nat.le_add_right 1 k) (Nat.le_add_right 1 l) heq
    omega
  have hlength := (hnodup.subperm hsubset).length_le
  simp only [candidates, List.length_map, List.length_range, NameSet.size] at hlength
  omega

/-- A candidate is an underscore, its base and digits. -/
theorem exists_candidate_eq_append (base : String) (number : ℕ) :
    ∃ digits : String, candidate base number = "_" ++ base ++ digits ∧
      ∀ d ∈ digits.toList, d.isDigit = true := by
  unfold candidate
  split_ifs
  · exact ⟨"", String.append_empty.symm, List.forall_mem_nil _⟩
  · exact ⟨toString number, rfl, fun d hd => Name.isDigit_of_mem_toString hd⟩

/-- A generated name is an underscore, the base of its hint and digits, of which there may be
none. -/
theorem exists_generated_eq_append (taken : NameSet) (hint : String) :
    ∃ digits : String, generated taken hint = "_" ++ Name.generatedBase hint ++ digits ∧
      ∀ d ∈ digits.toList, d.isDigit = true := by
  obtain ⟨k, hfound, -⟩ := exists_firstFree_eq taken (Name.generatedBase hint) taken.size 1
  rw [generated, hfound]
  exact exists_candidate_eq_append (Name.generatedBase hint) (1 + k)

/-- A generated name begins with an underscore. -/
private theorem underscore_generated (taken : NameSet) (hint : String) :
    (generated taken hint).toList.head? = some '_' := by
  obtain ⟨digits, hname, -⟩ := exists_generated_eq_append taken hint
  rw [hname, Name.toList_generated]
  rfl

/-- The names taken at the start of a unit are those that it spells and the three generated ones. -/
theorem mem_ofNames_taken {names : NameSet} {name : String} :
    name ∈ (ofNames names).taken ↔ name ∈ names ∨ name = (ofNames names).library ∨
      name = (ofNames names).assert ∨ name = (ofNames names).extend := by
  simp only [ofNames, NameSet.mem_insert, or_assoc]

/-! ### Scopes that grow -/

/-- What a scope may become when names are generated in it: `names` are the new ones, nothing is
given up, and the library stays. -/
structure Gains (scope : Scope) (names : List String) (next : Scope) : Prop where
  nodup : names.Nodup
  underscore : ∀ name ∈ names, name.toList.head? = some '_'
  free : ∀ name ∈ names, name ∉ scope.taken
  taken : ∀ name ∈ names, name ∈ next.taken
  keeps : ∀ name ∈ scope.taken, name ∈ next.taken
  library : next.library = scope.library

/-- A scope that takes the same names and keeps the library gains nothing. -/
private theorem Gains.of_taken_eq {scope next : Scope} (htaken : next.taken = scope.taken)
    (hlibrary : next.library = scope.library) : scope.Gains [] next where
  nodup := .nil
  underscore := List.forall_mem_nil _
  free := List.forall_mem_nil _
  taken := List.forall_mem_nil _
  keeps _ h := htaken ▸ h
  library := hlibrary

protected theorem Gains.refl (scope : Scope) : scope.Gains [] scope := .of_taken_eq rfl rfl

/-- What is new later is new earlier, and differs from what was new in between. -/
protected theorem Gains.trans {scope mid next : Scope} {names more : List String}
    (h : scope.Gains names mid) (h' : mid.Gains more next) : scope.Gains (names ++ more) next where
  nodup := by
    refine List.nodup_append.mpr ⟨h.nodup, h'.nodup, fun name hname other hother heq => ?_⟩
    exact h'.free other hother (heq ▸ h.taken name hname)
  underscore := List.forall_mem_append.mpr ⟨h.underscore, h'.underscore⟩
  free := List.forall_mem_append.mpr ⟨h.free, fun name hname htaken =>
    h'.free name hname (h.keeps name htaken)⟩
  taken := List.forall_mem_append.mpr ⟨fun name hname => h'.keeps name (h.taken name hname),
    h'.taken⟩
  keeps name hname := h'.keeps name (h.keeps name hname)
  library := h'.library.trans h.library

/-- Declaring a name generates none. -/
theorem gains_declare (scope : Scope) (name : String) :
    scope.Gains [] (scope.declare name).2 where
  nodup := .nil
  underscore := List.forall_mem_nil _
  free := List.forall_mem_nil _
  taken := List.forall_mem_nil _
  keeps _ h := NameSet.mem_insert.mpr (.inl h)
  library := rfl

theorem gains_note (scope : Scope) (value : Expr) : scope.Gains [] (scope.note value) :=
  .of_taken_eq rfl rfl

/-- A fresh name is the one name gained: it was not taken before, and it is taken from then on. -/
theorem gains_fresh (scope : Scope) (hint : String) :
    scope.Gains [(scope.fresh hint).1] (scope.fresh hint).2 where
  nodup := List.nodup_singleton _
  underscore := List.forall_mem_singleton.mpr (underscore_generated scope.taken _)
  free := List.forall_mem_singleton.mpr (generated_not_mem scope.taken _)
  taken := List.forall_mem_singleton.mpr (NameSet.mem_insert.mpr (.inr rfl))
  keeps _ h := NameSet.mem_insert.mpr (.inl h)
  library := rfl

end Reifier.Scope
