import Mathlib
import Reifier.Proofs.Name
import Reifier.Proofs.Scope

/-!
# Calls on the names of a unit

A host takes names one after another: it has names generated for texts, and it declares names of its
own. Whatever the calls are and in whatever order they come, the names of the unit, the three names
generated at the start and the names of the calls are the names taken (`Takes`), and the next
generated name is the first of its candidates that is none of them (`fresh_after_calls`).
-/

namespace Reifier.Scope

/-! ### Calls -/

/-- A call that takes a name. -/
inductive Call
  | fresh (hint : String)
  | declare (name : String)

/-- The name that a call takes, and the scope after it. -/
def Call.result (scope : Scope) : Call → String × Scope
  | .fresh hint => scope.fresh hint
  | .declare name => (name, (scope.declare name).2)

/-- The names that calls take one after another, and the scope after them. -/
def calls (scope : Scope) : List Call → List String × Scope
  | [] => ([], scope)
  | call :: more =>
    let (name, next) := call.result scope
    let (names, last) := next.calls more
    (name :: names, last)

/-- What a scope becomes when names are taken in it: they are taken besides those that were taken
before, and the names generated at the start stay. -/
structure Takes (scope : Scope) (names : List String) (next : Scope) : Prop where
  mem_taken : ∀ name, name ∈ next.taken ↔ name ∈ scope.taken ∨ name ∈ names
  library : next.library = scope.library
  assert : next.assert = scope.assert
  extend : next.extend = scope.extend

/-- The names taken by two runs one after the other, in their order. -/
protected theorem Takes.trans {scope mid next : Scope} {names more : List String}
    (h : scope.Takes names mid) (h' : mid.Takes more next) : scope.Takes (names ++ more) next where
  mem_taken name := by rw [h'.mem_taken, h.mem_taken, List.mem_append, or_assoc]
  library := h'.library.trans h.library
  assert := h'.assert.trans h.assert
  extend := h'.extend.trans h.extend

/-- One call takes its result. -/
private theorem takes_result (scope : Scope) (call : Call) :
    scope.Takes [(call.result scope).1] (call.result scope).2 := by
  have hinsert : ∀ name other : String,
      other ∈ scope.taken.insert name ↔ other ∈ scope.taken ∨ other ∈ [name] :=
    fun name other => by rw [NameSet.mem_insert, List.mem_singleton]
  cases call with
  | fresh hint => exact ⟨hinsert _, rfl, rfl, rfl⟩
  | declare name => exact ⟨hinsert name, rfl, rfl, rfl⟩

/-- A sequence of calls takes the names that it gives back; by induction on the sequence. -/
private theorem takes_calls (scope : Scope) (cs : List Call) :
    scope.Takes (scope.calls cs).1 (scope.calls cs).2 := by
  induction cs generalizing scope with
  | nil => exact ⟨fun name => by simp [calls], rfl, rfl, rfl⟩
  | cons call more ih => exact (takes_result scope call).trans (ih _)

/-! ### The next generated name -/

/-- A name generated for a text when some names are taken: an ASCII identifier that begins with an
underscore, and the first of its candidates that is not taken. -/
structure IsFirstFree (taken : List String) (hint name : String) : Prop where
  isIdentifier : Name.isIdentifier name = true
  ascii : ∀ c ∈ name.toList, c.toNat < 128
  underscore : name.toList.head? = some '_'
  not_mem : name ∉ taken
  first : ∃ number ≥ 1, name = candidate (Name.generatedBase hint) number ∧
    ∀ k ≥ 1, k < number → candidate (Name.generatedBase hint) k ∈ taken

/-- A candidate is an underscore with parts of names behind it. -/
private theorem exists_candidate_eq (hint : String) (number : ℕ) :
    ∃ cs, (candidate (Name.generatedBase hint) number).toList = '_' :: cs ∧
      ∀ c ∈ cs, Name.isPart c = true := by
  obtain ⟨digits, hname, hdigits⟩ := exists_candidate_eq_append (Name.generatedBase hint) number
  rw [hname]
  exact Name.exists_generated_eq hint fun d hd => Name.isPart_of_isDigit (hdigits d hd)

/-- The name that is generated is the first candidate that is free. -/
theorem isFirstFree_generated {taken : NameSet} {names : List String}
    (hnames : ∀ name, name ∈ taken ↔ name ∈ names) (hint : String) :
    IsFirstFree names hint (generated taken hint) := by
  obtain ⟨k, hfound, htried⟩ :=
    exists_firstFree_eq taken (Name.generatedBase hint) taken.size 1
  have hname : generated taken hint = candidate (Name.generatedBase hint) (1 + k) := hfound
  obtain ⟨cs, hchars, hparts⟩ := exists_candidate_eq hint (1 + k)
  rw [← hname] at hchars
  refine ⟨?_, ?_, ?_, ?_, 1 + k, Nat.le_add_right 1 k, hname, fun j hj hlt => ?_⟩
  · rw [Name.isIdentifier, hchars, Name.isIdentifierChars, Bool.and_eq_true, List.all_eq_true]
    exact ⟨by decide, hparts⟩
  · rw [hchars]
    exact List.forall_mem_cons.mpr ⟨by decide, fun c hc => Name.toNat_lt_of_isPart (hparts c hc)⟩
  · rw [hchars, List.head?_cons]
  · rw [← hnames]
    exact generated_not_mem taken hint
  · have htaken := htried (j - 1) (by omega)
    rw [Nat.add_sub_cancel' hj] at htaken
    exact (hnames _).mp htaken

/-- The names generated at the start, each of them for its text and apart from those before it. -/
theorem isFirstFree_ofNames (names : List String) :
    let start := ofNames (.ofList names)
    IsFirstFree names "t" start.library ∧
    IsFirstFree (names ++ [start.library]) "assert" start.assert ∧
    IsFirstFree (names ++ [start.library, start.assert]) "extend" start.extend := by
  intro start
  have hnames : ∀ name, name ∈ NameSet.ofList names ↔ name ∈ names :=
    fun name => NameSet.mem_ofList
  have hlibrary : ∀ name, name ∈ (NameSet.ofList names).insert start.library ↔
      name ∈ names ++ [start.library] := fun name => by
    rw [NameSet.mem_insert, hnames, List.mem_append, List.mem_singleton]
  have hassert : ∀ name, name ∈ ((NameSet.ofList names).insert start.library).insert start.assert ↔
      name ∈ names ++ [start.library, start.assert] := fun name => by
    simp only [NameSet.mem_insert, hnames, List.mem_append, List.mem_cons, List.not_mem_nil,
      or_false, or_assoc]
  exact ⟨isFirstFree_generated hnames "t", isFirstFree_generated hlibrary "assert",
    isFirstFree_generated hassert "extend"⟩

/-- **Generated names are fresh, whatever was called before.** The names generated at the start
differ and stay; a name that is taken stays taken; declaring a name tells whether it was free; and
the name generated for a text is the first of its candidates that is neither a name of the unit nor
generated at the start nor taken by an earlier call. -/
theorem fresh_after_calls (names : List String) (cs : List Call) :
    let start := ofNames (.ofList names)
    let scope := (start.calls cs).2
    let initial := names ++ [start.library, start.assert, start.extend]
    let earlier := initial ++ (start.calls cs).1
    (scope.library = start.library ∧ scope.assert = start.assert ∧ scope.extend = start.extend) ∧
    [start.library, start.assert, start.extend].Nodup ∧
    IsFirstFree names "t" start.library ∧
    IsFirstFree (names ++ [start.library]) "assert" start.assert ∧
    IsFirstFree (names ++ [start.library, start.assert]) "extend" start.extend ∧
    (∀ name, scope.isTaken name = true ↔ name ∈ earlier) ∧
    (∀ name more, scope.isTaken name = true → (scope.calls more).2.isTaken name = true) ∧
    (∀ name, (scope.declare name).1 = true ↔ ¬ scope.isTaken name = true) ∧
    ∀ hint, IsFirstFree earlier hint (scope.fresh hint).1 := by
  intro start scope initial earlier
  have htakes : start.Takes (start.calls cs).1 scope := takes_calls start cs
  have hmem : ∀ name, name ∈ scope.taken ↔ name ∈ earlier := fun name => by
    rw [htakes.mem_taken, mem_ofNames_taken, NameSet.mem_ofList]
    simp only [earlier, initial, start, List.mem_append, List.mem_cons, List.not_mem_nil, or_false]
  have htaken : ∀ (s : Scope) (name : String), s.isTaken name = true ↔ name ∈ s.taken :=
    fun s name => NameSet.contains_eq_true
  obtain ⟨hlibrary, hassert, hextend⟩ := isFirstFree_ofNames names
  -- Each of the three names is the first free one behind those before it.
  have hdiffer : [start.library, start.assert, start.extend].Nodup := by
    have hfirst : start.assert ∉ [start.library] := fun h =>
      hassert.not_mem (List.mem_append_right names h)
    have hboth : start.extend ∉ [start.library, start.assert] := fun h =>
      hextend.not_mem (List.mem_append_right names h)
    simp only [List.mem_cons, List.not_mem_nil, or_false, not_or] at hfirst hboth
    simp only [List.nodup_cons, List.mem_cons, List.not_mem_nil, or_false, not_or, not_false_iff,
      List.nodup_nil, and_true]
    exact ⟨⟨Ne.symm hfirst, Ne.symm hboth.1⟩, Ne.symm hboth.2⟩
  refine ⟨⟨htakes.library, htakes.assert, htakes.extend⟩, hdiffer, hlibrary, hassert, hextend,
    fun name => ?_, fun name more h => ?_, fun name => ?_, isFirstFree_generated hmem⟩
  · rw [htaken, hmem]
  · rw [htaken, (takes_calls scope more).mem_taken]
    exact .inl ((htaken scope name).mp h)
  · rw [htaken]
    exact NameSet.fst_add_eq_true

example : ((ofNames .empty).calls
    [.fresh "tcomb-react", .fresh "tcomb-react", .declare "_t2", .fresh "_t"]).1 =
      ["_tcombReact", "_tcombReact2", "_t2", "_t3"] := by
  rfl

end Reifier.Scope
