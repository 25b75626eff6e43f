/-!
# Sets of names

Names in the order in which they were first added. Adding a name that is there changes nothing,
so no name stands twice.
-/

namespace Reifier

/-- Distinct names, in the order of their first addition. -/
structure NameSet where
  toList : List String
  nodup : toList.Nodup

namespace NameSet

/-- The set without names. -/
def empty : NameSet := ⟨[], List.nodup_nil⟩

instance : Inhabited NameSet := ⟨empty⟩

/-- Whether a name is in the set. -/
def contains (s : NameSet) (name : String) : Bool := s.toList.contains name

instance : Membership String NameSet := ⟨fun s name => name ∈ s.toList⟩

instance (name : String) (s : NameSet) : Decidable (name ∈ s) :=
  inferInstanceAs (Decidable (name ∈ s.toList))

/-- The number of names. -/
def size (s : NameSet) : Nat := s.toList.length

/-- Whether there is no name. -/
def isEmpty (s : NameSet) : Bool := s.toList.isEmpty

/-- Adds a name at the end, unless it is there, and says whether it has been added. -/
def add (s : NameSet) (name : String) : Bool × NameSet :=
  if h : name ∈ s.toList then (false, s)
  else (true, ⟨s.toList ++ [name], List.nodup_append.2
    ⟨s.nodup, List.nodup_cons.2 ⟨List.not_mem_nil, List.nodup_nil⟩, fun a ha b hb => by
      rw [List.mem_singleton] at hb
      exact fun hab => h (hb ▸ hab ▸ ha)⟩⟩)

/-- Adds a name at the end, unless it is there. -/
def insert (s : NameSet) (name : String) : NameSet := (s.add name).2

/-- The distinct names of a list, in order. -/
def ofList (names : List String) : NameSet := names.foldl insert empty

/-- Membership is membership in the list of names. -/
theorem mem_def {name : String} {s : NameSet} : name ∈ s ↔ name ∈ s.toList := Iff.rfl

/-- The test for membership decides it. -/
@[simp] theorem contains_eq_true {s : NameSet} {name : String} :
    s.contains name = true ↔ name ∈ s := by
  simp [contains, mem_def]

@[simp] theorem not_mem_empty (name : String) : name ∉ empty := by
  simp [mem_def, empty]

/-- Adding a name answers whether it is new. -/
theorem fst_add_eq_true {s : NameSet} {name : String} : (s.add name).1 = true ↔ name ∉ s := by
  unfold add
  split
  · rename_i h
    exact iff_of_false Bool.false_ne_true (not_not_intro h)
  · rename_i h
    exact iff_of_true rfl h

/-- Inserting a name adds it and nothing else. -/
@[simp] theorem mem_insert {s : NameSet} {name other : String} :
    other ∈ s.insert name ↔ other ∈ s ∨ other = name := by
  unfold insert add
  split
  · rename_i h
    exact ⟨Or.inl, fun h' => h'.elim id (· ▸ h)⟩
  · simp [mem_def]

/-- A set made of a list has the names of the list. -/
@[simp] theorem mem_ofList {names : List String} {name : String} :
    name ∈ ofList names ↔ name ∈ names := by
  have hfold : ∀ s : NameSet, name ∈ names.foldl insert s ↔ name ∈ s ∨ name ∈ names := by
    induction names with
    | nil => simp
    | cons first names ih =>
      intro s
      rw [List.foldl_cons, ih, mem_insert, List.mem_cons, or_assoc]
  rw [ofList, hfold, or_iff_right (not_mem_empty name)]

end NameSet

end Reifier
