import Mathlib.Tactic
import Reifier.Expr.Basic

/-!
# Free occurrences of identifiers

An identifier occurs free in an expression if it stands somewhere in it as a reference, and not in
the body of a function whose parameter it is (`Expr.Free`). Names of members, keys of entries and
texts of strings are no references. The test for mentions finds exactly these occurrences
(`mentions_iff_free`).
-/

namespace Reifier.Expr

/-- The identifier `name` occurs free in an expression. -/
inductive Free (name : String) : Expr → Prop
  | ident : Free name (.ident name)
  | member {object : Expr} {property : String} (h : Free name object) :
      Free name (.member object property)
  | callee {callee : Expr} {args : List Expr} (h : Free name callee) : Free name (.call callee args)
  | arg {callee arg : Expr} {args : List Expr} (harg : arg ∈ args) (h : Free name arg) :
      Free name (.call callee args)
  | item {item : Expr} {items : List Expr} (hitem : item ∈ items) (h : Free name item) :
      Free name (.array items)
  | entry {key : String} {value : Expr} {entries : List (String × Expr)}
      (hentry : (key, value) ∈ entries) (h : Free name value) : Free name (.object entries)
  | body {param : Option String} {body : Expr} (hparam : param ≠ some name) (h : Free name body) :
      Free name (.function param body)
  | equalsLeft {left right : Expr} (h : Free name left) : Free name (.strictEq left right)
  | equalsRight {left right : Expr} (h : Free name right) : Free name (.strictEq left right)
  | orLeft {left right : Expr} (h : Free name left) : Free name (.or left right)
  | orRight {left right : Expr} (h : Free name right) : Free name (.or left right)

variable {name : String}

/-! ### Each form of expression -/

@[simp] theorem free_ident_iff {id : String} : Free name (.ident id) ↔ name = id :=
  ⟨fun h => by cases h; rfl, fun h => h ▸ .ident⟩

/-- The name of a property is not free in a member access. -/
@[simp] theorem free_member_iff {object : Expr} {property : String} :
    Free name (.member object property) ↔ Free name object :=
  ⟨fun h => by cases h; assumption, .member⟩

/-- What is free in a call is free in its callee or in an argument. -/
@[simp] theorem free_call_iff {callee : Expr} {args : List Expr} :
    Free name (.call callee args) ↔ Free name callee ∨ ∃ arg ∈ args, Free name arg := by
  refine ⟨fun h => ?_, ?_⟩
  · cases h with
    | callee h => exact .inl h
    | arg harg h => exact .inr ⟨_, harg, h⟩
  · rintro (h | ⟨arg, harg, h⟩)
    · exact .callee h
    · exact .arg harg h

@[simp] theorem free_array_iff {items : List Expr} :
    Free name (.array items) ↔ ∃ item ∈ items, Free name item := by
  refine ⟨fun h => ?_, fun ⟨item, hitem, h⟩ => .item hitem h⟩
  cases h with
  | item hitem h => exact ⟨_, hitem, h⟩

/-- The keys of an object literal are not free in it. -/
@[simp] theorem free_object_iff {entries : List (String × Expr)} :
    Free name (.object entries) ↔ ∃ entry ∈ entries, Free name entry.2 := by
  refine ⟨fun h => ?_, fun ⟨⟨key, value⟩, hentry, h⟩ => .entry hentry h⟩
  cases h with
  | entry hentry h => exact ⟨_, hentry, h⟩

@[simp] theorem not_free_string {value : String} : ¬ Free name (.string value) := nofun

@[simp] theorem not_free_number {spelling : String} : ¬ Free name (.number spelling) := nofun

@[simp] theorem not_free_bool {value : Bool} : ¬ Free name (.bool value) := nofun

/-- A function binds its parameter. -/
@[simp] theorem free_function_iff {param : Option String} {body : Expr} :
    Free name (.function param body) ↔ param ≠ some name ∧ Free name body := by
  refine ⟨fun h => ?_, fun h => .body h.1 h.2⟩
  cases h with
  | body hparam h => exact ⟨hparam, h⟩

@[simp] theorem free_strictEq_iff {left right : Expr} :
    Free name (.strictEq left right) ↔ Free name left ∨ Free name right := by
  refine ⟨fun h => ?_, fun h => h.elim .equalsLeft .equalsRight⟩
  cases h with
  | equalsLeft h => exact .inl h
  | equalsRight h => exact .inr h

/-! ### The test for mentions -/

/-- A list of expressions mentions what one of them does. -/
private theorem anyMentions_of_mem {e : Expr} {es : List Expr} (he : e ∈ es)
    (h : e.mentions name = true) : anyMentions name es = true := by
  induction es with
  | nil => cases he
  | cons d es ih =>
    rw [anyMentions, Bool.or_eq_true]
    rcases List.mem_cons.mp he with rfl | he
    · exact .inl h
    · exact .inr (ih he)

/-- Entries mention what one of their values does. -/
private theorem anyEntryMentions_of_mem {key : String} {value : Expr}
    {entries : List (String × Expr)} (hentry : (key, value) ∈ entries)
    (h : value.mentions name = true) :
    anyEntryMentions name entries = true := by
  induction entries with
  | nil => cases hentry
  | cons first entries ih =>
    rw [anyEntryMentions, Bool.or_eq_true]
    rcases List.mem_cons.mp hentry with rfl | hentry
    · exact .inl h
    · exact .inr (ih hentry)

/-- The test finds every free name; by induction on the occurrence. -/
private theorem Free.mentions {e : Expr} (h : e.Free name) : e.mentions name = true := by
  induction h with
  | ident => exact decide_eq_true rfl
  | member _ ih => exact ih
  | callee _ ih => exact Bool.or_eq_true_iff.mpr (.inl ih)
  | arg harg _ ih => exact Bool.or_eq_true_iff.mpr (.inr (anyMentions_of_mem harg ih))
  | item hitem _ ih => exact anyMentions_of_mem hitem ih
  | entry hentry _ ih => exact anyEntryMentions_of_mem hentry ih
  | body hparam _ ih => exact Bool.and_eq_true_iff.mpr ⟨decide_eq_true hparam, ih⟩
  | equalsLeft _ ih => exact Bool.or_eq_true_iff.mpr (.inl ih)
  | equalsRight _ ih => exact Bool.or_eq_true_iff.mpr (.inr ih)
  | orLeft _ ih => exact Bool.or_eq_true_iff.mpr (.inl ih)
  | orRight _ ih => exact Bool.or_eq_true_iff.mpr (.inr ih)

mutual

/-- What the test finds is free. The recursion is that of the test, together with those on lists of
expressions and of entries. -/
private theorem free_of_mentions : ∀ {e : Expr}, e.mentions name = true → e.Free name
  | .ident id, h => of_decide_eq_true h ▸ .ident
  | .member _ _, h => .member (free_of_mentions h)
  | .call _ _, h => by
    rcases Bool.or_eq_true_iff.mp h with h | h
    · exact .callee (free_of_mentions h)
    · obtain ⟨arg, harg, hfree⟩ := exists_free_of_anyMentions h
      exact .arg harg hfree
  | .array _, h => by
    obtain ⟨item, hitem, hfree⟩ := exists_free_of_anyMentions h
    exact .item hitem hfree
  | .object _, h => by
    obtain ⟨key, value, hentry, hfree⟩ := exists_free_of_anyEntryMentions h
    exact .entry hentry hfree
  | .function _ _, h => by
    obtain ⟨hparam, h⟩ := Bool.and_eq_true_iff.mp h
    exact .body (of_decide_eq_true hparam) (free_of_mentions h)
  | .strictEq _ _, h => by
    rcases Bool.or_eq_true_iff.mp h with h | h
    · exact .equalsLeft (free_of_mentions h)
    · exact .equalsRight (free_of_mentions h)
  | .or _ _, h => by
    rcases Bool.or_eq_true_iff.mp h with h | h
    · exact .orLeft (free_of_mentions h)
    · exact .orRight (free_of_mentions h)

private theorem exists_free_of_anyMentions :
    ∀ {es : List Expr}, anyMentions name es = true → ∃ e ∈ es, e.Free name
  | e :: es, h => by
    rcases Bool.or_eq_true_iff.mp h with h | h
    · exact ⟨e, List.mem_cons_self, free_of_mentions h⟩
    · obtain ⟨d, hd, hfree⟩ := exists_free_of_anyMentions h
      exact ⟨d, List.mem_cons_of_mem e hd, hfree⟩

private theorem exists_free_of_anyEntryMentions : ∀ {entries : List (String × Expr)},
    anyEntryMentions name entries = true → ∃ key value, (key, value) ∈ entries ∧ value.Free name
  | (key, e) :: entries, h => by
    rcases Bool.or_eq_true_iff.mp h with h | h
    · exact ⟨key, e, List.mem_cons_self, free_of_mentions h⟩
    · obtain ⟨other, value, hentry, hfree⟩ := exists_free_of_anyEntryMentions h
      exact ⟨other, value, List.mem_cons_of_mem _ hentry, hfree⟩

end

/-- **The test for mentions finds the free occurrences, and nothing else.** -/
theorem mentions_iff_free {e : Expr} : e.mentions name = true ↔ e.Free name :=
  ⟨free_of_mentions, Free.mentions⟩

end Reifier.Expr
