import Reifier.Proofs.TypeExpr.Objects

/-!
# Type expressions read back

Brackets, question marks and operators are read at their levels, so every type expression that can
be written is legible (`legible_of_writable`), by induction on how it is made of smaller ones.
-/

namespace Reifier.TypeExpr

open Token (Word)
open Reifier.Parser (Reads)

variable {rest : List Word}

/-! ### Brackets -/

/-- A bracket stands ahead on the same line. -/
private theorem bracketAhead_eq_true {c : Cursor} {ws : List Word}
    (hc : c.Ahead (.sign .bracketOpen :: ws)) :
    (c.hasKind 0 .bracketOpen && !c.lineBreakAhead) = true := by
  rw [hc.hasKind_eq, hc.lineBreakAhead_eq]
  rfl

/-- Empty brackets make what they stand behind the element of an array. -/
private theorem readsBase_array {element : TypeExpr} (helement : Legible element) (span : Span) :
    ReadsBase ⟨.array element, span⟩ (shapeWords (.array element)) rest := by
  rintro vs rest post rfl hloop
  have hstop : Stops 4 (.sign .bracketOpen :: .sign .bracketClose :: vs ++ rest) :=
    .cons (by decide) _
  rw [shapeWords, List.append_assoc]
  refine helement.readsAt (by decide) hstop _ rest post rfl fun start n a hn ha => ?_
  obtain ⟨n, rfl⟩ := Nat.exists_eq_add_one_of_ne_zero (Nat.ne_zero_of_lt hn)
  refine .test_true (fun c hc => bracketAhead_eq_true hc) (.advance_bind fun _ _ _ => ?_)
  refine .eat_true rfl (.look_bind fun span => ?_)
  refine hloop start n ⟨.array a, span⟩ ?_ (same_iff.mpr ?_)
  · simp only [List.cons_append, List.length_cons] at hn
    omega
  · rw [SameShape, unplacedShape, unplacedShape, ha]

/-- Brackets around an index take the index from what they stand behind. -/
private theorem readsBase_indexedAccess {base index : TypeExpr} (hbase : Legible base)
    (hindex : Legible index) (span : Span) :
    ReadsBase ⟨.indexedAccess base index, span⟩ (shapeWords (.indexedAccess base index)) rest := by
  rintro vs rest post rfl hloop
  have hwords : shapeWords (.indexedAccess base index) ++ vs =
      wordsAt 4 base ++ .sign .bracketOpen :: (index.words ++ .sign .bracketClose :: vs) := by
    rw [shapeWords, List.append_assoc, between, List.cons_append, List.append_assoc]
    rfl
  have hstop : Stops 4 (.sign .bracketOpen :: (index.words ++ .sign .bracketClose :: vs) ++ rest) :=
    .cons (by decide) _
  have hclose : ∀ ws, Stops 0 (.sign .bracketClose :: ws) := Stops.cons (by decide)
  rw [hwords]
  -- Once the base has been read the loop has its brackets ahead, and then goes on with `vs`.
  refine hbase.readsAt (by decide) hstop _ rest post rfl fun start n a hn ha => ?_
  obtain ⟨n, rfl⟩ := Nat.exists_eq_add_one_of_ne_zero (Nat.ne_zero_of_lt hn)
  refine .test_true (fun c hc => bracketAhead_eq_true hc) (.advance_bind fun _ _ _ => ?_)
  refine .eat_false ?_ (.bind (hindex.whole (hclose _)) fun i hi => .expect_bind rfl fun _ => ?_)
  · rw [List.append_assoc]
    exact (hindex.opens.mono (Nat.zero_le _)).ne _ (by decide)
  · refine .look_bind fun span => hloop start n ⟨.indexedAccess a i, span⟩ ?_ (same_iff.mpr ?_)
    · simp only [List.cons_append, List.length_cons, List.length_append] at hn ⊢
      omega
    · rw [SameShape, unplacedShape, unplacedShape, ha, hi]

/-! ### Operators -/

/-- A nullable type is read back if what may be null is. -/
private theorem reads_nullable {inner : TypeExpr} (hinner : Legible inner) (hstop : Stops 3 rest)
    (span : Span) :
    ReadsAt ⟨.nullable inner, span⟩ (shapeWords (.nullable inner)) rest 3 := by
  have hoperand : Reads unlimited.operand (wordsAt 3 inner) rest (Same inner) := by
    rw [unlimited_operand]
    exact .nesting (hinner.readsAt (by decide) hstop)
  refine .nextIs_true rfl (.advance_bind fun token _ _ => ?_)
  refine hoperand.bind_look_pure fun a _ ha => same_iff.mpr ?_
  rw [SameShape, unplacedShape, unplacedShape, ha]

/-- Several operands of a level are put together. -/
private theorem reads_members {k : ℕ} (hk : k ≤ 5) {operator : Token.Kind}
    {shape : List TypeExpr → Shape TypeExpr} {part : Parser TypeExpr} {members : List TypeExpr}
    (hlength : 2 ≤ members.length) (hmembers : ∀ x ∈ members, Legible x)
    (hpart : ∀ x ∈ members, ∀ behind, Stops k behind → Reads part (wordsAt k x) behind (Same x))
    (hoperator : operator ∉ barred k ∧ operator ∉ openers k) (hstop : Stops k rest)
    (hrest : ∀ w ∈ rest.head?, w.kind ≠ operator) :
    Reads (joined operator shape part) (Word.separated operator (allWords k members)) rest fun a =>
      ∃ as, a.shape = shape as ∧ unplacedAll as = unplacedAll members := by
  obtain ⟨t, ts, rfl⟩ := List.exists_cons_of_length_pos (by omega : 0 < members.length)
  have ht := opens_wordsAt (hmembers t List.mem_cons_self).opens hk
  rw [allWords_eq_map]
  refine (reads_joined (fun x hx behind hbehind => hpart x hx behind fun w hw => ?_)
    (fun ws => ht.ne ws hoperator.2) hrest).mono ?_
  · rcases hbehind w hw with h | h
    · rw [h]
      exact hoperator.1
    · exact hstop w h
  · rintro a ⟨first, more, hall, hshape⟩
    cases more with
    | nil =>
      have hone := hall.length_eq
      rw [List.length_singleton] at hone
      omega
    | cons second more => exact ⟨first :: second :: more, hshape, unplacedAll_eq_of_forall₂ hall⟩

/-- An intersection of at least two members is read back if these are. -/
private theorem reads_intersection {members : List TypeExpr} (hlength : 2 ≤ members.length)
    (hmembers : ∀ x ∈ members, Legible x) (hstop : Stops 2 rest) (span : Span) :
    ReadsAt ⟨.intersection members, span⟩ (shapeWords (.intersection members)) rest 2 := by
  have hread : Reads (joined .ampersand .intersection (operand unlimited))
      (Word.separated .ampersand (allWords 3 members)) rest fun a =>
        ∃ as, a.shape = .intersection as ∧ unplacedAll as = unplacedAll members :=
    reads_members (by decide) hlength hmembers
      (fun x hx _ => (hmembers x hx).readsAt (by decide)) (by decide) (hstop.mono (by decide))
      (hstop.ne (by decide))
  refine hread.mono ?_
  rintro a ⟨as, hshape, has⟩
  rw [same_iff, SameShape, hshape, unplacedShape, unplacedShape, has]

/-- A union of at least two members is read back if these are. -/
private theorem reads_union {members : List TypeExpr} (hlength : 2 ≤ members.length)
    (hmembers : ∀ x ∈ members, Legible x) (hstop : Stops 1 rest) (span : Span) :
    ReadsAt ⟨.union members, span⟩ (shapeWords (.union members)) rest 1 := by
  have hread : Reads (union unlimited) (Word.separated .pipe (allWords 2 members)) rest fun a =>
      ∃ as, a.shape = .union as ∧ unplacedAll as = unplacedAll members :=
    reads_members (by decide) hlength hmembers
      (fun x hx _ => (hmembers x hx).readsAt (by decide)) (by decide) (hstop.mono (by decide))
      (hstop.ne (by decide))
  refine hread.mono ?_
  rintro a ⟨as, hshape, has⟩
  rw [same_iff, SameShape, hshape, unplacedShape, unplacedShape, has]

/-! ### All forms -/

/-- A primary form is read as such, function types apart. -/
private theorem readsShape_of_writable {shape : Shape TypeExpr} (form : shape.Writable)
    (parts : ∀ p ∈ shape.parts, Legible p) (hlevel : shape.level = 5) (hstop : Stops 5 rest) :
    ReadsShape shape rest := by
  cases shape with
  | keyword word => exact readsShape_keyword word
  | typeOf target => exact readsShape_typeOf hstop
  | tuple items => exact readsShape_tuple parts
  | object type =>
    obtain ⟨hproperties, hindexers⟩ := Shape.forall_parts_object.mp parts
    exact readsShape_object hproperties hindexers
  | generic ref => exact readsShape_reference form.2 parts hstop
  | string value => exact readsShape_string value
  | number spelling => exact readsShape_number form
  | boolean value => exact readsShape_boolean value
  | bigInt spelling => exact readsShape_bigInt spelling
  | _ => cases hlevel

/-- A form is read by the production for its level, if its parts can be read back. -/
private theorem readsAt_shape {shape : Shape TypeExpr} (form : shape.Writable)
    (parts : ∀ p ∈ shape.parts, Legible p) (span : Span) (hstop : Stops shape.level rest) :
    ReadsAt ⟨shape, span⟩ (shapeWords shape) rest shape.ownLevel := by
  cases shape with
  | function params last result =>
    obtain ⟨hparams, hlast, hresult⟩ := Shape.forall_parts_function.mp parts
    exact reads_primary_function form hparams hlast hresult hstop span
  | array element => exact readsBase_array (parts element List.mem_cons_self) span
  | nullable inner => exact reads_nullable (parts inner List.mem_cons_self) hstop span
  | union members => exact reads_union form parts hstop span
  | intersection members => exact reads_intersection form parts hstop span
  | indexedAccess base index =>
    obtain ⟨hbase, hindex⟩ := List.forall_mem_cons.mp parts
    exact readsBase_indexedAccess hbase (List.forall_mem_singleton.mp hindex) span
  | _ =>
    -- What is left are the primary forms, whose own level is the tightest one.
    have hread := readsShape_of_writable form parts rfl hstop
    exact reads_primary (opens_primary form rfl) hread span

/-- **Writable type expressions are read back** as they were written, wherever nothing stands
behind them that they would go on with. -/
theorem legible_of_writable {t : TypeExpr} (h : t.Writable) : Legible t := by
  induction h with
  | @mk shape span form parts ih =>
    exact ⟨opens_words (.mk form parts), fun _ hstop => readsAt_shape form ih span hstop⟩

end Reifier.TypeExpr
