import Reifier.Proofs.Parser.Excerpt
import Reifier.Proofs.TypeExpr.Agreement

/-!
# Type expressions that are read alone

Each production reads the same where the part of the source that it has read is alone, given that
the parsers for the type expressions inside it do (`repeats_nested`). The lexemes that a production
looks at before it decides are those that it takes afterwards, so what is behind it has no say.
-/

namespace Reifier.TypeExpr

open Reifier.Parser (Repeats)
open Reifier.Excerpt (Sees Passes)

variable {σ : Excerpt} {taken spare : ℕ} {type type' : Parser TypeExpr}

/-! ### Names and arguments -/

private theorem repeats_identifier : Repeats σ taken 1 spare identifier identifier :=
  .test (k := 1) (m := 1) (.hasKind _ Nat.zero_lt_one) (.hasKind 0 (by decide)) (by omega) le_rfl
    (.advance_bind (m := 0) fun t => .pure _) (.reject _ _)

/-- A qualified name is read from a part as it is from the source. -/
theorem repeats_qualifiedName : Repeats σ taken 1 spare qualifiedName qualifiedName := by
  refine .bind (m := 0) repeats_identifier fun head => .bind (m := 0) ?_ fun tail => .pure _
  refine .rounds_of_step rfl fun n n' taken' _ ih => ?_
  refine .test (k := 2) (m := 2) (.and (.hasKind _ (by omega)) (.hasKind _ (by omega)))
    (.and (.hasKind 0 (by decide)) (.hasKind 1 (by decide))) (by omega) (by omega) ?_ (.pure _)
  refine .advance_bind (m := 1) fun _ => .bind (m := 0) repeats_identifier fun first => ?_
  exact .bind (m := 0) (ih _ (by omega)) fun more => .pure _

section

variable (h : ∀ taken spare, Repeats σ taken 1 spare type type')

include h

private theorem repeats_typeArgs : Repeats σ taken 2 spare (typeArgs type) (typeArgs type') :=
  .expect_bind (m := 1) fun _ => .bind (m := 1) (.items _ h) fun args =>
    .expect_bind (m := 0) fun _ => .pure args

private theorem repeats_generic : Repeats σ taken 1 spare (generic type) (generic type') := by
  refine .bind (m := 0) repeats_qualifiedName fun name => ?_
  exact .test (k := 1) (m := 2) (.hasKind _ Nat.zero_lt_one) (.hasKind 0 (by decide)) (by omega)
    (by omega) (.bind (m := 0) (repeats_typeArgs h) fun args => .pure _) (.pure _)

omit h in
private theorem repeats_variance : Repeats σ taken 0 spare variance variance :=
  .test (k := 1) (m := 1) (.or (.hasKind _ Nat.zero_lt_one) (.hasKind _ Nat.zero_lt_one))
    (.or (.hasKind 0 (by decide)) (.hasKind 0 (by decide))) (by omega) (by omega)
    (.advance_bind (m := 0) fun _ => .pure ()) (.pure ())

/-- A type parameter is read from a part as it is from the source. -/
theorem repeats_typeParam : Repeats σ taken 1 spare (typeParam type) (typeParam type') := by
  refine .look_bind (k := 1) (.nextStart Nat.zero_lt_one) (by omega) fun start => ?_
  refine .bind (m := 1) repeats_variance fun _ => .bind (m := 0) repeats_identifier fun name => ?_
  refine .bind (m := 0) (.after? (by decide) fun _ => h _ _) fun bound => ?_
  refine .bind (m := 0) (.after? (by decide) fun _ => h _ _) fun default => ?_
  exact .look_bind (k := 0) (.spanFrom start (by omega)) (by omega) fun span => .pure _

private theorem repeats_typeParams : Repeats σ taken 2 spare (typeParams type) (typeParams type') :=
  .expect_bind (m := 1) fun _ => .bind (m := 1) (.items _ fun _ _ => repeats_typeParam h)
    fun all => .expect_bind (m := 0) fun _ => .pure all

/-! ### Functions -/

omit h in
private theorem sees_namedParam {n k : ℕ} (hk : n + 2 < k) :
    σ.Sees taken k (namedParamAhead · n) :=
  .and (.hasKind _ (by omega))
    (.or (.hasKind _ (by omega)) (.and (.hasKind _ (by omega)) (.hasKind _ (by omega))))

omit h in
private theorem passes_namedParam (n : ℕ) : σ.Passes taken (namedParamAhead · n) :=
  .and (.hasKind n (by decide))
    (.or (.hasKind _ (by decide)) (.and (.hasKind _ (by decide)) (.hasKind _ (by decide))))

/-- A name with its colon is followed by a type expression, so the question mark that may stand
between them is taken, too. -/
private theorem repeats_param : Repeats σ taken 1 spare (param type) (param type') := by
  refine .test (k := 3) (m := 3) (sees_namedParam (by omega)) (passes_namedParam 0)
    (by omega) (by omega) ?_ (.bind (m := 0) (h _ _) fun t => .pure _)
  refine .bind (m := 2) repeats_identifier fun name => ?_
  refine .bind (m := 2) (.eat (by decide)) fun optional => .advance_bind (m := 1) fun _ => ?_
  exact .bind (m := 0) (h _ _) fun t => .pure _

/-- Parameters are read from a part as they are from the source. Whether a name stands before the
type is seen in two lexemes, and so the part must go on for these. -/
private theorem repeats_params : Repeats σ taken 2 spare (params type) (params type') := by
  refine .expect_bind (m := 1) fun _ => .bind (m := 1) ?_ fun all =>
    .expect_bind (m := 0) fun _ => .pure all
  -- The closing parenthesis is in the part.
  refine .rounds_of_step rfl fun n n' taken' _ ih => ?_
  refine .look_bind (k := 1) (.hasKind _ Nat.zero_lt_one) (by omega) fun yes => ?_
  split
  · exact .pure _
  · refine .eat_bind (m := 1) (by decide) (by omega) ?_ (.least_le (m := 1) ?_ (by omega))
    · refine .bind (m := 0) (repeats_param h) fun rest => ?_
      exact .bind (m := 0) (.eat (by decide)) fun _ => .pure _
    · refine .bind (m := 0) (repeats_param h) fun first => ?_
      refine .eat_bind (m := 0) (by decide) (by omega) ?_ (.pure _)
      exact .bind (m := 0) (ih _ (by omega)) fun all => .pure _

private theorem repeats_function (separator : Token.Kind) (spelling : String) :
    Repeats σ taken 4 spare (function type separator spelling)
      (function type' separator spelling) :=
  .bind (m := 2) (repeats_params h) fun _ => .expect_bind (m := 1) fun _ =>
    .bind (m := 0) (h _ _) fun _ => .pure _

/-- A function type is at least as long as what shows that it is one. -/
private theorem repeats_parenthesized :
    Repeats σ taken 1 spare (parenthesized type) (parenthesized type') := by
  refine .look_bind (k := 1) (.nextStart Nat.zero_lt_one) (by omega) fun start => ?_
  refine .test (k := 4) (m := 4)
    (.or (.or (.hasKind _ (by omega)) (.hasKind _ (by omega))) (sees_namedParam (by omega)))
    (.or (.or (.hasKind 1 (by decide)) (.hasKind 1 (by decide))) (passes_namedParam 1))
    (by omega) (by omega) ?_ (.least_le (m := 3) ?_ (by omega))
  · refine .bind (m := 0) (repeats_function h _ _) fun shape => ?_
    exact .look_bind (k := 0) (.spanFrom start (by omega)) (by omega) fun span => .pure _
  · refine .advance_bind (m := 2) fun _ => .bind (m := 1) (h _ _) fun inner => ?_
    refine .expect_bind (m := 0) fun _ => .eat_bind (m := 0) (by decide) (by omega) ?_ ?_
    · refine .least_le (m := 1) (.bind (m := 0) (h _ _) fun result => ?_) (by omega)
      exact .look_bind (k := 0) (.spanFrom start (by omega)) (by omega) fun span => .pure _
    · exact .look_bind (k := 0) (.spanFrom start (by omega)) (by omega) fun span => .pure _

/-! ### Object types -/

omit h in
private theorem repeats_indexerName : Repeats σ taken 0 spare indexerName indexerName := by
  refine .test (k := 2) (m := 2) (.and (.hasKind _ (by omega)) (.hasKind _ (by omega)))
    (.and (.hasKind 0 (by decide)) (.hasKind 1 (by decide))) (by omega) (by omega) ?_ (.pure _)
  exact .bind (m := 1) repeats_identifier fun id => .advance_bind (m := 0) fun _ => .pure _

/-- An indexer is read from a part as it is from the source. -/
private theorem repeats_indexer (start : ℕ) :
    Repeats σ taken 1 spare (indexer type start) (indexer type' start) := by
  refine .advance_bind (m := 0) fun _ => .bind (m := 0) repeats_indexerName fun id => ?_
  refine .least_le (m := 4) (.bind (m := 3) (h _ _) fun key => ?_) (by omega)
  refine .expect_bind (m := 2) fun _ => .expect_bind (m := 1) fun _ => ?_
  refine .bind (m := 0) (h _ _) fun value => ?_
  exact .look_bind (k := 0) (.spanFrom start (by omega)) (by omega) fun span => .pure _

omit h in
private theorem repeats_propertyKey : Repeats σ taken 1 spare propertyKey propertyKey := by
  refine .test (k := 1) (m := 1) (.hasKind _ Nat.zero_lt_one) (.hasKind 0 (by decide)) (by omega)
    le_rfl (.bind (m := 0) repeats_identifier fun id => .pure _) ?_
  exact .test (k := 1) (m := 1) (.hasKind _ Nat.zero_lt_one) (.hasKind 0 (by decide)) (by omega)
    le_rfl (.advance_bind (m := 0) fun token => .pure _) (.reject _ _)

/-- A method is read from a part as it is from the source. -/
theorem repeats_method : Repeats σ taken 1 spare (method type) (method type') := by
  refine .look_bind (k := 1) (.nextStart Nat.zero_lt_one) (by omega) fun start => ?_
  have hrest : ∀ taken, Repeats σ taken 4 spare
      (do
        let shape ← function type .colon ":"
        return (⟨shape, ← Parser.spanFrom start⟩ : TypeExpr))
      (do
        let shape ← function type' .colon ":"
        return (⟨shape, ← Parser.spanFrom start⟩ : TypeExpr)) :=
    fun taken => .bind (m := 0) (repeats_function h _ _) fun shape =>
      .look_bind (k := 0) (.spanFrom start (by omega)) (by omega) fun span => .pure _
  refine .least_le (m := 4) (.test (k := 1) (m := 6) (.hasKind _ Nat.zero_lt_one)
    (.hasKind 0 (by decide)) (by omega) (by omega) ?_ (hrest _)) (by omega)
  exact .bind (m := 4) (repeats_typeParams h) fun _ => hrest _

/-- A property is read from a part as it is from the source. -/
private theorem repeats_property (start : ℕ) :
    Repeats σ taken 1 spare (property type start) (property type' start) := by
  refine .bind (m := 0) repeats_propertyKey fun key => ?_
  refine .test (k := 1) (m := 1) (.or (.hasKind _ Nat.zero_lt_one) (.hasKind _ Nat.zero_lt_one))
    (.or (.hasKind 0 (by decide)) (.hasKind 0 (by decide))) (by omega) (by omega) ?_ ?_
  · refine .bind (m := 0) (repeats_method h) fun value => ?_
    exact .look_bind (k := 0) (.spanFrom start (by omega)) (by omega) fun span => .pure _
  · refine .least_le (m := 2) (.bind (m := 2) (.eat (by decide)) fun optional => ?_) (by omega)
    refine .expect_bind (m := 1) fun _ => .bind (m := 0) (h _ _) fun value => ?_
    exact .look_bind (k := 0) (.spanFrom start (by omega)) (by omega) fun span => .pure _

/-- A member is read from a part as it is from the source. The tests that choose its form are passed
in the source if they are in the part. -/
theorem repeats_member : Repeats σ taken 1 spare (member type) (member type') := by
  refine .look_bind (k := 1) (.nextStart Nat.zero_lt_one) (by omega) fun start => ?_
  refine .bind (m := 1) repeats_variance fun _ => ?_
  refine .test (k := 1) (m := 1) (.hasKind _ Nat.zero_lt_one) (.hasKind 0 (by decide)) (by omega)
    le_rfl (.reject _ _) ?_
  refine .test (k := 1) (m := 1) (.or (.hasKind _ Nat.zero_lt_one) (.hasKind _ Nat.zero_lt_one))
    (.or (.hasKind 0 (by decide)) (.hasKind 0 (by decide))) (by omega) le_rfl (.reject _ _) ?_
  refine .test (k := 1) (m := 1) (.hasKind _ Nat.zero_lt_one) (.hasKind 0 (by decide)) (by omega)
    le_rfl ?_ ?_
  · exact .bind (m := 0) (repeats_indexer h start) fun i => .pure _
  · exact .bind (m := 0) (repeats_property h start) fun p => .pure _

/-- The closing brace is in the part, so no member is left out that stands in the source. -/
private theorem repeats_membersLoop (exact : Bool) (close : Token.Kind) (spelling : String) :
    Repeats σ taken 0 (spare + 1) (Parser.rounds (membersLoop type exact close spelling))
      (Parser.rounds (membersLoop type' exact close spelling)) := by
  refine .rounds_of_step rfl fun n n' taken' _ ih => ?_
  refine .look_bind (k := 1) (.hasKind _ Nat.zero_lt_one) (by omega) fun closed => ?_
  split
  · exact .pure _
  refine .look_bind (k := 1) (.atEnd Nat.zero_lt_one) (by omega) fun ended => ?_
  split
  · exact .reject _ _
  refine .least_le (m := 1) (.bind (m := 0) (repeats_member h) fun add => ?_) (by omega)
  refine .look_bind (k := 1) (.or (.hasKind _ Nat.zero_lt_one) (.hasKind _ Nat.zero_lt_one))
    (by omega) fun separated => ?_
  split
  · refine .least_le (m := 1) (.advance_bind (m := 0) fun _ => ?_) (by omega)
    exact .bind (m := 0) (ih _ (by omega)) fun object => .pure _
  refine .look_bind (k := 1) (.hasKind _ Nat.zero_lt_one) (by omega) fun closed => ?_
  split
  · exact .pure _
  refine .look_bind (k := 1) (.atEnd Nat.zero_lt_one) (by omega) fun ended => ?_
  split <;> exact .reject _ _

/-- An object type is read from a part as it is from the source. -/
theorem repeats_objectType :
    Repeats σ taken 2 spare (objectType type) (objectType type') := by
  have hclosed : ∀ (exact : Bool) (close : Token.Kind) (spelling : String) (start : ℕ),
      Repeats σ (taken + 1) 1 spare
        (do
          let object ← Parser.rounds (membersLoop type exact close spelling)
          let _ ← Parser.advance
          return (object, ← Parser.spanFrom start))
        (do
          let object ← Parser.rounds (membersLoop type' exact close spelling)
          let _ ← Parser.advance
          return (object, ← Parser.spanFrom start)) := by
    intro exact close spelling start
    refine .bind (m := 1) (repeats_membersLoop h exact close spelling) fun object => ?_
    refine .advance_bind (m := 0) fun _ => ?_
    exact .look_bind (k := 0) (.spanFrom start (by omega)) (by omega) fun span => .pure _
  refine .advance_bind (m := 1) fun opening => ?_
  dsimp only
  split <;> exact hclosed _ _ _ _

/-! ### Primary forms -/

/-- A named form is read from a part as it is from the source. -/
private theorem repeats_named : Repeats σ taken 1 spare (named type) (named type') := by
  refine .look_bind (k := 1) (.nextText Nat.zero_lt_one) (by omega) fun word => ?_
  refine .test (k := 2) (m := 2) (.and (.isWord _ (by omega)) (.hasKind _ (by omega)))
    (.and (.isWord 0 _) (.hasKind 1 (by decide))) (by omega) (by omega) ?_ ?_
  · refine .advance_bind (m := 1) fun _ => ?_
    exact .bind (m := 0) repeats_qualifiedName fun target => .pure _
  · split_ifs
    · exact .advance_bind (m := 0) fun _ => .pure _
    · cases Keyword.ofSpelling? word with
      | some keyword => exact .advance_bind (m := 0) fun _ => .pure _
      | none => exact .bind (m := 0) (repeats_generic h) fun g => .pure _

private theorem repeats_tuple : Repeats σ taken 2 spare (tuple type) (tuple type') :=
  .advance_bind (m := 1) fun _ => .bind (m := 1) (.items _ h) fun _ =>
    .expect_bind (m := 0) fun _ => .pure _

/-- **A primary form is read from a part as it is from the source.** The cases follow the tests of
the parser. -/
private theorem repeats_primaryShape :
    Repeats σ taken 1 spare (primaryShape type) (primaryShape type') := by
  refine .look_bind (k := 1) (.nextKind Nat.zero_lt_one) (by omega) fun kind? => ?_
  have htoken : ∀ make : Token → Shape TypeExpr, Repeats σ taken 1 spare
      (do return make (← Parser.advance)) (do return make (← Parser.advance)) := fun make =>
    .advance_bind (m := 0) fun token => .pure _
  have hobject : Repeats σ taken 1 spare
      (do return (.object (← objectType type).1 : Shape TypeExpr))
      (do return (.object (← objectType type').1 : Shape TypeExpr)) :=
    .least_le (m := 2) (.bind (m := 0) (repeats_objectType h) fun object => .pure _) (by omega)
  cases kind? with
  | none => exact .reject _ _
  | some kind =>
    cases kind with
    | identifier => exact repeats_named h
    | string => exact htoken fun token => .string (Text.unquote token.text)
    | number => exact htoken fun token => .number token.text
    | minus =>
      refine .test (k := 2) (m := 2) (.hasKind _ (by omega)) (.hasKind 1 (by decide)) (by omega)
        (by omega) ?_ (.reject _ _)
      exact .advance_bind (m := 1) fun _ => .advance_bind (m := 0) fun token => .pure _
    | bigInt => exact htoken fun token => .bigInt token.text
    | star => exact htoken fun _ => .keyword .existential
    | braceOpen => exact hobject
    | braceBarOpen => exact hobject
    | bracketOpen => exact (repeats_tuple h).least_le (by omega)
    | less =>
      refine .least_le (m := 6) (.bind (m := 4) (repeats_typeParams h) fun _ => ?_) (by omega)
      exact repeats_function h _ _
    | unexpected =>
      exact .look_bind (k := 1) (.nextText Nat.zero_lt_one) (by omega) fun text => .reject _ _
    | _ => exact .reject _ _

/-- A primary form with its span is read from a part as it is from the source. -/
theorem repeats_primary : Repeats σ taken 1 spare (primary type) (primary type') := by
  refine .test (k := 1) (m := 1) (.hasKind _ Nat.zero_lt_one) (.hasKind 0 (by decide)) (by omega)
    le_rfl (repeats_parenthesized h) ?_
  refine .look_bind (k := 1) (.nextStart Nat.zero_lt_one) (by omega) fun start => ?_
  refine .bind (m := 0) (repeats_primaryShape h) fun shape => ?_
  exact .look_bind (k := 0) (.spanFrom start (by omega)) (by omega) fun span => .pure _

/-! ### Operators -/

/-- Behind the form that the brackets follow, a line break in front of them is seen. -/
private theorem repeats_brackets (start : ℕ) (htaken : 0 < taken) (t : TypeExpr) :
    Repeats σ taken 0 spare (Parser.rounds (bracketsLoop type start · t))
      (Parser.rounds (bracketsLoop type' start · t)) := by
  have hloop := @Repeats.loop_of_step _ σ taken spare TypeExpr (bracketsLoop type start)
    (bracketsLoop type' start) (fun _ => rfl) ?_
  · exact .rounds fun n n' taken' hle hsize => hloop n n' taken' hle hsize t
  intro n n' taken' hle ih t
  refine .test (k := 1) (m := 1) (Excerpt.sees_sameLine _ (by omega) Nat.zero_lt_one)
    (Excerpt.passes_sameLine (by decide) (by omega)) (by omega) (by omega) ?_ (.pure t)
  refine .advance_bind (m := 0) fun _ => .eat_bind (m := 0) (by decide) (by omega) ?_ ?_
  · refine .look_bind (k := 0) (.spanFrom start (by omega)) (by omega) fun span => ?_
    exact ih _ (by omega) _
  · refine .least_le (m := 2) (.bind (m := 1) (h _ _) fun index => ?_) (by omega)
    refine .expect_bind (m := 0) fun _ => ?_
    refine .look_bind (k := 0) (.spanFrom start (by omega)) (by omega) fun span => ?_
    exact ih _ (by omega) _

private theorem repeats_bracketed : Repeats σ taken 1 spare (bracketed type) (bracketed type') := by
  refine .look_bind (k := 1) (.nextStart Nat.zero_lt_one) (by omega) fun start => ?_
  exact .bind (m := 0) (repeats_primary h) fun t => repeats_brackets h start (by omega) t

end

variable {inside inside' : Nested}

theorem repeats_operand
    (hwhole : ∀ taken spare, Repeats σ taken 1 spare inside.whole inside'.whole)
    (hoperand : ∀ taken spare, Repeats σ taken 1 spare inside.operand inside'.operand) :
    Repeats σ taken 1 spare (operand inside) (operand inside') := by
  refine .test (k := 1) (m := 2) (.hasKind _ Nat.zero_lt_one) (.hasKind 0 (by decide)) (by omega)
    (by omega) ?_ (repeats_bracketed hwhole)
  refine .advance_bind (m := 1) fun token => .bind (m := 0) (hoperand _ _) fun t => ?_
  exact .look_bind (k := 0) (.spanFrom _ (by omega)) (by omega) fun span => .pure _

/-- A list with an operator is read from a part as it is from the source, unless the operator may
end the part. -/
theorem repeats_joined {part part' : Parser TypeExpr} {operator : Token.Kind}
    (hne : operator ≠ .semicolon) (shape : List TypeExpr → Shape TypeExpr)
    (h : ∀ taken spare, Repeats σ taken 1 spare part part') :
    Repeats σ taken 1 spare (joined operator shape part) (joined operator shape part') := by
  refine .look_bind (k := 1) (.nextStart Nat.zero_lt_one) (by omega) fun start => ?_
  refine .bind (m := 1) (.eat hne) fun _ => .bind (m := 0) (h _ _) fun first => ?_
  refine .bind (m := 0) (.operands hne fun _ => h _ _) fun more => ?_
  split
  · exact .pure _
  · exact .look_bind (k := 0) (.spanFrom start (by omega)) (by omega) fun span => .pure _

theorem repeats_union
    (hwhole : ∀ taken spare, Repeats σ taken 1 spare inside.whole inside'.whole)
    (hoperand : ∀ taken spare, Repeats σ taken 1 spare inside.operand inside'.operand) :
    Repeats σ taken 1 spare (union inside) (union inside') :=
  repeats_joined (by decide) _ fun _ _ => repeats_joined (by decide) _ fun _ _ =>
    repeats_operand hwhole hoperand

/-- **A type expression is read alone as it is read in the source**, without a limit on how deep
type expressions nest. -/
theorem repeats_nested (limit : Option ℕ) (knots : ℕ) (taken spare : ℕ) :
    Repeats σ taken 1 spare (nested limit knots).whole unlimited.whole ∧
      Repeats σ taken 1 spare (nested limit knots).operand unlimited.operand := by
  induction knots generalizing taken spare with
  | zero => exact ⟨⟨nofun, nofun⟩, ⟨nofun, nofun⟩⟩
  | succ knots ih =>
    rw [unlimited_whole, unlimited_operand]
    exact ⟨.nesting (repeats_union (fun _ _ => (ih _ _).1) fun _ _ => (ih _ _).2),
      .nesting (repeats_operand (fun _ _ => (ih _ _).1) fun _ _ => (ih _ _).2)⟩

end Reifier.TypeExpr
