import Reifier.Proofs.Parser.Simulation
import Reifier.TypeExpr.Parser

/-!
# Type expressions in a text and in a longer one

Each production reads in the longer text what it reads in the text, further on, when the parsers for
the type expressions inside it do. All of them leave as many brackets open as there were, so a type
expression that begins inside of brackets ends inside of them (`follows_nested`).
-/

namespace Reifier.TypeExpr

open Reifier.Parser (Simulates Follows)
open Reifier.Placement (Sees)

variable {σ : Placement} {depth : ℕ} {type type' : Parser TypeExpr}

/-! ### Names and arguments -/

/-- An identifier, behind which something is known to stand ahead. -/
private theorem simulates_identifier {pre ahead : Cursor → Prop}
    (hpre : ∀ c, pre c → σ.Within depth c)
    (hahead : ∀ c l ls, pre c → c.rest = l :: ls → ahead (c.took l ls)) :
    Simulates σ pre identifier identifier fun a b next =>
      b = a.moved σ.offset ∧ σ.Within depth next ∧ ahead next := by
  refine .test (fun c d hcd hc => (Sees.hasKind 0 .identifier).within c d hcd (hpre c hc)) ?_
    (.reject hpre _ _)
  refine .advance_bind (fun _ c => σ.Within depth c ∧ ahead c)
    (fun c hc => (hpre c hc.1).visible) ?_ fun t => .pure fun c hc => ⟨rfl, hc⟩
  rintro c l ls ⟨hc, hkind⟩ hrest
  exact ⟨(hpre c hc).took_of_ne hkind (by decide) hrest, hahead c l ls hc hrest⟩

theorem follows_identifier : Follows σ depth identifier identifier (Identifier.moved σ.offset) :=
  .test (Sees.hasKind 0 .identifier).within
    (.take_bind (fun _ h => h) (by decide) fun _ _ => .done rfl) (.reject (fun _ hc => hc) _ _)

/-- A qualified name is read in place as it is from its own text, moved. -/
private theorem follows_qualifiedName :
    Follows σ depth qualifiedName qualifiedName (QualifiedName.moved σ.offset) := by
  have hsegments : Follows σ depth (Parser.rounds segmentsLoop) (Parser.rounds segmentsLoop)
      (List.map (Identifier.moved σ.offset)) := by
    refine .rounds_of_step rfl fun n n' ih => ?_
    have hview : σ.Sees 0 fun c => c.hasKind 0 .dot && c.hasKind 1 .identifier :=
      .guard_hasKind (.hasKind 1 .identifier) (by decide)
    refine .test hview.within ?_ (.done rfl)
    refine .take_bind (fun _ hc => (Bool.and_eq_true_iff.mp hc).1) (by decide) fun _ _ => ?_
    exact follows_identifier.bind fun _ => Follows.bind ih fun _ => .done rfl
  exact follows_identifier.bind fun _ => hsegments.bind fun _ => .done rfl

section

variable (h : ∀ depth, Follows σ depth type type' (moved σ.offset))
include h

private theorem follows_typeArgs :
    Follows σ depth (typeArgs type) (typeArgs type') (List.map (moved σ.offset)) :=
  .expect_bind (by decide) fun _ _ => (h _).items.bind fun _ =>
    .expect_bind (by decide) fun _ _ => .done rfl

theorem follows_generic :
    Follows σ depth (generic type) (generic type') (movedGeneric σ.offset) := by
  refine follows_qualifiedName.bind fun _ => .choose (.hasKind 0 .less) ?_ (.done rfl)
  exact (follows_typeArgs h).bind fun _ => .done rfl

omit h in
private theorem follows_variance : Follows σ depth variance variance id := by
  refine .test (Sees.or (.hasKind 0 .plus) (.hasKind 0 .minus)).within ?_ (.done rfl)
  refine .either ?_ ?_
  · exact .take_bind (fun _ h => h) (by decide) fun _ _ => .done rfl
  · exact .take_bind (fun _ h => h) (by decide) fun _ _ => .done rfl

private theorem follows_typeParam :
    Follows σ depth (typeParam type) (typeParam type') (TypeParam.moved σ.offset) := by
  refine .nextStart_bind (fun _ hc => hc.visible) fun start => ?_
  refine follows_variance.bind fun _ => follows_identifier.bind fun _ => ?_
  refine ((h depth).after? (by decide) rfl).bind fun _ => ?_
  refine ((h depth).after? (by decide) rfl).bind fun _ => ?_
  exact .spanFrom_bind fun _ => .done rfl

theorem follows_typeParams :
    Follows σ depth (typeParams type) (typeParams type') (List.map (TypeParam.moved σ.offset)) :=
  .expect_bind (by decide) fun _ _ => (follows_typeParam h).items.bind fun _ =>
    .expect_bind (by decide) fun _ _ => .done rfl

/-! ### Functions -/

omit h in
private theorem sees_namedParamAhead (n : ℕ) : σ.Sees n (namedParamAhead · n) :=
  .guard_hasKind (.or (.hasKind (n + 1) .colon)
    (.guard_hasKind (.hasKind (n + 2) .colon) (by decide))) (by decide)

/-- Whether a colon stands ahead, possibly behind a question mark. -/
def ColonAhead (c : Cursor) : Prop :=
  c.hasKind 0 .colon = true ∨ c.hasKind 0 .question = true ∧ c.hasKind 1 .colon = true

omit h in
/-- Between a parameter's name and its colon stands at most a question mark. -/
private theorem simulates_eat_question :
    Simulates σ (fun c => σ.Within depth c ∧ ColonAhead c)
      (Parser.eat .question) (Parser.eat .question)
      fun a b next => b = id a ∧ σ.Within depth next ∧ next.hasKind 0 .colon = true := by
  refine .test_iff (fun c d hcd hc => (Sees.hasKind 0 .question).within c d hcd hc.1) ?_ ?_
  · refine .advance_bind (fun _ c => σ.Within depth c ∧ c.hasKind 0 .colon = true)
      (fun c hc => hc.1.1.visible) ?_ fun _ => .pure fun c hc => ⟨rfl, hc⟩
    rintro c l ls ⟨⟨hc, hahead⟩, hquestion⟩ hrest
    have hcolon : c.hasKind 1 .colon = true := by
      rcases hahead with hcolon | hahead
      · exact absurd (Cursor.hasKind_inj hcolon hquestion) (by decide)
      · exact hahead.2
    exact ⟨hc.took_of_ne hquestion (by decide) hrest, by rwa [Cursor.hasKind_took hrest]⟩
  · refine .pure fun c hc => ⟨rfl, hc.1.1, hc.1.2.resolve_right fun hquestion => ?_⟩
    rw [hquestion.1] at hc
    exact Bool.noConfusion hc.2

/-- A parameter is read in place as it is from its own text. If it has a name, then a colon stands
behind this one, and so the text does not end there. -/
private theorem follows_param :
    Follows σ depth (param type) (param type') (movedParam σ.offset) := by
  refine .test (sees_namedParamAhead 0).within ?_ ((h depth).bind fun _ => .done rfl)
  have hname : Simulates σ (fun c => σ.Within depth c ∧ namedParamAhead c 0 = true)
      identifier identifier
      fun a b next => b = a.moved σ.offset ∧ σ.Within depth next ∧ ColonAhead next := by
    refine simulates_identifier (fun _ hc => hc.1) ?_
    rintro c l ls ⟨-, hnamed⟩ hrest
    rw [namedParamAhead, Bool.and_eq_true, Bool.or_eq_true, Bool.and_eq_true] at hnamed
    simp only [ColonAhead, Cursor.hasKind_took hrest]
    exact hnamed.2
  refine hname.bind_moved fun _ => simulates_eat_question.bind_moved fun _ => ?_
  exact .take_bind (fun _ hcolon => hcolon) (by decide) fun _ _ =>
    (h depth).bind fun _ => .done rfl

/-- Parameters are read in place as they are from their own text. The induction is on the rounds of
the loop. -/
private theorem follows_params :
    Follows σ depth (params type) (params type')
      (Prod.map (List.map (movedParam σ.offset)) (Option.map (movedParam σ.offset))) := by
  refine .expect_bind (by decide) fun _ _ => ?_
  have hloop : ∀ depth, Follows σ depth (Parser.rounds (paramsLoop type))
      (Parser.rounds (paramsLoop type'))
      (Prod.map (List.map (movedParam σ.offset)) (Option.map (movedParam σ.offset))) := by
    refine fun depth => .rounds_of_step rfl fun n n' ih => ?_
    refine .choose (.hasKind 0 .parenClose) (.done rfl) ?_
    refine .eat_bind (by decide) ?_ ?_
    · exact (follows_param h).bind fun _ => (Follows.eat (by decide) rfl).bind fun _ => .done rfl
    · refine (follows_param h).bind fun _ => .eat_bind (by decide) ?_ (.done rfl)
      exact Follows.bind ih fun _ => .done rfl
  exact (hloop _).bind fun _ => .expect_bind (by decide) fun _ _ => .done rfl

private theorem follows_function {separator : Token.Kind} (hne : separator ≠ .semicolon)
    (hdepth : separator.depthAfter depth = depth) (spelling : String) :
    Follows σ depth (function type separator spelling) (function type' separator spelling)
      (movedShape σ.offset) := by
  refine (follows_params h).bind fun _ => .expect_bind hne fun _ _ => ?_
  rw [hdepth]
  refine (h depth).bind fun _ => .done ?_
  rw [movedShape, movedParams_eq_map, movedRest_eq_map]

omit h in
private theorem sees_paramsAhead : σ.Sees 1 paramsAhead :=
  .or (.or (.hasKind 1 .parenClose) (.hasKind 1 .ellipsis)) (sees_namedParamAhead 1)

/-- What stands in parentheses is read in place as it is from its own text. Up to the closing one a
bracket more is open, and so the text cannot end there. -/
private theorem simulates_parenthesized :
    Simulates σ (fun c => σ.Within depth c ∧ c.hasKind 0 .parenOpen = true)
      (parenthesized type) (parenthesized type')
      fun a b next => b = a.moved σ.offset ∧ σ.Within depth next := by
  refine .nextStart_bind (fun _ hc => hc.1.visible) fun start => ?_
  refine .test (fun c d hcd hc => sees_paramsAhead c d hcd hc.1.zero
    (hc.1.visible_succ hc.2 (by decide))) ?_ ?_
  · refine ((follows_function h (by decide) rfl _).bind fun _ => ?_).anti fun c hc => hc.1.1
    exact .spanFrom_bind fun _ => .done rfl
  · refine .take_bind (fun _ h => h) (by decide) fun _ _ => (h _).bind fun inner => ?_
    refine .expect_bind (by decide) fun _ _ => .eat_bind (by decide) ?_ ?_
    · exact (h _).bind fun _ => .spanFrom_bind fun _ => .done rfl
    · refine .spanFrom_bind fun _ => .done ?_
      cases inner
      rfl

/-! ### Object types -/

omit h in
/-- The name of an indexer is read in place as it is from its own text, and so is its absence. -/
private theorem follows_indexerName :
    Follows σ depth indexerName indexerName (Option.map (Identifier.moved σ.offset)) := by
  have hview : σ.Sees 0 fun c => c.hasKind 0 .identifier && c.hasKind 1 .colon :=
    .guard_hasKind (.hasKind 1 .colon) (by decide)
  refine .test hview.within ?_ (.done rfl)
  have hname : Simulates σ
      (fun c => σ.Within depth c ∧ (c.hasKind 0 .identifier && c.hasKind 1 .colon) = true)
      identifier identifier
      fun a b next =>
        b = a.moved σ.offset ∧ σ.Within depth next ∧ next.hasKind 0 .colon = true := by
    refine simulates_identifier (fun _ hc => hc.1) ?_
    rintro c l ls ⟨-, hahead⟩ hrest
    rw [Cursor.hasKind_took hrest]
    exact (Bool.and_eq_true_iff.mp hahead).2
  exact hname.bind_moved fun _ => .take_bind (fun _ hcolon => hcolon) (by decide) fun _ _ =>
    .done rfl

private theorem simulates_indexer (start : ℕ) :
    Simulates σ (fun c => σ.Within depth c ∧ c.hasKind 0 .bracketOpen = true)
      (indexer type start) (indexer type' (start + σ.offset))
      fun a b next => b = movedIndexer σ.offset a ∧ σ.Within depth next := by
  refine .take_bind (fun _ h => h) (by decide) fun _ _ => follows_indexerName.bind fun _ => ?_
  refine (h _).bind fun _ => .expect_bind (by decide) fun _ _ => ?_
  refine .expect_bind (by decide) fun _ _ => (h _).bind fun _ => ?_
  exact .spanFrom_bind fun _ => .done rfl

omit h in
private theorem follows_propertyKey :
    Follows σ depth propertyKey propertyKey (PropertyKey.moved σ.offset) := by
  refine .choose (.hasKind 0 .identifier) (follows_identifier.bind fun _ => .done rfl) ?_
  refine .test (Sees.hasKind 0 .string).within ?_ (.reject (fun _ hc => hc) _ _)
  exact .take_bind (fun _ h => h) (by decide) fun _ _ => .done rfl

/-- A method is read in place as it is from its own text. -/
private theorem follows_method :
    Follows σ depth (method type) (method type') (moved σ.offset) := by
  refine .nextStart_bind (fun _ hc => hc.visible) fun start => ?_
  have hparams : Simulates σ (fun c => σ.Within depth c ∧ c.hasKind 0 .less = true)
      (typeParams type) (typeParams type') fun _ _ => σ.Within depth :=
    ((follows_typeParams h).anti fun _ hc => hc.1).mono fun _ _ _ hab => hab.2
  refine .sometimes (.hasKind 0 .less) hparams ?_
  refine (follows_function h (by decide) rfl _).bind fun _ => ?_
  exact .spanFrom_bind fun _ => .done rfl

private theorem follows_property (start : ℕ) :
    Follows σ depth (property type start) (property type' (start + σ.offset))
      (movedProperty σ.offset) := by
  refine follows_propertyKey.bind fun _ => ?_
  refine .choose (.or (.hasKind 0 .parenOpen) (.hasKind 0 .less)) ?_ ?_
  · exact (follows_method h).bind fun _ => .spanFrom_bind fun _ => .done rfl
  · refine (Follows.eat (by decide) rfl).bind fun _ => .expect_bind (by decide) fun _ _ => ?_
    exact (h _).bind fun _ => .spanFrom_bind fun _ => .done rfl

/-- A member is put in front of further ones that are moved as well. -/
private theorem simulates_member :
    Simulates σ (σ.Within depth) (member type) (member type') fun add add' next =>
      (∀ object, add' (movedObject σ.offset object) = movedObject σ.offset (add object)) ∧
        σ.Within depth next := by
  refine .nextStart_bind (fun _ hc => hc.visible) fun start => follows_variance.bind fun _ => ?_
  refine .choose (.hasKind 0 .ellipsis) (.reject (fun _ hc => hc) _ _) ?_
  refine .choose (.or (.hasKind 0 .parenOpen) (.hasKind 0 .less))
    (.reject (fun _ hc => hc) _ _) ?_
  refine .test (Sees.hasKind 0 .bracketOpen).within ?_ ?_
  · exact (simulates_indexer h start).bind_moved fun _ => .pure fun c hc => ⟨fun _ => rfl, hc⟩
  · exact (follows_property h start).bind fun _ => .pure fun c hc => ⟨fun _ => rfl, hc⟩

/-- Inside its braces an object type is read up to the closing one, also past semicolons. -/
private theorem simulates_membersLoop (hpos : 0 < depth) (exact : Bool) (close : Token.Kind)
    (spelling : String) :
    Simulates σ (σ.Within depth) (Parser.rounds (membersLoop type exact close spelling))
      (Parser.rounds (membersLoop type' exact close spelling)) fun a b next =>
        b = movedObject σ.offset a ∧ σ.Within depth next ∧ next.hasKind 0 close = true := by
  refine .rounds_of_step rfl fun n n' ih => ?_
  refine .test (Sees.hasKind 0 close).within (.pure fun c hc => ⟨rfl, hc⟩) ?_
  refine .choose .atEnd (.reject (fun _ hc => hc) _ _) ?_
  refine (simulates_member h).bind fun add add' => ?_
  rintro c d hcd ⟨hadd, hc⟩
  have hlast : add' ⟨[], [], exact⟩ = movedObject σ.offset (add ⟨[], [], exact⟩) :=
    hadd ⟨[], [], exact⟩
  -- What is added to is read by the rounds that remain.
  have hmore : ∀ c d, σ.Places c d → σ.Within depth c → Outcome.Simulated σ
      (fun a b next => b = movedObject σ.offset a ∧ σ.Within depth next ∧
        next.hasKind 0 close = true)
      ((do return add (← membersLoop type exact close spelling n)) c)
      ((do return add' (← membersLoop type' exact close spelling n')) d) := by
    exact Simulates.bind_moved ih fun object => .pure fun c hc => ⟨hadd object, hc⟩
  refine Simulates.test (Sees.or (.hasKind 0 .comma) (.hasKind 0 .semicolon)).within ?_ ?_
    c d hcd hc
  · refine .either ?_ ?_
    · exact .take_bind (fun _ h => h) (by decide) fun _ _ => hmore
    · exact .take_semicolon_bind fun _ => Simulates.anti hmore fun c hc => hc.within hpos
  · refine .test (Sees.hasKind 0 close).within (.pure fun c hc => ⟨hlast, hc⟩) ?_
    exact .choose .atEnd (.reject (fun _ hc => hc) _ _) (.reject (fun _ hc => hc) _ _)

/-- An object type is read in place as it is from its own text. The cases are its two kinds of
braces. -/
theorem simulates_objectType :
    Simulates σ (fun c => σ.Within depth c ∧
        (c.hasKind 0 .braceOpen || c.hasKind 0 .braceBarOpen) = true)
      (objectType type) (objectType type') fun a b next =>
        b = (movedObject σ.offset a.1, a.2.moved σ.offset) ∧ σ.Within depth next := by
  -- The closing brace stands ahead when the members have been read.
  have hclosed : ∀ (exact : Bool) (close : Token.Kind) (spelling : String) (start : ℕ),
      close ≠ .semicolon → close.depthAfter (depth + 1) = depth →
      Simulates σ (σ.Within (depth + 1))
        (do
          let object ← Parser.rounds (membersLoop type exact close spelling)
          let _ ← Parser.advance
          return (object, ← Parser.spanFrom start))
        (do
          let object ← Parser.rounds (membersLoop type' exact close spelling)
          let _ ← Parser.advance
          return (object, ← Parser.spanFrom (start + σ.offset)))
        fun a b next =>
          b = (movedObject σ.offset a.1, a.2.moved σ.offset) ∧ σ.Within depth next := by
    intro exact close spelling start hne hdepth
    refine (simulates_membersLoop h (Nat.succ_pos depth) exact close spelling).bind_moved
      fun object => .take_bind (fun _ h => h) hne fun _ _ => ?_
    rw [hdepth]
    exact .spanFrom_bind fun _ => .done rfl
  refine .either ?_ ?_
  · refine .take_bind (fun _ h => h) (by decide) fun opening hkind => ?_
    have hkind' : (opening.moved σ.offset).kind = .braceOpen := hkind
    simp only [hkind, hkind', reduceCtorEq, if_false]
    exact hclosed _ _ _ _ (by decide) rfl
  · refine .take_bind (fun _ h => h) (by decide) fun opening hkind => ?_
    have hkind' : (opening.moved σ.offset).kind = .braceBarOpen := hkind
    simp only [hkind, hkind', if_true]
    exact hclosed _ _ _ _ (by decide) rfl

/-! ### Primary forms -/

/-- A named form is read in place as it is from its own text. The cases are the names with a meaning
of their own and all others. -/
private theorem simulates_named :
    Simulates σ (fun c => σ.Within depth c ∧ c.hasKind 0 .identifier = true)
      (named type) (named type') fun a b next =>
        b = movedShape σ.offset a ∧ σ.Within depth next := by
  have hword : ∀ shape : Shape TypeExpr, movedShape σ.offset shape = shape →
      Simulates σ (fun c => σ.Within depth c ∧ c.hasKind 0 .identifier = true)
        (do let _ ← Parser.advance; return shape) (do let _ ← Parser.advance; return shape)
        fun a b next => b = movedShape σ.offset a ∧ σ.Within depth next := fun _ hshape =>
    .take_bind (fun _ h => h) (by decide) fun _ _ => .done hshape.symm
  have hview : σ.Sees 0 fun c => c.isWord 0 "typeof" && c.hasKind 1 .identifier :=
    .guard_isWord (.hasKind 1 .identifier)
  refine .nextText_bind (fun _ hc => hc.1.visible) fun word => ?_
  refine .test (fun c d hcd hc => hview.within c d hcd hc.1) ?_ ?_
  · -- What stands behind the word is a name, which has been looked at.
    have htarget : Simulates σ (fun c => σ.Within depth c ∧ c.hasKind 0 .identifier = true)
        (do let _ ← Parser.advance; return .typeOf (← qualifiedName))
        (do let _ ← Parser.advance; return .typeOf (← qualifiedName))
        fun a b next => b = movedShape σ.offset a ∧ σ.Within depth next :=
      .take_bind (fun _ h => h) (by decide) fun _ _ =>
        follows_qualifiedName.bind fun _ => .done rfl
    exact htarget.anti fun c hc => hc.1
  · have hgeneric : Follows σ depth (do return .generic (← generic type))
        (do return .generic (← generic type')) (movedShape σ.offset) :=
      (follows_generic h).bind fun g => .done (movedShape_generic σ.offset g).symm
    split_ifs
    · exact hword _ rfl
    · cases Keyword.ofSpelling? word with
      | some keyword => exact hword _ rfl
      | none => exact hgeneric.anti fun c hc => hc.1

private theorem simulates_tuple :
    Simulates σ (fun c => σ.Within depth c ∧ c.hasKind 0 .bracketOpen = true)
      (tuple type) (tuple type') fun a b next =>
        b = movedShape σ.offset a ∧ σ.Within depth next := by
  refine .take_bind (fun _ h => h) (by decide) fun _ _ => (h _).items.bind fun items => ?_
  refine .expect_bind (by decide) fun _ _ => .done ?_
  rw [movedShape, movedAll_eq_map]

/-- **A primary form is read in place as it is from its own text, moved.** The cases are the kinds
of the next token. -/
private theorem follows_primaryShape :
    Follows σ depth (primaryShape type) (primaryShape type') (movedShape σ.offset) := by
  have hreject : ∀ {pre : Cursor → Prop} (detail : Option String) (kind : Diagnostic.Kind),
      (∀ c, pre c → σ.Within depth c) → Simulates σ pre
        (Parser.reject kind detail) (Parser.reject kind detail)
        fun a b next => b = movedShape σ.offset a ∧ σ.Within depth next :=
    fun detail kind hpre => .reject hpre kind detail
  have hobject : ∀ {pre : Cursor → Prop}, (∀ c, pre c → σ.Within depth c ∧
      (c.hasKind 0 .braceOpen || c.hasKind 0 .braceBarOpen) = true) → Simulates σ pre
        (do return .object (← objectType type).1) (do return .object (← objectType type').1)
        fun a b next => b = movedShape σ.offset a ∧ σ.Within depth next := by
    intro pre hpre
    exact ((simulates_objectType h).anti hpre).bind_moved fun a =>
      .done (movedShape_object σ.offset a.1).symm
  refine .nextKind_bind (hreject _ _ fun _ hc => hc) fun kind => ?_
  cases kind with
  | identifier => exact simulates_named h
  | string => exact .take_bind (fun _ h => h) (by decide) fun _ _ => .done rfl
  | number => exact .take_bind (fun _ h => h) (by decide) fun _ _ => .done rfl
  | minus =>
    refine .test (fun c d hcd hc => hcd.hasKind (hc.1.visible_succ hc.2 (by decide)) .number) ?_
      (hreject _ _ fun _ hc => hc.1)
    -- σ.Within depth c ∧ => A number stands behind the sign, and so the text does not end there.
    refine .advance_bind (fun _ c => σ.Within depth c ∧ c.hasKind 0 .number = true)
      (fun c hc => hc.1.1.visible) ?_ fun _ => ?_
    · rintro c l ls ⟨⟨hc, hminus⟩, hnumber⟩ hrest
      exact ⟨hc.took_of_ne hminus (by decide) hrest, by rwa [Cursor.hasKind_took hrest]⟩
    · exact .take_bind (fun _ h => h) (by decide) fun _ _ => .done rfl
  | bigInt => exact .take_bind (fun _ h => h) (by decide) fun _ _ => .done rfl
  | star => exact .take_bind (fun _ h => h) (by decide) fun _ _ => .done rfl
  | braceOpen => exact hobject fun c hc => ⟨hc.1, Bool.or_eq_true_iff.mpr (.inl hc.2)⟩
  | braceBarOpen => exact hobject fun c hc => ⟨hc.1, Bool.or_eq_true_iff.mpr (.inr hc.2)⟩
  | bracketOpen => exact simulates_tuple h
  | less =>
    refine ((follows_typeParams h).bind fun _ => ?_).anti fun c hc => hc.1
    exact follows_function h (by decide) rfl _
  | unexpected =>
    refine .nextText_bind (fun _ hc => hc.1.visible) fun text => hreject _ _ fun _ hc => hc.1
  | _ => exact hreject _ _ fun _ hc => hc.1

private theorem follows_primary :
    Follows σ depth (primary type) (primary type') (moved σ.offset) := by
  refine .test (Sees.hasKind 0 .parenOpen).within (simulates_parenthesized h) ?_
  refine .nextStart_bind (fun _ hc => hc.visible) fun start => ?_
  exact (follows_primaryShape h).bind fun _ => .spanFrom_bind fun _ => .done rfl

/-! ### Operators -/

/-- Brackets behind a type expression are read in place as they are from its own text. -/
private theorem follows_bracketed :
    Follows σ depth (bracketed type) (bracketed type') (moved σ.offset) := by
  refine .nextStart_bind (fun _ hc => hc.visible) fun start => ?_
  have hloop : ∀ {n n' : ℕ}, n ≤ n' → ∀ t, Simulates σ (σ.Within depth)
      (bracketsLoop type start n t)
      (bracketsLoop type' (start + σ.offset) n' (moved σ.offset t))
      fun a b next => b = moved σ.offset a ∧ σ.Within depth next := by
    refine Simulates.loop_of_step (moved σ.offset) (fun _ => rfl) fun n n' ih t => ?_
    have hview : σ.Sees 0 fun c => c.hasKind 0 .bracketOpen && !c.lineBreakAhead :=
      .and (.hasKind 0 .bracketOpen) (.not .lineBreakAhead)
    refine .test hview.within ?_ (.done rfl)
    refine .take_bind (fun _ hc => (Bool.and_eq_true_iff.mp hc).1) (by decide) fun _ _ => ?_
    refine .eat_bind (by decide) (.spanFrom_bind fun span => ih ⟨.array t, span⟩) ?_
    refine (h _).bind fun index => .expect_bind (by decide) fun _ _ => ?_
    exact .spanFrom_bind fun span => ih ⟨.indexedAccess t index, span⟩
  exact (follows_primary h).bind fun t => .rounds fun hle => hloop hle t

end

variable {inside inside' : Nested}

private theorem follows_operand
    (hwhole : ∀ depth, Follows σ depth inside.whole inside'.whole (moved σ.offset))
    (hoperand : ∀ depth, Follows σ depth inside.operand inside'.operand (moved σ.offset)) :
    Follows σ depth (operand inside) (operand inside') (moved σ.offset) := by
  refine .test (Sees.hasKind 0 .question).within ?_ (follows_bracketed hwhole)
  refine .take_bind (fun _ h => h) (by decide) fun _ _ => ?_
  exact (hoperand _).bind fun _ => .spanFrom_bind fun _ => .done rfl

/-- A list with an operator is read in place as it is from its own text if the operator is neither a
bracket nor what ends the text. -/
private theorem follows_joined {part part' : Parser TypeExpr}
    (h : Follows σ depth part part' (moved σ.offset)) {operator : Token.Kind}
    (hne : operator ≠ .semicolon) (hdepth : operator.depthAfter depth = depth)
    {shape : List TypeExpr → Shape TypeExpr}
    (hshape : ∀ ts, movedShape σ.offset (shape ts) = shape (ts.map (moved σ.offset))) :
    Follows σ depth (joined operator shape part) (joined operator shape part')
      (moved σ.offset) := by
  refine .nextStart_bind (fun _ hc => hc.visible) fun start => ?_
  refine (Follows.eat hne hdepth).bind fun _ => h.bind fun first => ?_
  refine (h.operands hne hdepth).bind fun more => ?_
  rw [List.isEmpty_map]
  split_ifs
  · exact .done rfl
  · refine .spanFrom_bind fun span => .done ?_
    rw [moved, hshape, List.map_cons]

private theorem follows_union
    (hwhole : ∀ depth, Follows σ depth inside.whole inside'.whole (moved σ.offset))
    (hoperand : ∀ depth, Follows σ depth inside.operand inside'.operand (moved σ.offset)) :
    Follows σ depth (union inside) (union inside') (moved σ.offset) := by
  refine follows_joined (follows_joined (follows_operand hwhole hoperand) (by decide) rfl ?_)
    (by decide) rfl ?_
  · exact fun ts => by rw [movedShape, movedAll_eq_map]
  · exact fun ts => by rw [movedShape, movedAll_eq_map]

/-- **A type expression is read in a longer text as it is read in the text**, with as many brackets
open behind it as before it. In the longer text at least as many knots are tied. -/
theorem follows_nested {n n' : ℕ} (hle : n ≤ n') :
    ∀ depth, Follows σ depth (nested none n).whole (nested none n').whole (moved σ.offset) ∧
      Follows σ depth (nested none n).operand (nested none n').operand (moved σ.offset) := by
  induction n generalizing n' with
  | zero => exact fun depth => ⟨fun _ _ _ _ => trivial, fun _ _ _ _ => trivial⟩
  | succ n ih =>
    obtain ⟨k, rfl⟩ := Nat.exists_eq_add_of_le' hle
    have hinside := ih (Nat.le_add_left n k)
    have hwhole := fun depth => (hinside depth).1
    have hoperand := fun depth => (hinside depth).2
    exact fun depth => ⟨(follows_union hwhole hoperand).nesting,
      (follows_operand hwhole hoperand).nesting⟩

end Reifier.TypeExpr
