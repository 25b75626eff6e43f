import Reifier.Proofs.TypeExpr.Forms

/-!
# Function types read back

Parentheses hold parameters or group a type expression. A few words ahead decide (`paramsAhead`),
except when there is a single parameter that has no name: it is read as a group, and turns out to be
a parameter when an arrow stands behind.
-/

namespace Reifier.TypeExpr

open Token (Word)
open Reifier.Parser (EndsItem Reads endsItem_close endsItem_comma)

variable {α : Type} {ws rest : List Word}

/-! ### Parameters -/

/-- A question mark that may stand before a colon. -/
theorem reads_optional {optional : Bool} {f : Bool → Parser α} {post : α → Prop}
    (hf : Reads (f optional) (.sign .colon :: ws) rest post) :
    Reads (Parser.eat .question >>= f)
      ((if optional = true then [.sign .question] else []) ++ .sign .colon :: ws) rest post := by
  cases optional with
  | true => exact .eat_true rfl hf
  | false =>
    refine .eat_false ?_ hf
    rintro w ⟨⟩
    decide

private theorem namedParamAhead_eq_true {c : Cursor} (us : List Word) {id : Identifier}
    {optional : Bool} (hc : c.Ahead (us ++ (keyed id.word optional ws ++ rest))) :
    namedParamAhead c us.length = true := by
  unfold namedParamAhead
  rw [hc.hasKind_eq, hc.hasKind_eq, hc.hasKind_eq, hc.hasKind_eq]
  cases optional <;> simp [keyed, Identifier.word, Word.sign]

/-- The words of a parameter are read back, with its name or without one. -/
private theorem reads_param {p : Param TypeExpr} (hp : p.Spellable) (htype : Legible p.type)
    (hrest : EndsItem .parenClose rest) :
    Reads (param unlimited.whole) (paramWords p) rest fun a =>
      unplacedParam a = unplacedParam p := by
  obtain ⟨name, type, optional⟩ := p
  have hread := htype.whole (.of_endsItem hrest (by decide))
  cases name with
  | some id =>
    refine .test_true (fun c hc => namedParamAhead_eq_true [] hc) ?_
    refine reads_identifier_bind fun name hname => reads_optional (.advance_bind fun _ _ _ => ?_)
    refine hread.bind_pure fun a ha => ?_
    rw [unplacedParam, unplacedParam, ha, Option.map_some, Option.map_some, hname]
  | none =>
    obtain rfl : optional = false := hp
    have hopens : Opens type.shape.ownLevel (type.words ++ rest) := by
      refine htype.opens.append fun v hv => ?_
      rcases hrest v hv with h | h <;> rw [h] <;> decide
    refine .test_false (fun c hc => namedParamAhead_eq_false [] hopens hc) ?_
    refine hread.bind_pure fun a ha => ?_
    rw [unplacedParam, unplacedParam, ha]

/-- A parameter begins like a type expression, if not with its name. -/
private theorem exists_paramWords {p : Param TypeExpr} (htype : Legible p.type) :
    ∃ w ws, paramWords p = w :: ws ∧ w.kind ∈ openers 0 := by
  obtain ⟨name, type, optional⟩ := p
  cases name with
  | some id => exact ⟨id.word, _, rfl, (by decide : Token.Kind.identifier ∈ openers 0)⟩
  | none =>
    obtain ⟨w, ws, hws, hw, -⟩ := htype.opens.mono (Nat.zero_le _)
    exact ⟨w, ws, hws, hw⟩

/-! ### Lists of parameters -/

section Params

variable {params : List (Param TypeExpr)} {last : Option (Param TypeExpr)}

/-- The parameters that were read are the ones that were written. -/
def SameParams (params : List (Param TypeExpr)) (last : Option (Param TypeExpr))
    (all : List (Param TypeExpr) × Option (Param TypeExpr)) : Prop :=
  unplacedParams all.1 = unplacedParams params ∧ unplacedRest all.2 = unplacedRest last

theorem SameParams.cons {a p : Param TypeExpr}
    {all : List (Param TypeExpr) × Option (Param TypeExpr)}
    (ha : unplacedParam a = unplacedParam p) (h : SameParams params last all) :
    SameParams (p :: params) last (a :: all.1, all.2) := by
  obtain ⟨hparams, hlast⟩ := h
  rw [unplacedParams_eq_map, unplacedParams_eq_map] at hparams
  refine ⟨?_, hlast⟩
  rw [unplacedParams_eq_map, unplacedParams_eq_map, List.map_cons, List.map_cons, ha, hparams]

/-- Nothing is written for no parameters only. -/
private theorem sameParams_nil (h : paramsWords params ++ restWords last = []) :
    SameParams params last ([], none) := by
  rw [paramsWords_eq_map, restWords_eq_map, List.append_eq_nil_iff, List.map_eq_nil_iff,
    List.map_eq_nil_iff, Option.toList_eq_nil_iff] at h
  obtain ⟨rfl, rfl⟩ := h
  exact ⟨rfl, rfl⟩

/-- The first parameter is read, and then those behind a comma. -/
private theorem reads_paramsLoop_cons {p : Param TypeExpr} (hp : p.Spellable)
    (htype : Legible p.type)
    {parts : List (List Word)} (hparts : parts = paramsWords params ++ restWords last)
    (hmore : ∀ n, (Word.separated .comma parts).length < n →
      Reads (paramsLoop unlimited.whole n) (Word.separated .comma parts)
        (.sign .parenClose :: rest) (SameParams params last))
    (n : ℕ) (hn : (Word.separated .comma (paramWords p :: parts)).length < n) :
    Reads (paramsLoop unlimited.whole n) (Word.separated .comma (paramWords p :: parts))
      (.sign .parenClose :: rest) (SameParams (p :: params) last) := by
  obtain ⟨n, rfl⟩ := Nat.exists_eq_add_one_of_ne_zero (Nat.ne_zero_of_lt hn)
  obtain ⟨w, ws, hws, hw⟩ := exists_paramWords htype
  have hpos : 0 < (paramWords p).length := hws ▸ Nat.succ_pos _
  have hread := hmore n
    ((Word.length_separated_lt .comma hpos parts).trans_le (Nat.le_of_lt_succ hn))
  -- Neither a parenthesis nor dots begin a parameter, so the loop goes on to read one.
  have hhead : ∀ kind ∉ openers 0, ∀ tail, ∀ u ∈ (paramWords p ++ tail).head?, u.kind ≠ kind := by
    rw [hws]
    rintro kind hkind tail u ⟨⟩ rfl
    exact hkind hw
  rw [Word.separated_cons]
  refine .nextIs_false ?_ (.eat_false ?_ ?_)
  · rw [List.append_assoc]
    exact hhead _ (by decide) _
  · rw [List.append_assoc]
    exact hhead _ (by decide) _
  · cases parts with
    | nil =>
      have hclose : EndsItem .parenClose (.sign .parenClose :: rest) := endsItem_close rfl rest
      refine .bind (reads_param hp htype hclose) fun a ha => .eat_false ?_ ?_
      · rintro u ⟨⟩
        decide
      · exact .pure (.cons ha (sameParams_nil hparts.symm))
    | cons part parts =>
      refine .bind (reads_param hp htype (endsItem_comma _ _)) fun a ha => .eat_true rfl ?_
      rw [Word.separated_cons] at hread
      exact hread.bind_pure fun all hall => .cons ha hall

/-- **The parameters of a function are read back,** the rest parameter behind the others. The
induction is on the parameters; the rounds are enough as each has a word. -/
private theorem reads_paramsLoop (hparams : ∀ p ∈ params, p.Spellable ∧ Legible p.type)
    (hlast : ∀ p ∈ last, p.Spellable ∧ Legible p.type) (n : ℕ)
    (hn : (Word.separated .comma (paramsWords params ++ restWords last)).length < n) :
    Reads (paramsLoop unlimited.whole n)
      (Word.separated .comma (paramsWords params ++ restWords last)) (.sign .parenClose :: rest)
      (SameParams params last) := by
  induction params generalizing n with
  | nil =>
    obtain ⟨n, rfl⟩ := Nat.exists_eq_add_one_of_ne_zero (Nat.ne_zero_of_lt hn)
    cases last with
    | none =>
      refine .test_true (fun c hc => ?_) (.pure ⟨rfl, rfl⟩)
      rw [hc.hasKind_eq]
      rfl
    | some p =>
      -- The rest parameter stands behind its dots, and only the parenthesis behind it.
      obtain ⟨hp, htype⟩ := hlast p rfl
      have hwords : Word.separated .comma (paramsWords [] ++ restWords (some p)) =
          .sign .ellipsis :: (paramWords p ++ []) := by
        rw [restWords_eq_map, List.append_nil]
        exact Word.separated_singleton _ _
      have hclose : EndsItem .parenClose (.sign .parenClose :: rest) := endsItem_close rfl rest
      rw [hwords]
      refine .nextIs_false ?_ (.eat_true rfl ?_)
      · rintro w ⟨⟩
        decide
      · refine .bind (reads_param hp htype hclose) fun a ha => .eat_false ?_ (.pure ⟨rfl, ?_⟩)
        · rintro w ⟨⟩
          decide
        · rw [unplacedRest_eq_map, unplacedRest_eq_map, Option.map_some, Option.map_some, ha]
  | cons p params ih =>
    obtain ⟨⟨hp, htype⟩, hparams⟩ := List.forall_mem_cons.mp hparams
    exact reads_paramsLoop_cons hp htype rfl (ih hparams) n hn

/-- The parameters of a function in parentheses, and its rest parameter. -/
def allParamsWords (params : List (Param TypeExpr)) (last : Option (Param TypeExpr)) : List Word :=
  between .parenOpen .parenClose (Word.separated .comma (paramsWords params ++ restWords last))

private theorem reads_params (hparams : ∀ p ∈ params, p.Spellable ∧ Legible p.type)
    (hlast : ∀ p ∈ last, p.Spellable ∧ Legible p.type) :
    Reads (TypeExpr.params unlimited.whole) (allParamsWords params last) rest
      (SameParams params last) := by
  refine .expect_bind rfl fun _ => .bind (.rounds_of_lt (reads_paramsLoop hparams hlast)) ?_
  exact fun all hall => .expect_bind rfl fun _ => .pure hall

/-- Parameters stand ahead, unless the first one has no name. -/
private theorem paramsAhead_eq_true (hname : ∀ p ∈ params.head?, p.name.isSome) {c : Cursor}
    (hc : c.Ahead (allParamsWords params last ++ rest)) : paramsAhead c = true := by
  cases params with
  | nil =>
    rw [paramsAhead, hc.hasKind_eq, hc.hasKind_eq]
    cases last <;> rfl
  | cons p params =>
    obtain ⟨name, type, optional⟩ := p
    obtain ⟨id, rfl⟩ := Option.isSome_iff_exists.mp (hname _ rfl)
    have hwords : Word.separated .comma
        (paramsWords (⟨some id, type, optional⟩ :: params) ++ restWords last) =
          keyed id.word optional type.words ++
            (paramsWords params ++ restWords last).flatMap (.sign .comma :: ·) :=
      Word.separated_cons _ _ _
    rw [allParamsWords, hwords, between, List.append_assoc, List.cons_append,
      List.append_assoc] at hc
    have hnamed : namedParamAhead c 1 = true := namedParamAhead_eq_true [.sign .parenOpen] hc
    rw [paramsAhead, hnamed, Bool.or_true]

end Params

/-! ### Functions -/

section Functions

variable {params : List (Param TypeExpr)} {last : Option (Param TypeExpr)} {result : TypeExpr}

private theorem reads_function (hparams : ∀ p ∈ params, p.Spellable ∧ Legible p.type)
    (hlast : ∀ p ∈ last, p.Spellable ∧ Legible p.type) (hresult : Legible result)
    (hstop : Stops 0 rest) :
    Reads (function unlimited.whole .arrow "=>") (shapeWords (.function params last result)) rest
      (SameShape (.function params last result)) := by
  refine .bind (reads_params hparams hlast) fun all ⟨hall, hafter⟩ => .expect_bind rfl fun _ => ?_
  refine (hresult.whole hstop).bind_pure fun a ha => ?_
  rw [SameShape, unplacedShape, unplacedShape, hall, hafter, ha]

/-- A type expression in parentheses turns out to be a parameter when an arrow stands behind. -/
private theorem reads_bareFunction {type : TypeExpr} (htype : Legible type)
    (hresult : Legible result) (hstop : Stops 0 rest) (span : Span) :
    Reads (parenthesized unlimited.whole) (shapeWords (.function [⟨none, type, false⟩] none result))
      rest (Same ⟨.function [⟨none, type, false⟩] none result, span⟩) := by
  have hwords : shapeWords (.function [⟨none, type, false⟩] none result) =
      .sign .parenOpen :: (type.words ++ .sign .parenClose :: .sign .arrow :: result.words) := by
    have hparams : Word.separated .comma (paramsWords [⟨none, type, false⟩] ++ restWords none) =
        type.words := Word.separated_singleton _ _
    rw [shapeWords, hparams, between, List.cons_append, List.append_assoc]
    rfl
  have hclose : ∀ ws, Stops 0 (.sign .parenClose :: ws) := Stops.cons (by decide)
  rw [hwords]
  refine .look_bind fun start => .test_false (fun c hc => ?_) (.advance_bind fun _ _ _ => ?_)
  · rw [List.cons_append, List.append_assoc] at hc
    exact paramsAhead_eq_false (htype.opens.append_cons (by decide) _) hc
  · refine .bind (htype.whole (hclose _)) fun inner hinner => .expect_bind rfl fun _ => ?_
    refine .eat_true rfl ((hresult.whole hstop).bind_look_pure fun a _ ha => same_iff.mpr ?_)
    rw [SameShape, unplacedShape, unplacedShape, unplacedParams, hinner, ha]
    rfl

/-- A function type is read as far as its result goes. -/
theorem reads_primary_function (form : (Shape.function params last result).Writable)
    (hparams : ∀ p ∈ params, Legible p.type) (hlast : ∀ p ∈ last, Legible p.type)
    (hresult : Legible result) (hstop : Stops 0 rest) (span : Span) :
    Reads (primary unlimited.whole) (shapeWords (.function params last result)) rest
      (Same ⟨.function params last result, span⟩) := by
  obtain ⟨hspell, hspellLast, hannounced⟩ := form
  refine .nextIs_true rfl ?_
  -- With a name a few words tell that there are parameters; otherwise there is a single one.
  by_cases hname : ∀ p ∈ params.head?, p.name.isSome
  · have hfunction := reads_function (fun p hp => ⟨hspell p hp, hparams p hp⟩)
      (fun p hp => ⟨hspellLast p hp, hlast p hp⟩) hresult hstop
    refine .look_bind fun start => .test_true (fun c hc => ?_) ?_
    · have hahead : c.Ahead
          (allParamsWords params last ++ (.sign .arrow :: result.words ++ rest)) := by
        rw [← List.append_assoc]
        exact hc
      exact paramsAhead_eq_true hname hahead
    · exact hfunction.bind_look_pure fun s span hs => same_iff.mpr hs
  · obtain ⟨hlength, hnone⟩ := hannounced.resolve_left hname
    obtain ⟨⟨name, type, optional⟩, rfl⟩ := List.length_eq_one_iff.mp hlength
    obtain rfl : last = none := Option.isNone_iff_eq_none.mp hnone
    obtain rfl : name = none := by simpa using hname
    obtain rfl : optional = false := hspell _ List.mem_cons_self
    exact reads_bareFunction (hparams _ List.mem_cons_self) hresult hstop span

end Functions

end Reifier.TypeExpr
