import Reifier.Proofs.Directive
import Reifier.Proofs.Program.Names
import Reifier.Proofs.Session.Refusal
import Reifier.Proofs.SourceUnit

/-!
# Why a unit is refused

A unit that takes part and can be read is refused exactly if one of its declarations is, and what is
reported is why the first of them in the source is (`transform_error_of_parse`). What else the unit
declares or imports makes no difference to that.

The empty directive counts as contained in no comment, so under it no unit is refused
(`not_forall_transform_error`).
-/

namespace Reifier.SourceUnit

variable {settings : Settings} {unit : SourceUnit} {limit : Option ℕ} {source : String}

/-- A unit that takes part and can be read is refused if its program is. -/
private theorem transform_eq_error_iff (h : unit.takesPart settings = true)
    (hclean : unit.diagnostics = []) {e : UnitError} :
    unit.transform settings = .error e ↔
      ∃ refusal, Session.run settings unit.program = .error refusal ∧
        e = .refused [refusal.diagnostic] := by
  rw [transform, if_neg (by simp [h]), if_neg (by simp [hclean])]
  cases Session.run settings unit.program with
  | ok program => simp
  | error refusal => simp [eq_comm]

/-- The first of some declarations in a row that is refused stands before all others that are. -/
private theorem exists_first_of_firstRefusal? {globals : NameSet} {lib : Library}
    {decls : List Declaration} {refusal : Refusal}
    (h : Session.firstRefusal? globals lib decls = some refusal)
    (horder : decls.Pairwise fun d e => d.span.start < e.span.start) :
    ∃ decl ∈ decls, decl.refusal? globals lib = some refusal ∧
      ∀ other ∈ decls, other.refusal? globals lib ≠ none →
        other = decl ∨ decl.span.start < other.span.start := by
  obtain ⟨before, decl, behind, rfl, hdecl, hbefore⟩ := List.findSome?_eq_some_iff.mp h
  refine ⟨decl, List.mem_append_right _ List.mem_cons_self, hdecl, fun other hother hrefused => ?_⟩
  rcases List.mem_append.mp hother with hother | hother
  · exact absurd (hbefore other hother) hrefused
  · rcases List.mem_cons.mp hother with rfl | hother
    · exact .inl rfl
    · exact .inr ((List.pairwise_cons.mp (List.pairwise_append.mp horder).2.1).1 other hother)

/-- **A unit is refused for its first refused declaration.** Let a source be read without anything
wrong with it, under a directive that is not empty and stands in one of the comments. Then the unit
is refused exactly if one of its declarations declares a type under a reserved name or a type
without a counterpart. The one thing reported is what is wrong with the first such declaration: its
name if that is reserved, and otherwise its type. -/
theorem transform_error_of_parse (hparse : parse limit source = .ok unit)
    (hclean : unit.diagnostics = []) (hdirective : settings.directive ≠ "")
    (hmarked : ∃ c ∈ unit.program.comments, settings.directive.toList <:+: c.text.toList)
    (lib : Library) :
    ((∃ e, unit.transform settings = .error e) ↔
      ∃ decl ∈ unit.program.declarations, decl.isType = true ∧
        (isReservedName decl.id.name = true ∨
          ∃ refusal, decl.reify settings.globals lib = .error refusal)) ∧
    ∀ e, unit.transform settings = .error e →
      ∃ decl ∈ unit.program.declarations, ∃ refusal,
        decl.refusal? settings.globals lib = some refusal ∧ e = .refused [refusal.diagnostic] ∧
        ∀ other ∈ unit.program.declarations, other.refusal? settings.globals lib ≠ none →
          other = decl ∨ decl.span.start < other.span.start := by
  have hscan := Directive.scan_ne_nil_iff.mpr ⟨hdirective, hmarked⟩
  obtain ⟨reading, hreading, hprogram⟩ := parse_program hparse
  -- Whatever is exported in a source is exported as a type, and so the session treats all
  -- declarations.
  have hexports : ∀ item ∈ unit.program.body, item.node.ExportsType := by
    rw [hprogram]
    exact fun item hitem => (Program.spelledIn_of_parse hreading item hitem).exportsType
  have htransform : ∀ e, unit.transform settings = .error e ↔ ∃ refusal,
      Session.firstRefusal? settings.globals lib unit.program.declarations = some refusal ∧
        e = .refused [refusal.diagnostic] := by
    intro e
    simp only [transform_eq_error_iff (takesPart_iff.mpr hscan) hclean,
      Session.run_eq_error_iff hscan hexports lib]
  constructor
  · have hsome : (∃ e, unit.transform settings = .error e) ↔
        ∃ refusal, Session.firstRefusal? settings.globals lib unit.program.declarations =
          some refusal := by
      simp only [htransform]
      exact ⟨fun ⟨_, refusal, h, _⟩ => ⟨refusal, h⟩, fun ⟨refusal, h⟩ => ⟨_, refusal, h, rfl⟩⟩
    rw [hsome, ← Option.isSome_iff_exists, Session.firstRefusal?, List.isSome_findSome?]
    simp only [List.any_eq_true, Option.isSome_iff_ne_none, Declaration.refusal?_ne_none_iff]
  · intro e he
    obtain ⟨refusal, hfirst, rfl⟩ := (htransform e).mp he
    have horder := Program.pairwise_start_of_parse hreading
    rw [← hprogram] at horder
    obtain ⟨decl, hdecl, hrefusal, hothers⟩ := exists_first_of_firstRefusal? hfirst horder
    exact ⟨decl, hdecl, refusal, hrefusal, rfl, hothers⟩

/-! ### Sources that declare a reserved name -/

/-- What is wrong with a source, the texts of its comments, and the names that it declares, each
with whether it declares a type. -/
def outlineOf (limit : Option ℕ) (source : String) :
    Option (List Diagnostic × List String × List (Bool × String)) :=
  (parse limit source).toOption.map fun unit =>
    (unit.diagnostics, unit.program.comments.map Comment.text,
      unit.program.declarations.map fun decl => (decl.isType, decl.id.name))

/-- What an outline lists comes from a source that is read without reports: the texts of comments,
and the declarations with their names. -/
private theorem exists_of_outlineOf {texts : List String} {names : List (Bool × String)}
    (h : outlineOf limit source = some ([], texts, names)) :
    ∃ unit, parse limit source = .ok unit ∧ unit.diagnostics = [] ∧
      (∀ text ∈ texts, ∃ c ∈ unit.program.comments, c.text = text) ∧
      ∀ isType name, (isType, name) ∈ names →
        ∃ decl ∈ unit.program.declarations, decl.isType = isType ∧ decl.id.name = name := by
  unfold outlineOf at h
  cases hparse : parse limit source with
  | error e =>
    rw [hparse] at h
    cases h
  | ok unit =>
    rw [hparse] at h
    simp only [Except.toOption, Option.map_some, Option.some.injEq, Prod.mk.injEq] at h
    obtain ⟨hclean, rfl, rfl⟩ := h
    refine ⟨unit, rfl, hclean, fun text htext => List.mem_map.mp htext, fun isType name hname => ?_⟩
    obtain ⟨decl, hdecl, heq⟩ := List.mem_map.mp hname
    exact ⟨decl, hdecl, Prod.mk.inj heq⟩

/-- Of two declarations, the second of which is inside a block, the second declares a reserved name;
so the unit is refused, and one thing is reported. -/
theorem transform_error_of_parse_nested :
    ∃ unit, parse none "// @tcomb\ntype A = B\nif (x) \x7b\n  type $Reify = A\n\x7d" = .ok unit ∧
      unit.diagnostics = [] ∧ Settings.default.directive ≠ "" ∧
      (∃ c ∈ unit.program.comments,
        Settings.default.directive.toList <:+: c.text.toList) ∧
      ∃ refusal : Refusal,
        unit.transform .default = .error (.refused [refusal.diagnostic]) := by
  have houtline : outlineOf none "// @tcomb\ntype A = B\nif (x) \x7b\n  type $Reify = A\n\x7d" =
      some ([], [" @tcomb"], [(true, "A"), (true, "$Reify")]) := by
    decide +kernel
  obtain ⟨unit, hparse, hclean, htexts, hnames⟩ := exists_of_outlineOf houtline
  have hdirective : Settings.default.directive ≠ "" := by decide
  obtain ⟨c, hc, htext⟩ := htexts " @tcomb" List.mem_cons_self
  have hmarked : ∃ c ∈ unit.program.comments,
      Settings.default.directive.toList <:+: c.text.toList := by
    refine ⟨c, hc, ?_⟩
    rw [htext]
    decide
  obtain ⟨decl, hdecl, htype, hid⟩ :=
    hnames true "$Reify" (List.mem_cons_of_mem _ List.mem_cons_self)
  obtain ⟨hiff, herror⟩ := transform_error_of_parse hparse hclean hdirective hmarked ⟨"t"⟩
  obtain ⟨e, he⟩ := hiff.mpr ⟨decl, hdecl, htype, .inl (by rw [hid]; decide)⟩
  obtain ⟨first, -, refusal, -, rfl, -⟩ := herror e he
  exact ⟨unit, hparse, hclean, hdirective, hmarked, refusal, he⟩

/-- Under the empty directive a unit takes no part, though this directive stands in every text: a
reserved name is not refused then. -/
theorem not_forall_transform_error :
    ¬ ∀ (limit : Option ℕ) (source : String) (unit : SourceUnit) (settings : Settings),
      parse limit source = .ok unit → unit.diagnostics = [] →
      (∃ c ∈ unit.program.comments, settings.directive.toList <:+: c.text.toList) →
      (∃ decl ∈ unit.program.declarations, decl.isType = true ∧
        isReservedName decl.id.name = true) →
      ∃ e, unit.transform settings = .error e := by
  intro h
  have houtline : outlineOf none "/**/type $Reify = A" = some ([], [""], [(true, "$Reify")]) := by
    decide +kernel
  obtain ⟨unit, hparse, hclean, htexts, hnames⟩ := exists_of_outlineOf houtline
  obtain ⟨c, hc, -⟩ := htexts "" List.mem_cons_self
  obtain ⟨decl, hdecl, htype, hid⟩ := hnames true "$Reify" List.mem_cons_self
  let settings : Settings := { Settings.default with directive := "" }
  obtain ⟨e, he⟩ := h none _ unit settings hparse hclean
    ⟨c, hc, List.nil_infix⟩ ⟨decl, hdecl, htype, by rw [hid]; decide⟩
  have hrest : ¬ unit.takesPart settings = true := by
    rw [takesPart_iff, Directive.scan_ne_nil_iff]
    exact fun hboth => hboth.1 rfl
  rw [transform_of_not_takesPart hrest] at he
  cases he

end Reifier.SourceUnit
