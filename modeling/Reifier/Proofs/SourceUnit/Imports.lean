import Reifier.Proofs.Import.Taking
import Reifier.Proofs.Session.Nested
import Reifier.Proofs.SourceUnit

/-!
# Imports that are left alone

An import that does not bring in types is not replaced. It is printed on lines of its own, as the
plain spelling of what it is spelled as in the source (`imports_of_transform`). So its names and its
path are kept, but a specifier in braces loses a mark that it brings in a type, and is imported as a
value (`exists_unmarked`).
-/

namespace Reifier

open Token (wordsOf)

/-! ### Lines -/

namespace Text

/-- A text stands in another one on lines of its own. -/
def OnLines (text whole : List Char) : Prop :=
  ∃ front back, whole = front ++ (text ++ back) ∧ (∀ c ∈ front.getLast?, c = '\n') ∧
    ∀ c ∈ back.head?, c = '\n'

variable {text mid whole : List Char}

/-- Texts on lines of a text that is itself on lines of another one. -/
protected theorem OnLines.trans (h : OnLines text mid) (h' : OnLines mid whole) :
    OnLines text whole := by
  obtain ⟨before, behind, rfl, hbefore, hbehind⟩ := h
  obtain ⟨front, back, rfl, hfront, hback⟩ := h'
  refine ⟨front ++ before, behind ++ back, by simp, fun c hc => ?_, fun c hc => ?_⟩
  · rw [List.getLast?_append] at hc
    cases hlast : before.getLast? with
    | none => exact hfront c (by simpa [hlast] using hc)
    | some d => exact hbefore c (by simpa [hlast] using hc)
  · rw [List.head?_append] at hc
    cases hhead : behind.head? with
    | none => exact hback c (by simpa [hhead] using hc)
    | some d => exact hbehind c (by simpa [hhead] using hc)

/-- Texts with empty lines between them stand on lines of their own. -/
private theorem onLines_intercalate {texts : List (List Char)} (h : text ∈ texts) :
    OnLines text (['\n', '\n'].intercalate texts) := by
  induction texts with
  | nil => cases h
  | cons first texts ih =>
    cases texts with
    | nil =>
      obtain rfl := List.mem_singleton.mp h
      exact ⟨[], [], by simp, nofun, nofun⟩
    | cons second texts =>
      rw [List.intercalate_cons_cons, List.append_assoc]
      rcases List.mem_cons.mp h with rfl | h
      · exact ⟨[], _, rfl, nofun, by rintro c ⟨⟩; rfl⟩
      · refine (ih h).trans ⟨first ++ ['\n', '\n'], [], by simp, fun c hc => ?_, nofun⟩
        simpa using hc.symm

end Text

/-! ### Printing -/

namespace Program

variable {program : Program} {item : Item Statement} {comments : Bool}

/-- The comments above a statement are printed on lines of their own. -/
private theorem onLines_renderItem {source : List Char} :
    Text.OnLines (program.renderStatement source item.node).toList
      (program.renderItem source comments item).toList := by
  -- Each of the comments is printed with a line break behind it.
  have hlast : ∀ all : List Comment, ∀ c ∈ (all.map (·.render ++ "\n")).flatMap
      String.toList |>.getLast?, c = '\n' := by
    intro all c hc
    rcases List.eq_nil_or_concat all with rfl | ⟨front, comment, rfl⟩
    · cases hc
    · simpa using hc.symm
  refine ⟨_, [], ?_, hlast (program.visibleComments comments item.comments), nofun⟩
  rw [List.append_nil, renderItem, String.toList_append, String.toList_join]

/-- A statement of a program is printed on lines of its own. -/
private theorem onLines_render {source : String} (h : item ∈ program.body) :
    Text.OnLines (program.renderStatement source.toList item.node).toList
      (program.render source comments).toList := by
  let trailing := (program.visibleComments comments program.trailing).map Comment.render
  let parts := program.body.map (program.renderItem source.toList comments) ++
    (if trailing.isEmpty then [] else ["\n".intercalate trailing])
  have hmem : program.renderItem source.toList comments item ∈ parts :=
    List.mem_append_left _ (List.mem_map_of_mem h)
  have hne : parts.isEmpty = false := List.isEmpty_eq_false_iff.mpr (List.ne_nil_of_mem hmem)
  have hrender : program.render source comments = "\n\n".intercalate parts ++ "\n" :=
    if_neg (Bool.eq_false_iff.mp hne)
  have hbody : Text.OnLines (['\n', '\n'].intercalate (parts.map String.toList))
      (program.render source comments).toList := by
    rw [hrender, String.toList_append, String.toList_intercalate]
    exact ⟨[], ['\n'], rfl, nofun, by rintro c ⟨⟩; rfl⟩
  exact onLines_renderItem.trans ((Text.onLines_intercalate (List.mem_map_of_mem hmem)).trans hbody)

end Program

/-! ### Replacement -/

/-- **An import that does not bring in types stays in its program**, with the comments above it. -/
theorem Session.mem_of_run {settings : Settings} {program done : Program}
    (hrun : run settings program = .ok done)
    (hactive : Directive.scan settings.directive program.comments ≠ [])
    {item : Item Statement} (hitem : item ∈ program.body) {decl : Import}
    (hnode : item.node = .imports decl) (hkind : decl.kind ≠ .type) : item ∈ done.body := by
  obtain ⟨items, scope, hbody, rfl⟩ := exists_of_run hrun hactive
  obtain ⟨_, ⟨groups, hgroups, rfl, rfl⟩, -⟩ := generates_body program.body _ _ _ hbody
  obtain ⟨⟨names, others⟩, hgroup, first, more, hreplaced, hitems⟩ :=
    exists_of_forall₂_of_mem hgroups.flip hitem
  dsimp only at hreplaced hitems
  have hfirst : first = item.node := by
    rw [hnode] at hreplaced
    cases hreplaced with
    | imports => exact hnode.symm
    | relativeTypes h => exact absurd h hkind
    | externalTypes h => exact absurd h hkind
  have hmem : item ∈ groups.flatMap Prod.snd := by
    refine List.mem_flatMap.mpr ⟨_, hgroup, ?_⟩
    rw [hitems, hfirst]
    exact List.mem_cons_self
  rcases exit_body_cases ⟨settings, scope, true⟩
    { strip settings program with body := groups.flatMap Prod.snd } with hexit | hexit
  · rwa [hexit]
  · rw [hexit]
    exact List.mem_cons_of_mem _ hmem

/-! ### Units -/

namespace SourceUnit

variable {limit : Option ℕ} {settings : Settings} {source : String} {unit done : SourceUnit}

/-- **An import that does not bring in types is kept, and printed as its plain spelling.** What it
is spelled as in the source may have marks in its braces; the words that are printed for it, on
lines of their own, have none. -/
theorem imports_of_transform (hunit : parse limit source = .ok unit)
    (hdone : unit.transform settings = .ok done) (hreified : done.reified = true)
    {item : Item Statement} (hitem : item ∈ unit.program.body) {decl : Import}
    (hnode : item.node = .imports decl) (hkind : decl.kind ≠ .type) :
    item ∈ done.program.body ∧ ∃ sp, Program.StandsAs source decl sp ∧
      Text.OnLines decl.render.toList done.print.toList ∧
      wordsOf decl.render.toList = sp.plain.words ∧
      sp.plain.named = sp.named.map NamedSpelling.plain := by
  obtain ⟨reading, hreading, hprogram⟩ := parse_program hunit
  have htakes := takesPart_of_reified hdone hreified
  obtain ⟨-, program, hrun, rfl⟩ := transform_of_takesPart htakes hdone
  have hmem := Session.mem_of_run hrun (takesPart_iff.mp htakes) hitem hnode hkind
  rw [hprogram] at hitem
  obtain ⟨sp, hstands⟩ := Program.exists_standsAs hreading hitem hnode
  refine ⟨hmem, sp, hstands, ?_, ?_, sp.named_plain⟩
  · have hlines : Text.OnLines (program.renderStatement unit.source.toList item.node).toList
        (program.render unit.source true).toList := Program.onLines_render hmem
    rwa [hnode] at hlines
  · rw [← ImportSpelling.write_plain hstands.spelledBy]
    exact Token.wordsOf_write (ImportSpelling.valid_plain hstands.isIdentifier)

/-- The import that a source holds, if it holds nothing else and is rewritten, and what is printed
for the source. -/
def soleImport (limit : Option ℕ) (settings : Settings) (source : String) :
    Option (Import × String) :=
  match parse limit source with
  | .error _ => none
  | .ok unit =>
    match unit.transform settings, unit.program.body with
    | .ok done, [⟨_, .imports decl⟩] => if done.reified then some (decl, done.print) else none
    | _, _ => none

/-- The only import of a source, as it is read and as it is printed. -/
private theorem exists_of_soleImport {decl : Import} {printed : String}
    (h : soleImport limit settings source = some (decl, printed)) :
    ∃ unit done item, parse limit source = .ok unit ∧ unit.transform settings = .ok done ∧
      done.reified = true ∧ item ∈ unit.program.body ∧ item.node = .imports decl ∧
      done.print = printed := by
  unfold soleImport at h
  split at h
  · cases h
  · rename_i unit hunit
    split at h
    · rename_i done comments decl' hdone hbody
      split_ifs at h with hreified
      obtain ⟨rfl, hprinted⟩ := Prod.mk.inj (Option.some.inj h)
      exact ⟨unit, done, ⟨comments, .imports decl'⟩, hunit, hdone, hreified,
        hbody ▸ List.mem_singleton_self _, rfl, hprinted⟩
    · cases h

/-- A source with marks in the braces of an import of values. -/
def markedNames : String := "// @tcomb\nimport d, \x7b type A, typeof B as C, D \x7d from 'x'"

/-- All names of this import are imported as values by what is printed. -/
theorem imports_of_transform_marked :
    ∃ unit done item decl, parse (some 2) markedNames = .ok unit ∧
      unit.transform .default = .ok done ∧ done.reified = true ∧ item ∈ unit.program.body ∧
      item.node = .imports decl ∧ decl.kind ≠ .type ∧ item ∈ done.program.body ∧
      Text.OnLines decl.render.toList done.print.toList ∧
      decl.render = "import d, \x7b A, B as C, D \x7d from 'x';" := by
  have hsole : (soleImport (some 2) .default markedNames).map
      (fun found => (found.1.kind, found.1.render)) =
        some (.value, "import d, \x7b A, B as C, D \x7d from 'x';") := by
    decide +kernel
  obtain ⟨⟨decl, printed⟩, hfound, heq⟩ := Option.map_eq_some_iff.mp hsole
  obtain ⟨hkind, hrender⟩ := Prod.mk.inj heq
  obtain ⟨unit, done, item, hunit, hdone, hreified, hitem, hnode, -⟩ := exists_of_soleImport hfound
  have htype : decl.kind ≠ .type := hkind ▸ nofun
  obtain ⟨hmem, -, -, hlines, -⟩ := imports_of_transform hunit hdone hreified hitem hnode htype
  exact ⟨unit, done, item, decl, hunit, hdone, hreified, hitem, hnode, htype, hmem, hlines, hrender⟩

/-- A source with a mark at one of two names. -/
def markedName : String := "// @tcomb\nimport \x7b type A, b \x7d from 'x'"

/-- What the import in it is spelled as. -/
def markedSpelling : ImportSpelling :=
  ⟨.value, some (.further (.braces [⟨.type, "A", none⟩, ⟨.value, "b", none⟩] false)), "'x'", false⟩

/-- A name that is marked as a type in a source may be imported as a value by what is printed. -/
theorem exists_unmarked :
    ∃ unit done item decl, parse (some 2) markedName = .ok unit ∧
      unit.transform .default = .ok done ∧ done.reified = true ∧ item ∈ unit.program.body ∧
      item.node = .imports decl ∧ Program.StandsAs markedName decl markedSpelling ∧
      (∃ s ∈ markedSpelling.named, s.mark = .type ∧ s.imported = "A") ∧
      done.print = "import \x7b A, b \x7d from 'x';\n" := by
  have hsole : (soleImport (some 2) .default markedName).map
      (fun found => (found.1.unplaced, found.1.span, found.2)) =
        some (markedSpelling.meaning, ⟨10, 39⟩, "import \x7b A, b \x7d from 'x';\n") := by
    decide +kernel
  obtain ⟨⟨decl, printed⟩, hfound, heq⟩ := Option.map_eq_some_iff.mp hsole
  simp only [Prod.mk.injEq] at heq
  obtain ⟨hspelled, hspan, rfl⟩ := heq
  obtain ⟨unit, done, item, hunit, hdone, hreified, hitem, hnode, hprint⟩ :=
    exists_of_soleImport hfound
  have hwords : wordsOf (Program.sliceOf markedName.toList decl.span).toList =
      markedSpelling.words := by
    rw [hspan]
    decide +kernel
  exact ⟨unit, done, item, decl, hunit, hdone, hreified, hitem, hnode, ⟨hwords, hspelled⟩,
    ⟨_, List.mem_cons_self, rfl, rfl⟩, hprint⟩

end SourceUnit

end Reifier
