import Reifier.Proofs.Directive
import Reifier.Proofs.Program.Comments
import Reifier.Proofs.SourceUnit

/-!
# Which units take part

Whether a unit takes part can be told from the tokens of its source: one of its comments has to hold
the directive (`takesPart_iff_marked`). Where the comment stands makes no difference, and neither
does what the parser made of the text around it. A unit without such a comment passes through, also
if it cannot be read, and a unit with one never does (`transform_of_comments`).
-/

namespace Reifier.SourceUnit

variable {settings : Settings} {unit : SourceUnit} {limit : Option ℕ} {source : String}

/-- A source with a comment that holds the directive between its marks. The empty directive marks no
source. -/
def Marked (directive source : String) : Prop :=
  directive ≠ "" ∧ ∃ t ∈ Token.scan source, ∃ body, t.Encloses body ∧ directive.toList <:+: body

/-- A unit takes part exactly if its source is marked. -/
theorem takesPart_iff_marked (h : parse limit source = .ok unit) :
    unit.takesPart settings = true ↔ Marked settings.directive source := by
  obtain ⟨reading, hreading, hprogram⟩ := parse_program h
  rw [takesPart_iff, hprogram, Directive.scan_ne_nil_iff, Program.comments_of_parse hreading,
    Marked]
  refine and_congr_right fun _ => ⟨?_, ?_⟩
  · rintro ⟨comment, hcomment, hinfix⟩
    obtain ⟨t, ht, hof⟩ := List.mem_filterMap.mp hcomment
    exact ⟨t, ht, comment.text.toList, Token.encloses_of_ofToken? ht hof, hinfix⟩
  · rintro ⟨t, ht, body, hencloses, hinfix⟩
    obtain ⟨kind, hof⟩ := hencloses.ofToken?
    refine ⟨_, List.mem_filterMap.mpr ⟨t, ht, hof⟩, ?_⟩
    rwa [String.toList_ofList]

/-- **A unit passes through exactly if its source is not marked.** An unmarked source is printed as
it is, whatever is wrong with it. A marked one is refused for what is wrong with it, and if it comes
out, then as its program is printed. -/
theorem transform_of_comments (settings : Settings) (source : String) :
    ∃ unit, parse none source = .ok unit ∧
      (¬ Marked settings.directive source →
        ∃ done, unit.transform settings = .ok done ∧ done.print = source) ∧
      (Marked settings.directive source →
        unit.takesPart settings = true ∧
        (unit.diagnostics ≠ [] →
          unit.transform settings = .error (.unreadable unit.diagnostics)) ∧
        ∀ done, unit.transform settings = .ok done →
          done.reified = true ∧ done.print = done.program.render source true) := by
  obtain ⟨reading, hreading⟩ := Program.exists_parse_none source
  obtain ⟨unit, hunit⟩ : ∃ unit, parse none source = .ok unit :=
    ⟨_, by rw [parse, hreading]⟩
  have hsource := parse_source hunit
  have hiff : unit.takesPart settings = true ↔ Marked settings.directive source :=
    takesPart_iff_marked hunit
  refine ⟨unit, hunit, fun hunmarked => ?_, fun hmarked => ?_⟩
  · exact ⟨_, transform_of_not_takesPart (mt hiff.mp hunmarked), hsource⟩
  · have htakes := hiff.mpr hmarked
    refine ⟨htakes, fun hwrong => ?_, fun done hdone => ?_⟩
    · rw [transform, if_neg (by simp [htakes]), if_pos (by simpa using hwrong)]
    · obtain ⟨-, program, -, rfl⟩ := transform_of_takesPart htakes hdone
      rw [← hsource]
      exact ⟨rfl, rfl⟩

end Reifier.SourceUnit
