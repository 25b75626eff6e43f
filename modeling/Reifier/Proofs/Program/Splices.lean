import Reifier.Program.Printer
import Reifier.Proofs.Token.Lexing

/-!
# Putting splices into a statement

A statement without a structure is made of patches: a token that stays, a comment that has become
another one, or the tokens of a declaration, in whose place a text goes (`Patch`). If they stand one
behind the other, then what is woven from the text and their splices is what becomes of the patches,
one after another (`weave_splices`). The printer finds these splices in another order, those of the
declarations first; sorting puts them in the order of the patches (`sort_eq_of_perm`).
-/

namespace Reifier

/-- What is printed of a comment. -/
def Comment.shown (comment : Comment) : String := if comment.ignored then "" else comment.render

/-- A token of a source, and the comment that it has become if it is one. -/
structure Fate where
  token : Token
  comment? : Option Comment

/-- A piece of a statement that is printed: a token that stays, a comment token and the comment that
it has become, or the tokens of a declaration and what goes into their place. -/
inductive Patch where
  | keep (token : Token)
  | swap (token : Token) (comment : Comment)
  | const (fates : List Fate) (splice : Splice)

namespace Patch

/-- The tokens of a patch, with the comments that they have become. -/
def fates : Patch → List Fate
  | keep t => [⟨t, none⟩]
  | swap t comment => [⟨t, some comment⟩]
  | const fates _ => fates

/-- The tokens of a patch. -/
def tokens : Patch → List Token
  | keep t => [t]
  | swap t _ => [t]
  | const fates _ => fates.map Fate.token

/-- The tokens of a patch are those whose fate it says. -/
theorem tokens_eq (p : Patch) : p.tokens = p.fates.map Fate.token := by cases p <;> rfl

/-- The characters of a patch. -/
def old (p : Patch) : List Char := p.tokens.flatMap (·.text.toList)

/-- What goes into the place of a patch, if that is not what stands there. -/
def splice? : Patch → Option Splice
  | keep _ => none
  | swap t comment => if comment.shown = t.text then none else some ⟨t.span, comment.shown⟩
  | const _ s => some s

/-- The characters that a patch becomes. -/
def new : Patch → List Char
  | keep t => t.text.toList
  | swap _ comment => comment.shown.toList
  | const _ s => s.text.toList

/-- A patch with a splice becomes its text, and any other one stays. -/
theorem new_eq (p : Patch) : p.new = (p.splice?.map (·.text.toList)).getD p.old := by
  cases p with
  | keep t => simp [new, splice?, old, tokens]
  | swap t comment =>
    by_cases h : comment.shown = t.text
    · simp [new, splice?, h, old, tokens]
    · simp [new, splice?, h]
  | const ts s => rfl

/-- Patches that stand one behind the other, the first of them at `offset`: each splice is where its
part is. -/
def Placed : ℕ → List Patch → Prop
  | _, [] => True
  | offset, p :: ps =>
    (∀ s ∈ p.splice?, s.span = ⟨offset, offset + Text.byteLength p.old⟩) ∧
      Placed (offset + Text.byteLength p.old) ps

end Patch

open Patch (Placed)

namespace Splice

/-- **What is woven from patches and their splices is what becomes of them.** -/
theorem weave_splices {patches : List Patch} {offset : ℕ} (front : List Char)
    (h : Placed (offset + Text.byteLength front) patches) :
    weave offset (front ++ patches.flatMap Patch.old) (patches.filterMap Patch.splice?) =
      front ++ patches.flatMap Patch.new := by
  -- What stands in front of the next splice is not woven before that splice is.
  induction patches generalizing offset front with
  | nil => rfl
  | cons p patches ih =>
    obtain ⟨hspan, hpatches⟩ := h
    rw [List.flatMap_cons, List.flatMap_cons, p.new_eq, List.filterMap_cons]
    cases hsplice : p.splice? with
    | none =>
      rw [Nat.add_assoc, ← Text.byteLength_append] at hpatches
      simpa using ih (front ++ p.old) hpatches
    | some s =>
      have hs := hspan s hsplice
      have hfront : s.span.start - offset = Text.byteLength front := by
        rw [hs]
        exact Nat.add_sub_cancel_left _ _
      have hold : s.span.stop - offset = Text.byteLength (front ++ p.old) := by
        rw [hs, Text.byteLength_append, Nat.add_assoc]
        exact Nat.add_sub_cancel_left _ _
      have hstop : s.span.stop = offset + Text.byteLength front + Text.byteLength p.old := by
        rw [hs]
      have hnext := @ih s.span.stop [] (by simpa [hstop] using hpatches)
      simp only [List.nil_append] at hnext
      have hkeep : ¬ s.span.start < offset := by
        rw [hs]
        exact Nat.not_lt.mpr (Nat.le_add_right _ _)
      dsimp only
      rw [weave, if_neg hkeep, hfront, hold, ← List.append_assoc front, Text.dropBytes?_append,
        List.append_assoc front, Text.takeBytes?_append]
      simp [hnext]

/-! ### Sorting -/

/-- Inserting a splice adds it and nothing else. -/
private theorem insert_perm (s : Splice) (ss : List Splice) : (insert s ss).Perm (s :: ss) := by
  induction ss with
  | nil => exact .refl _
  | cons t ts ih =>
    rw [insert]
    split_ifs
    · exact .refl _
    · exact (ih.cons t).trans (.swap s t ts)

/-- Sorting keeps the splices. -/
theorem sort_perm (ss : List Splice) : (sort ss).Perm ss := by
  have hfold : ∀ sorted : List Splice,
      (ss.foldl (fun sorted s => insert s sorted) sorted).Perm (ss ++ sorted) := by
    induction ss with
    | nil => exact fun _ => .refl _
    | cons s ss ih =>
      exact fun sorted => (ih _).trans (((insert_perm s sorted).append_left ss).trans
        List.perm_middle)
  simpa [sort] using hfold []

/-- Inserting a splice keeps them in the order of their places. -/
private theorem pairwise_insert {s : Splice} {ss : List Splice}
    (h : ss.Pairwise fun a b => a.span.start ≤ b.span.start) :
    (insert s ss).Pairwise fun a b => a.span.start ≤ b.span.start := by
  induction ss with
  | nil => exact List.pairwise_singleton _ _
  | cons t ts ih =>
    obtain ⟨ht, hts⟩ := List.pairwise_cons.mp h
    rw [insert]
    split_ifs with hlt
    · refine List.pairwise_cons.mpr ⟨List.forall_mem_cons.mpr ⟨hlt.le, fun u hu => ?_⟩, h⟩
      exact hlt.le.trans (ht u hu)
    · refine List.pairwise_cons.mpr ⟨fun u hu => ?_, ih hts⟩
      rcases List.mem_cons.mp ((insert_perm s ts).subset hu) with rfl | hu
      · exact Nat.not_lt.mp hlt
      · exact ht u hu

/-- Sorted splices stand in the order of their places. -/
private theorem pairwise_sort (ss : List Splice) :
    (sort ss).Pairwise fun a b => a.span.start ≤ b.span.start := by
  have hfold : ∀ sorted : List Splice, (sorted.Pairwise fun a b => a.span.start ≤ b.span.start) →
      (ss.foldl (fun sorted s => insert s sorted) sorted).Pairwise
        fun a b => a.span.start ≤ b.span.start := by
    induction ss with
    | nil => exact fun _ h => h
    | cons s ss ih => exact fun sorted h => ih _ (pairwise_insert h)
  exact hfold [] .nil

/-- Splices whose starts differ are sorted in one way only. -/
theorem sort_eq_of_perm {ss ts : List Splice} (hperm : ss.Perm ts)
    (hlt : ts.Pairwise fun a b => a.span.start < b.span.start) : sort ss = ts := by
  have hall := (sort_perm ss).trans hperm
  have hne : (sort ss).Pairwise fun a b => a.span.start ≠ b.span.start :=
    (hall.pairwise_iff fun {_ _} h => h.symm).mpr (hlt.imp fun h => Nat.ne_of_lt h)
  have hsorted : (sort ss).Pairwise fun a b => a.span.start < b.span.start :=
    (pairwise_sort ss).imp₂ (fun _ _ hle hne => Nat.lt_of_le_of_ne hle hne) hne
  exact hall.eq_of_pairwise (fun a b _ _ hab hba => absurd hab (Nat.lt_asymm hba)) hsorted hlt

end Splice

end Reifier
