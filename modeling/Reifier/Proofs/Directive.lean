import Mathlib.Tactic
import Reifier.Directive

/-!
# Which comments contain the directive

A comment is edited exactly if the directive is not empty and stands somewhere in its text
(`edit?_ne_none_iff`), so a unit takes part exactly if it has such a comment (`scan_ne_nil_iff`).
All comments stay what they are and where they are, and no text gains a character
(`becomes_applyAll`).
-/

namespace Reifier

/-- What is found is what stands somewhere in the text. -/
theorem Text.isSome_cut?_iff {needle text : List Char} :
    (Text.cut? needle text).isSome = true ↔ needle <:+: text := by
  induction text with
  | nil =>
    rw [List.infix_nil, ← List.isEmpty_iff]
    unfold cut?
    split_ifs with hempty <;> simp [hempty]
  | cons c cs ih =>
    rw [List.infix_cons_iff, ← ih, ← List.isPrefixOf_iff_prefix, cut?]
    split_ifs with hprefix
    · exact iff_of_true rfl (.inl hprefix)
    · rw [Option.isSome_map, or_iff_right hprefix]

namespace Directive

variable {directive : String}

/-- A comment is edited if the directive is not empty and stands in it. -/
theorem edit?_ne_none_iff {id : CommentId} {comment : Comment} :
    edit? directive id comment ≠ none ↔
      directive ≠ "" ∧ directive.toList <:+: comment.text.toList := by
  have hempty : directive.isEmpty = true ↔ directive = "" := String.isEmpty_iff
  rw [← Text.isSome_cut?_iff]
  unfold edit? Text.erase?
  split_ifs with h
  · simp [hempty.mp h]
  · simp [mt hempty.mpr h, Option.isSome_iff_ne_none]

/-- **A unit takes part exactly if one of its comments contains the directive.** The empty directive
counts as contained in none. -/
theorem scan_ne_nil_iff {comments : List Comment} :
    scan directive comments ≠ [] ↔
      directive ≠ "" ∧ ∃ c ∈ comments, directive.toList <:+: c.text.toList := by
  have hfrom : ∀ id, scanFrom directive id comments ≠ [] ↔
      ∃ c ∈ comments, directive ≠ "" ∧ directive.toList <:+: c.text.toList := by
    induction comments with
    | nil => simp [scanFrom]
    | cons c cs ih =>
      intro id
      rw [List.exists_mem_cons_iff, ← ih (id + 1), ← @edit?_ne_none_iff _ id, scanFrom]
      cases edit? directive id c <;> simp
  rw [scan, hfrom]
  constructor
  · rintro ⟨c, hc, hne, hinfix⟩
    exact ⟨hne, c, hc, hinfix⟩
  · rintro ⟨hne, c, hc, hinfix⟩
    exact ⟨c, hc, hne, hinfix⟩

end Directive

/-! ### What becomes of comments -/

/-- What is left after cutting out a part has no characters of its own. -/
private theorem Text.sublist_of_cut? {needle text before after : List Char}
    (h : Text.cut? needle text = some (before, after)) : (before ++ after).Sublist text := by
  induction text generalizing before with
  | nil =>
    unfold cut? at h
    split_ifs at h
    cases h
    exact .slnil
  | cons c cs ih =>
    rw [cut?] at h
    split_ifs at h
    · cases h
      exact List.drop_sublist _ _
    · obtain ⟨⟨front, rest⟩, hcut, hboth⟩ := Option.map_eq_some_iff.mp h
      cases hboth
      exact (ih hcut).cons_cons c

/-- What a comment may become: its kind and its place stay, and its text gains no character. -/
structure Comment.Becomes (comment next : Comment) : Prop where
  kind : next.kind = comment.kind
  span : next.span = comment.span
  text : next.text.toList ⊆ comment.text.toList

namespace Directive

/-- An edit takes characters out of the comment that it is made in. -/
private theorem exists_of_mem_scanFrom {directive : String} {id : CommentId}
    {comments : List Comment} {e : Edit} (h : e ∈ scanFrom directive id comments) :
    ∃ i comment, comments[i]? = some comment ∧ e.comment = id + i ∧
      e.text.toList ⊆ comment.text.toList := by
  induction comments generalizing id with
  | nil => cases h
  | cons c cs ih =>
    rcases List.mem_append.mp h with h | h
    · obtain hedit := Option.mem_toList.mp h
      unfold edit? at hedit
      split_ifs at hedit
      · obtain ⟨text, herase, rfl⟩ := Option.map_eq_some_iff.mp hedit
        obtain ⟨⟨before, after⟩, hcut, rfl⟩ := Option.map_eq_some_iff.mp herase
        refine ⟨0, c, rfl, rfl, ?_⟩
        rw [String.toList_ofList]
        exact (Text.sublist_of_cut? hcut).subset
    · obtain ⟨i, comment, hcomment, hid, htext⟩ := ih h
      exact ⟨i + 1, comment, hcomment, by rw [hid, Nat.add_assoc, Nat.add_comm 1], htext⟩

/-- Applying an edit to what comments have become gives what they may become, if the edit only
leaves out characters of its comment. -/
private theorem becomes_apply {comments next : List Comment} {e : Edit}
    (h : List.Forall₂ Comment.Becomes comments next)
    (he : ∃ comment, comments[e.comment]? = some comment ∧
      e.text.toList ⊆ comment.text.toList) :
    List.Forall₂ Comment.Becomes comments (e.apply next) := by
  rw [List.forall₂_iff_get] at h ⊢
  obtain ⟨hlength, hall⟩ := h
  obtain ⟨comment, hcomment, htext⟩ := he
  refine ⟨by rw [hlength, Edit.apply, List.length_modify], fun i hlt hlt' => ?_⟩
  have hi := hall i hlt (hlength ▸ hlt)
  simp only [Edit.apply, List.get_eq_getElem, List.getElem_modify] at hi ⊢
  split_ifs with hid
  · rw [hid, List.getElem?_eq_getElem hlt] at hcomment
    refine ⟨hi.kind, hi.span, ?_⟩
    rwa [Option.some.inj hcomment]
  · exact hi

/-- **Taking the directive out leaves all comments in place.** -/
theorem becomes_applyAll (directive : String) (comments : List Comment) :
    List.Forall₂ Comment.Becomes comments (applyAll (scan directive comments) comments) := by
  have hedits : ∀ e ∈ scan directive comments, ∃ comment, comments[e.comment]? = some comment ∧
      e.text.toList ⊆ comment.text.toList := by
    intro e he
    obtain ⟨i, comment, hcomment, hid, htext⟩ := exists_of_mem_scanFrom he
    rw [Nat.zero_add] at hid
    exact ⟨comment, hid ▸ hcomment, htext⟩
  have hall : ∀ (edits : List Edit) (next : List Comment),
      (∀ e ∈ edits, ∃ comment, comments[e.comment]? = some comment ∧
        e.text.toList ⊆ comment.text.toList) →
      List.Forall₂ Comment.Becomes comments next →
      List.Forall₂ Comment.Becomes comments (applyAll edits next) := by
    intro edits
    induction edits with
    | nil => exact fun _ _ hnext => hnext
    | cons e edits ih =>
      intro next he hnext
      obtain ⟨hfirst, hrest⟩ := List.forall_mem_cons.mp he
      exact ih _ hrest (becomes_apply hnext hfirst)
  exact hall _ _ hedits (List.forall₂_same.mpr fun _ _ => ⟨rfl, rfl, List.Subset.refl _⟩)

end Directive

end Reifier
