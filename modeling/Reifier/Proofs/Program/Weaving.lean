import Reifier.Proofs.Program.Rendering
import Reifier.Proofs.Program.Stripping

/-!
# What splices leave of a source

A text is woven from a source and splices if it is what stands in the source between two offsets,
apart from the spans of the splices, in whose places their texts stand (`Splice.Woven`). The patches
of a statement are woven in this way (`Patch.Placed.woven`).

What a splice puts into the place of a declaration is indented like the line of the source on which
the declaration begins (`IndentAt`), and what it puts into the place of a comment is what an edit of
the directive leaves of it (`Directive.Edit.splice`).
-/

namespace Reifier

/-! ### Texts with splices -/

/-- What stands in a source from `offset` to `stop` when splices have been put in. No splice begins
before what is in front of it ends. -/
inductive Splice.Woven (source : List Char) : ℕ → List Splice → ℕ → List Char → Prop
  | nil {offset stop : ℕ} {kept : List Char}
      (h : Text.slice? source ⟨offset, stop⟩ = some kept) : Woven source offset [] stop kept
  | cons {offset stop : ℕ} {s : Splice} {ss : List Splice} {kept printed : List Char}
      (hkept : Text.slice? source ⟨offset, s.span.start⟩ = some kept)
      (rest : Woven source s.span.stop ss stop printed) :
      Woven source offset (s :: ss) stop (kept ++ s.text.toList ++ printed)

namespace Patch

variable {ps : List Patch} {offset : ℕ}

/-- **What becomes of patches is woven from their characters and splices.** -/
theorem Placed.woven {before front : List Char}
    (h : Placed (Text.byteLength before + Text.byteLength front) ps) (behind : List Char) :
    Splice.Woven (before ++ front ++ ps.flatMap old ++ behind) (Text.byteLength before)
      (ps.filterMap splice?)
      (Text.byteLength before + Text.byteLength front + Text.byteLength (ps.flatMap old))
      (front ++ ps.flatMap new) := by
  -- What stands in front of the next splice is kept with it.
  induction ps generalizing before front with
  | nil =>
    refine .nil ?_
    simpa using Text.slice?_append before front behind
  | cons p ps ih =>
    obtain ⟨hspan, hps⟩ := h
    rw [List.flatMap_cons, List.flatMap_cons, List.filterMap_cons, p.new_eq]
    cases hsplice : p.splice? with
    | none =>
      rw [Nat.add_assoc, ← Text.byteLength_append] at hps
      have hnext := ih hps
      simpa [List.append_assoc, Nat.add_assoc] using hnext
    | some s =>
      have hs := hspan s hsplice
      have hkept : Text.slice? (before ++ front ++ (p.old ++ ps.flatMap old) ++ behind)
          ⟨Text.byteLength before, s.span.start⟩ = some front := by
        rw [hs]
        simpa [List.append_assoc] using
          Text.slice?_append before front (p.old ++ ps.flatMap old ++ behind)
      have hnext := @ih (before ++ front ++ p.old) [] (by simpa [Nat.add_assoc] using hps)
      have hstop : s.span.stop = Text.byteLength (before ++ front ++ p.old) := by
        rw [hs]
        simp [Nat.add_assoc]
      rw [← hstop] at hnext
      have hwoven := Splice.Woven.cons hkept (by simpa [List.append_assoc] using hnext)
      simpa [List.append_assoc, Nat.add_assoc, hstop] using hwoven

/-- The splices of patches lie apart, one behind the other. -/
theorem Placed.pairwise_apart (h : Placed offset ps) :
    (ps.filterMap splice?).Pairwise fun s t => s.span.stop ≤ t.span.start := by
  induction ps generalizing offset with
  | nil => exact .nil
  | cons p ps ih =>
    obtain ⟨hspan, hps⟩ := h
    rw [List.filterMap_cons]
    split
    · exact ih hps
    · rename_i s hs
      refine List.pairwise_cons.mpr ⟨fun t ht => ?_, ih hps⟩
      rw [hspan s hs]
      exact (hps.within t ht).1

end Patch

/-! ### Indentation -/

/-- The blank space in front of an offset on its line of a source; nothing if something else stands
there. -/
def IndentAt (source : List Char) (offset : ℕ) (indent : List Char) : Prop :=
  ∃ front line, Text.takeBytes? source offset = some (front ++ line) ∧
    (∀ c ∈ front.getLast?, c = '\n') ∧ '\n' ∉ line ∧
    indent = if ∀ c ∈ line, c = ' ' ∨ c = '\t' then line else []

/-- Every text ends with a line. -/
private theorem exists_line (cs : List Char) :
    ∃ front line, cs = front ++ line ∧ (∀ c ∈ front.getLast?, c = '\n') ∧ '\n' ∉ line := by
  refine ⟨(cs.reverse.dropWhile (· ≠ '\n')).reverse, (cs.reverse.takeWhile (· ≠ '\n')).reverse,
    ?_, fun c hc => ?_, fun hmem => ?_⟩
  · rw [← List.reverse_append, List.takeWhile_append_dropWhile, List.reverse_reverse]
  · rw [List.getLast?_reverse] at hc
    have hfirst := List.head?_dropWhile_not (fun c => decide (c ≠ '\n')) cs.reverse
    rw [Option.mem_def.mp hc] at hfirst
    simpa using hfirst
  · have hne := List.all_eq_true.mp List.all_takeWhile _ (List.mem_reverse.mp hmem)
    simp at hne

/-- The indentation of a line is what stands before a place on it, if that is blank. -/
theorem lineIndent_eq {front line : List Char} (hfront : ∀ c ∈ front.getLast?, c = '\n')
    (hline : '\n' ∉ line) (behind : List Char) :
    lineIndent (front ++ line ++ behind) (Text.byteLength (front ++ line)) =
      if ∀ c ∈ line, c = ' ' ∨ c = '\t' then line else [] := by
  have hstop : front.reverse.takeWhile (· ≠ '\n') = [] := by
    cases hlast : front.reverse with
    | nil => rfl
    | cons c cs =>
      have hc := hfront c (by rw [← List.head?_reverse, hlast]; rfl)
      exact List.takeWhile_cons_of_neg (by simp [hc])
  have hlast : ((front ++ line).reverse.takeWhile (· ≠ '\n')).reverse = line := by
    have hall : ∀ c ∈ line.reverse, decide (c ≠ '\n') = true := fun c hc => by
      have hmem := List.mem_reverse.mp hc
      exact decide_eq_true fun heq => hline (heq ▸ hmem)
    rw [List.reverse_append, List.takeWhile_append_of_pos hall, hstop, List.append_nil,
      List.reverse_reverse]
  unfold lineIndent
  rw [Text.takeBytes?_append, Option.getD_some]
  dsimp only
  rw [hlast]
  refine if_congr ?_ rfl rfl
  simp

/-- On its first line a part of a source that begins with something visible indents nothing, and
otherwise its lines are those of the source. -/
theorem indentAt_lineIndent (before : List Char) {part : List Char} (hpart : part ≠ [])
    (hvisible : ∀ c ∈ part.head?, ¬ (c = ' ' ∨ c = '\t')) (rest behind : List Char) :
    IndentAt (before ++ (part ++ rest) ++ behind) (Text.byteLength (before ++ part))
      (lineIndent (part ++ rest) (Text.byteLength part)) := by
  obtain ⟨front, line, rfl, hfront, hline⟩ := exists_line part
  have htake : ∀ cs, Text.takeBytes? (before ++ (front ++ line ++ rest) ++ behind)
      (Text.byteLength (before ++ (front ++ line))) = some cs ↔
        cs = before ++ (front ++ line) := by
    intro cs
    rw [← List.append_assoc before, List.append_assoc, Text.takeBytes?_append, Option.some_inj,
      eq_comm]
  rw [lineIndent_eq hfront hline]
  cases hlast : front.getLast? with
  | some c =>
    refine ⟨before ++ front, line, ?_, ?_, hline, rfl⟩
    · rw [htake, List.append_assoc]
    · rw [List.getLast?_append, hlast, Option.some_or, ← hlast]
      exact hfront
  -- The statement begins on this line, and not with a blank, so that the line is not blank either
  -- way.
  | none =>
    obtain rfl := List.getLast?_eq_none_iff.mp hlast
    obtain ⟨start, first, rfl, hstart, hfirst⟩ := exists_line before
    have hnot : ∀ cs : List Char, ¬ ∀ c ∈ cs ++ line, c = ' ' ∨ c = '\t' := by
      intro cs hall
      obtain ⟨c, line, rfl⟩ := List.exists_cons_of_ne_nil hpart
      exact hvisible c rfl (hall c (List.mem_append_right _ List.mem_cons_self))
    refine ⟨start, first ++ line, ?_, hstart, ?_, ?_⟩
    · rw [htake]
      simp
    · rw [List.mem_append, not_or]
      exact ⟨hfirst, hline⟩
    · rw [if_neg (hnot first), if_neg]
      exact hnot []

/-! ### Edited comments -/

namespace Directive

variable {directive : String}

/-- What goes into the place of a comment that is edited: what is left of it, or nothing. -/
def Edit.splice (edit : Edit) (comment : Comment) : Splice :=
  ⟨comment.span, { comment with text := edit.text, ignored := edit.ignored }.shown⟩

private theorem comment_of_edit? {id : CommentId} {comment : Comment} {e : Edit}
    (h : edit? directive id comment = some e) : e.comment = id := by
  unfold edit? at h
  split_ifs at h
  obtain ⟨text, -, rfl⟩ := Option.map_eq_some_iff.mp h
  rfl

/-- The edits are those of the comments at their places. -/
theorem mem_scan_iff {comments : List Comment} {e : Edit} :
    e ∈ scan directive comments ↔
      ∃ comment, comments[e.comment]? = some comment ∧
        edit? directive e.comment comment = some e := by
  -- The number of the first comment is any one for the induction.
  have hfrom : ∀ id, e ∈ scanFrom directive id comments ↔
      ∃ i comment, comments[i]? = some comment ∧ edit? directive (id + i) comment = some e := by
    induction comments with
    | nil => simp [scanFrom]
    | cons c cs ih =>
      intro id
      have hnext : ∀ i : ℕ, id + 1 + i = id + (i + 1) := fun i => Nat.add_right_comm id 1 i
      rw [scanFrom, List.mem_append, Option.mem_toList, ih]
      constructor
      · rintro (hedit | ⟨i, comment, hcomment, hedit⟩)
        · exact ⟨0, c, rfl, hedit⟩
        · exact ⟨i + 1, comment, hcomment, hnext i ▸ hedit⟩
      · rintro ⟨i, comment, hcomment, hedit⟩
        cases i with
        | zero =>
          cases hcomment
          exact .inl hedit
        | succ i => exact .inr ⟨i, comment, hcomment, (hnext i).symm ▸ hedit⟩
  rw [scan, hfrom]
  constructor
  · rintro ⟨i, comment, hcomment, hedit⟩
    rw [Nat.zero_add] at hedit
    obtain rfl : e.comment = i := comment_of_edit? hedit
    exact ⟨comment, hcomment, hedit⟩
  · rintro ⟨comment, hcomment, hedit⟩
    exact ⟨e.comment, comment, hcomment, by rwa [Nat.zero_add]⟩

/-- An edit takes something out of a comment. -/
private theorem ne_of_edit? {id : CommentId} {comment : Comment} {e : Edit}
    (h : edit? directive id comment = some e) : e.text ≠ comment.text := by
  unfold edit? at h
  split_ifs at h with hempty
  obtain ⟨text, herase, rfl⟩ := Option.map_eq_some_iff.mp h
  obtain ⟨⟨before, after⟩, hcut, rfl⟩ := Option.map_eq_some_iff.mp herase
  intro heq
  have hlength := congrArg List.length (Text.cut?_spec hcut).1
  rw [← heq, String.toList_ofList] at hlength
  have hne : directive.toList ≠ [] := fun hnil =>
    hempty (String.isEmpty_iff.mpr (String.toList_eq_nil_iff.mp hnil))
  have hpos := List.length_pos_iff.mpr hne
  simp only [List.length_append] at hlength
  omega

/-- What is printed of an edited comment is not what was there. -/
private theorem shown_ne_of_edit? {id : CommentId} {comment : Comment} {e : Edit}
    (h : edit? directive id comment = some e) :
    ({ comment with text := e.text, ignored := e.ignored } : Comment).shown ≠ comment.render := by
  have hne := mt String.toList_inj.mp (ne_of_edit? h)
  intro heq
  have hchars := congrArg String.toList heq
  cases hignored : e.ignored with
  | true =>
    cases hkind : comment.kind <;>
      simp [Comment.shown, Comment.render, hignored, hkind] at hchars
  | false =>
    refine hne ?_
    cases hkind : comment.kind <;>
      simpa [Comment.shown, Comment.render, hignored, hkind] using hchars

end Directive

/-- **An edited comment goes into its place, and no other one.** -/
theorem Verbatim.commentSplice?_strip {source directive : String} {t : Token}
    (ht : t ∈ Token.scan source) {comment : Comment} (h : Comment.ofToken? t = some comment) :
    commentSplice? source.toList (Directive.strip directive comment) =
      (Directive.edit? directive 0 comment).map (·.splice comment) := by
  obtain ⟨rfl, hignored⟩ := Comment.token_of_ofToken? ht h
  have hslice : Text.slice? source.toList comment.span = some comment.render.toList :=
    Token.slice?_of_mem_scan ht
  unfold Directive.strip
  cases hedit : Directive.edit? directive 0 comment with
  | none =>
    rw [Option.map_none, commentSplice?, hslice, hignored]
    simp
  | some e =>
    have hne : ({ comment with text := e.text, ignored := e.ignored } : Comment).shown ≠
        comment.render := Directive.shown_ne_of_edit? hedit
    rw [Option.map_some, commentSplice?, hslice]
    refine if_neg fun heq => hne ?_
    rwa [Option.getD_some, String.toList_inj] at heq

end Reifier
