import Reifier.Proofs.Program.Limit
import Reifier.Proofs.Program.Order
import Reifier.Proofs.Program.Simulation

/-!
# Sources that are put together

A source is read statement by statement, and what is wrong with one statement says nothing about the
next one. Let a source end with a semicolon, and let no end of it open more brackets than it closes.
Then a second source on a line of its own behind it is read as it is read alone, only further on,
and the first one is read as it is read alone (`parse_append`). So whatever is wrong with the first
source, no declaration of the second one is lost or altered by it.
-/

namespace Reifier

/-! ### Nothing is found behind the end -/

/-- Placed tokens lie between the offset and the end of the text. -/
private theorem Token.stop_le_of_mem_place {ps : List Piece} {offset : ℕ} {t : Token}
    (h : t ∈ place offset ps) : t.span.start ≤ t.span.stop ∧
      t.span.stop ≤ offset + Text.byteLength (ps.flatMap Piece.chars) := by
  induction ps generalizing offset with
  | nil => cases h
  | cons p ps ih =>
    rw [List.flatMap_cons, Text.byteLength_append, ← Nat.add_assoc]
    rcases List.mem_cons.mp h with rfl | h
    · exact ⟨Nat.le_add_right _ _, Nat.le_add_right _ _⟩
    · exact ih h

/-- Tokens end at the end of their text at the latest. -/
private theorem Token.stop_le_of_mem_scan {source : String} {t : Token} (h : t ∈ scan source) :
    t.span.start ≤ t.span.stop ∧ t.span.stop ≤ Text.byteLength source.toList := by
  have hstop := stop_le_of_mem_place h
  rwa [flatMap_chars_joinUnexpected, flatMap_chars_pieces, Nat.zero_add] at hstop

namespace Cursor

/-- Nothing that a cursor has ahead, has taken or has reported stands behind the end of the source,
at `bytes`. -/
structure UpTo (bytes : ℕ) (c : Cursor) : Prop where
  endOffset : c.endOffset = bytes
  lastEnd : c.lastEnd ≤ bytes
  lastReport : ∀ start, c.lastReport = some start → start ≤ bytes
  rest : ∀ l ∈ c.rest, l.token.span.start ≤ bytes ∧ l.token.span.stop ≤ bytes

/-- What is ahead begins in the source, or at its end. -/
private theorem UpTo.nextStart_le {bytes : ℕ} {c : Cursor} (h : c.UpTo bytes) :
    c.nextStart ≤ bytes := by
  unfold nextStart
  split
  · exact h.endOffset.le
  · rename_i l ls hrest
    exact (h.rest l (by rw [hrest]; exact List.mem_cons_self)).1

/-- No move leads behind the end of the source. -/
private theorem Reaches.upTo {bytes : ℕ} {c d : Cursor} (h : c.Reaches d) (hc : c.UpTo bytes) :
    d.UpTo bytes := by
  induction h with
  | refl => exact hc
  | trans _ _ ih₁ ih₂ => exact ih₂ (ih₁ hc)
  | @take c l ls hrest =>
    have hl := hc.rest l (by rw [hrest]; exact List.mem_cons_self)
    refine ⟨hc.endOffset, hl.2, hc.lastReport, fun k hk => hc.rest k ?_⟩
    rw [hrest]
    exact List.mem_cons_of_mem l hk
  | settle c =>
    unfold settled
    split
    · exact hc
    · rename_i l ls hrest
      refine ⟨hc.endOffset, hc.lastEnd, hc.lastReport, fun k hk => ?_⟩
      rcases List.mem_cons.mp hk with rfl | hk
      · exact hc.rest l (by rw [hrest]; exact List.mem_cons_self)
      · exact hc.rest k (by rw [hrest]; exact List.mem_cons_of_mem l hk)
  | report c kind detail =>
    unfold Cursor.report
    split_ifs
    · exact hc
    · refine ⟨hc.endOffset, hc.lastEnd, ?_, hc.rest⟩
      rintro _ ⟨⟩
      exact hc.nextStart_le
  -- Going back takes the lexemes that were ahead, and keeps the rest of where it has come to.
  | rewind _ ih =>
    have hnext := ih hc
    exact ⟨hnext.endOffset, hnext.lastEnd, hnext.lastReport, hc.rest⟩
  | nest _ ih =>
    have hnext := ih ⟨hc.endOffset, hc.lastEnd, hc.lastReport, hc.rest⟩
    exact ⟨hnext.endOffset, hnext.lastEnd, hnext.lastReport, hnext.rest⟩

end Cursor

namespace Placement

/-! ### In front of a text -/

/-- Whether a cursor in the longer text stands in front of the text at whose start the cursor `c`
is. The blank space before the text may be different. -/
structure Arrives (σ : Placement) (c d : Cursor) : Prop extends σ.Finds c d where
  ends : σ.Ends
  rest : Lexeme.SameButStart (c.rest.map (Lexeme.moved σ.offset)) d.rest

namespace Arrives

variable {σ : Placement} {c d : Cursor} (h : σ.Arrives c d)
include h

/-- Two cursors that have arrived have the same tokens ahead, moved. Only what stands before the
first of them may differ, and not in its comments. -/
private theorem cases_rest :
    (c.rest = [] ∧ d.rest = []) ∨ ∃ l ls before, c.rest = l :: ls ∧
      d.rest = ⟨before, l.token.moved σ.offset⟩ :: ls.map (Lexeme.moved σ.offset) ∧
      before.comments = l.before.comments.map (Comment.moved σ.offset) := by
  have hrest := h.rest
  cases hc : c.rest with
  | nil =>
    cases hd : d.rest with
    | nil => exact .inl ⟨rfl, rfl⟩
    | cons m ms =>
      rw [hc, hd] at hrest
      exact hrest.elim
  | cons l ls =>
    cases hd : d.rest with
    | nil =>
      rw [hc, hd] at hrest
      exact hrest.elim
    | cons m ms =>
      rw [hc, hd] at hrest
      obtain ⟨before, token⟩ := m
      obtain ⟨rfl, hcomments, rfl⟩ := hrest
      exact .inr ⟨l, ls, before, rfl, rfl, hcomments⟩

/-- At the end of the source there is no blank space to be different. -/
private theorem places (hc : c.rest = []) : σ.Places c d := by
  rcases h.cases_rest with ⟨-, hd⟩ | ⟨l, ls, before, hcons, -⟩
  · refine ⟨h.toFinds, ?_⟩
    rw [hc, hd, h.ends.1]
    rfl
  · rw [hc] at hcons
    cases hcons

/-- When the comments before the text are recorded the blank space is no longer looked at. -/
private theorem settled : σ.Places c.settled d.settled := by
  rcases h.cases_rest with ⟨hc, hd⟩ | ⟨l, ls, before, hc, hd, hcomments⟩
  · unfold Cursor.settled
    rw [hc, hd]
    exact h.places hc
  · unfold Cursor.settled
    rw [hc, hd]
    refine ⟨⟨h.endOffset, h.lastEnd, ?_, h.diagnostics, h.lastReport⟩, ?_⟩
    · change d.comments ++ before.comments = _
      rw [h.comments, hcomments, List.map_append, List.append_assoc]
    · rw [h.ends.1, List.append_nil]
      rfl

/-- The comments ahead of the second cursor have the numbers of those ahead of the first, counted on
from the comments in front. -/
private theorem commentIds : List.range' d.comments.length d.commentsAhead.length =
    (List.range' c.comments.length c.commentsAhead.length).map (σ.comments.length + ·) := by
  refine h.toFinds.commentIds ?_
  unfold Cursor.commentsAhead
  rcases h.cases_rest with ⟨hc, hd⟩ | ⟨l, ls, before, hc, hd, hcomments⟩
  · rw [hc, hd]
  · rw [hc, hd]
    exact (congrArg List.length hcomments).trans (List.length_map _)

end Arrives

end Placement

namespace Program

open Reifier.TypeExpr
open Reifier.Parser (Follows)

/-! ### The last text -/

/-- A text behind which nothing follows is read to its end. -/
private theorem bodyLoop_of_arrives {σ : Placement} {type type' : Parser TypeExpr}
    (h : ∀ depth, Follows σ depth type type' (TypeExpr.moved σ.offset)) {m n : ℕ}
    {items : List (Item Statement)} {c d next : Cursor} (hcd : σ.Arrives c d)
    (hrun : bodyLoop type n c = .done items next) :
    ∃ next', σ.Places next next' ∧
      bodyLoop type' (n + m) d = .done (items.map (movedItem σ)) next' := by
  have hends : ∀ {depth c}, σ.Within depth c := .inl hcd.ends
  have hread : ReadsPast σ type' m items next (bodyLoop type' (n + m) d) := by
    obtain _ | n := n
    · cases hrun
    by_cases hc : c.rest = []
    · exact readsPast_bodyLoop h (hcd.places hc) hends.past hrun
    · have hd : d.rest ≠ [] := by
        rcases hcd.cases_rest with ⟨hnil, -⟩ | ⟨l, ls, before, -, hcons, -⟩
        · exact absurd hnil hc
        · rw [hcons]
          exact List.cons_ne_nil _ _
      rw [bodyLoop_of_ne_nil type n hc] at hrun
      rw [Nat.add_right_comm, bodyLoop_of_ne_nil type' (n + m) hd, hcd.commentIds]
      exact readsPast_bodyRound h (readsPast_bodyLoop h) hcd.settled hends hrun
  -- Behind the text there is nothing, so no further item is read.
  obtain ⟨hend, k, next', hnext, hgoes⟩ := hread
  have hend' : next'.rest = [] := by
    rw [hnext.rest, hend, hcd.ends.1]
    rfl
  refine ⟨next', hnext, hgoes.trans ?_⟩
  rw [Nat.add_right_comm, Parser.bind_of_done (bodyLoop_of_nil type' (k + m) hend')]
  exact congrArg (Outcome.done · next') (List.append_nil _)

/-! ### Sources -/

/-- Without a limit the statements of a source are read to its end, and nothing is found behind
it. -/
private theorem exists_statements_done {source : String} {lexemes : List Lexeme} {after : Trivia}
    (hlexemes : Lexeme.ofTokens (Token.scan source) = (lexemes, after)) :
    ∃ body next, statements none lexemes (startCursor (Text.byteLength source.toList) lexemes) =
      .done body next ∧ next.UpTo (Text.byteLength source.toList) := by
  let start := startCursor (Text.byteLength source.toList) lexemes
  have hstart : start.UpTo (Text.byteLength source.toList) := by
    refine ⟨rfl, Nat.zero_le _, by rintro _ ⟨⟩, fun l hl => ?_⟩
    have htokens := Lexeme.sublist_of_ofTokensAfter Trivia.none (Token.scan source)
    rw [← Lexeme.ofTokens, hlexemes] at htokens
    have hstop := Token.stop_le_of_mem_scan (htokens.subset (List.mem_map_of_mem hl))
    exact ⟨hstop.1.trans hstop.2, hstop.2⟩
  have hle : LimitLe none none := trivial
  have hagrees := agrees_statements hle lexemes start (Nat.zero_le _) le_rfl
  cases hread : statements none lexemes start with
  | done body next =>
    rw [hread] at hagrees
    exact ⟨body, next, rfl, hagrees.2.upTo hstart⟩
  | failed next => exact absurd hread (neverFails_bodyLoop _ _ start next)
  | halted cause next =>
    rw [hread] at hagrees
    exact absurd rfl hagrees.1.2

/-- The statements of a text that ends outside all brackets are read first, also when further
lexemes follow. -/
private theorem exists_statements_append {ls : List Lexeme} (hends : Lexeme.EndsOutside 0 ls)
    (ms : List Lexeme) {bytes : ℕ} (behind : ℕ) {body : List (Item Statement)} {next : Cursor}
    (hread : statements none ls (startCursor bytes ls) = .done body next) :
    next.rest = [] ∧ ∃ k mid, Placement.Places ⟨0, [], [], ms, behind⟩ next mid ∧
      statements none (ls ++ ms) (startCursor (bytes + behind) (ls ++ ms)) =
        (do return body ++
          (← bodyLoop (nested none ((ls ++ ms).length + 1)).whole (k + 1 + ms.length))) mid := by
  let σ : Placement := ⟨0, [], [], ms, behind⟩
  have hplaces : σ.Places (startCursor bytes ls) (startCursor (bytes + behind) (ls ++ ms)) := by
    refine ⟨⟨rfl, rfl, rfl, rfl, fun start => ⟨by rintro ⟨⟩, by rintro ⟨⟩⟩⟩, ?_⟩
    change ls ++ ms = ls.map (Lexeme.moved 0) ++ ms
    rw [Lexeme.moved_zero, List.map_id]
  have hwithin : σ.Within 0 (startCursor bytes ls) := .inr hends
  have hle : ls.length + 1 ≤ (ls ++ ms).length + 1 := by simp
  obtain ⟨hend, k, mid, hmid, hrun⟩ := readsPast_bodyLoop (m := ms.length)
    (fun depth => (follows_nested hle depth).1) hplaces hwithin.past hread
  refine ⟨hend, k, mid, hmid, ?_⟩
  -- The first text stands where it stood, and nothing in it is moved.
  have hitems : body.map (movedItem σ) = body := by
    have hmoved : movedItem σ = id := by
      funext item
      change item.moved (Statement.moved 0 0) 0 = item
      rw [Statement.moved_zero, Item.moved_zero]
      rfl
    rw [hmoved, List.map_id]
  have hrounds : (ls ++ ms).length + 1 = ls.length + 1 + ms.length := by
    rw [List.length_append]
    omega
  rw [hitems] at hrun
  change bodyLoop _ ((ls ++ ms).length + 1) _ = _
  nth_rewrite 2 [hrounds]
  exact hrun

/-- Behind all that has been found of a source one stands in front of the next source. -/
private theorem arrives_of_upTo {b₁ b₂ : ℕ} {ls ms : List Lexeme} {next mid : Cursor}
    (hupTo : next.UpTo b₁) (hend : next.rest = [])
    (hmid : Placement.Places ⟨0, [], [], ms, 1 + b₂⟩ next mid)
    (hsame : Lexeme.SameButStart (ls.map (Lexeme.moved (b₁ + 1))) ms) :
    Placement.Arrives ⟨b₁ + 1, next.comments, next.diagnostics, [], 0⟩ (startCursor b₂ ls) mid where
  ends := ⟨rfl, rfl⟩
  rest := by
    rw [hmid.rest, hend]
    exact hsame
  endOffset := by
    rw [hmid.endOffset, hupTo.endOffset]
    change b₁ + 0 + (1 + b₂) = b₂ + (b₁ + 1) + 0
    omega
  -- The line break between the texts counts one byte, and nothing ends behind it.
  lastEnd := by
    have hlast := hmid.lastEnd
    have hle := hupTo.lastEnd
    change max mid.lastEnd 0 = next.lastEnd + 0 at hlast
    change max mid.lastEnd (b₁ + 1) = 0 + (b₁ + 1)
    omega
  comments := by
    rw [hmid.comments]
    change [] ++ next.comments.map (Comment.moved 0) = next.comments ++ []
    rw [Comment.moved_zero, List.map_id, List.append_nil, List.nil_append]
  diagnostics := by
    rw [hmid.diagnostics]
    change [] ++ next.diagnostics.map (Diagnostic.moved 0) = next.diagnostics ++ []
    rw [Diagnostic.moved_zero, List.map_id, List.append_nil, List.nil_append]
  lastReport start := by
    refine ⟨fun hreport => ?_, by rintro ⟨⟩⟩
    have hle := hupTo.lastReport _ ((hmid.lastReport (start + (b₁ + 1))).mp hreport)
    omega

/-- The statements of a text that ends outside all brackets, and those of a second one on the lines
behind it. -/
private theorem exists_statements_join {ls₁ ls₂ ms : List Lexeme} {b₁ b₂ : ℕ}
    {body₁ body₂ : List (Item Statement)} {next₁ next₂ : Cursor} (hends : Lexeme.EndsOutside 0 ls₁)
    (hsame : Lexeme.SameButStart (ls₂.map (Lexeme.moved (b₁ + 1))) ms)
    (hread₁ : statements none ls₁ (startCursor b₁ ls₁) = .done body₁ next₁) (hupTo : next₁.UpTo b₁)
    (hread₂ : statements none ls₂ (startCursor b₂ ls₂) = .done body₂ next₂) :
    ∃ last, Placement.Places ⟨b₁ + 1, next₁.comments, next₁.diagnostics, [], 0⟩ next₂ last ∧
      statements none (ls₁ ++ ms) (startCursor (b₁ + (1 + b₂)) (ls₁ ++ ms)) =
        .done (body₁ ++ body₂.map (Item.moved (Statement.moved (b₁ + 1) next₁.comments.length)
          next₁.comments.length)) last := by
  obtain ⟨hend, k, mid, hmid, hfirst⟩ := exists_statements_append hends ms (1 + b₂) hread₁
  have harrives := arrives_of_upTo hupTo hend hmid hsame
  have hlength : ms.length = ls₂.length := by rw [hsame.length_eq, List.length_map]
  have hle : ls₂.length + 1 ≤ (ls₁ ++ ms).length + 1 := by
    rw [List.length_append]
    omega
  obtain ⟨last, hlast, hsecond⟩ := bodyLoop_of_arrives (m := k)
    (fun depth => (follows_nested hle depth).1) harrives hread₂
  refine ⟨last, hlast, ?_⟩
  have hrounds : k + 1 + ms.length = ls₂.length + 1 + k := by omega
  rw [hfirst, hrounds]
  exact Parser.bind_of_done hsecond _

/-- Moving statements moves the declarations in them. -/
private theorem declarations_map_moved (bytes count : ℕ) (items : List (Item Statement)) :
    Item.declarations (items.map (Item.moved (Statement.moved bytes count) count)) =
      (Item.declarations items).map (Declaration.moved bytes) := by
  have hstatement : ∀ stmt : Statement, (stmt.moved bytes count).declarations =
      stmt.declarations.map (Declaration.moved bytes) := by
    intro stmt
    cases stmt with
    | verbatim text =>
      change (text.nested.map (Item.moved (Declaration.moved bytes) count)).map Item.node =
        (text.nested.map Item.node).map (Declaration.moved bytes)
      rw [List.map_map, List.map_map]
      rfl
    | _ => rfl
  induction items with
  | nil => rfl
  | cons item items ih =>
    rw [List.map_cons, Item.declarations_cons, ih, Item.declarations_cons, List.map_append,
      ← hstatement]
    rfl

/-- What is read of two sources, one on the lines behind the other: the second is `bytes` further
on, behind the comments of the first. -/
structure Reading.Joins (bytes : ℕ) (first second whole : Reading) : Prop where
  body : whole.program.body = first.program.body ++ second.program.body.map (Item.moved
    (Statement.moved bytes first.program.comments.length) first.program.comments.length)
  diagnostics : whole.diagnostics =
    first.diagnostics ++ second.diagnostics.map (Diagnostic.moved bytes)
  comments : whole.program.comments =
    first.program.comments ++ second.program.comments.map (Comment.moved bytes)
  trailing : whole.program.trailing =
    second.program.trailing.map (first.program.comments.length + ·)

/-- No declaration of the second source is lost or altered, and none is added. -/
private theorem Reading.Joins.declarations {bytes : ℕ} {first second whole : Reading}
    (h : Joins bytes first second whole) : whole.program.declarations =
      first.program.declarations ++ second.program.declarations.map (Declaration.moved bytes) := by
  rw [Program.declarations, h.body, Item.declarations, List.flatMap_append, ← Item.declarations,
    ← Item.declarations, declarations_map_moved]
  rfl

/-- **Reading is compositional at the end of a statement, also where statements are wrong.** Let a
source end with a semicolon, and let no last tokens of it open more brackets than they close. With
any other source on a line of its own behind it, it is read as it is read alone, and so is the other
source, further on by the first one and the line break. No declaration of it is lost or altered. -/
theorem parse_append {first : String}
    (hlast : (Token.scan first).getLast?.map Token.kind = some .semicolon)
    (hbalance : ∀ ts, ts <:+ Token.scan first →
      ts.countP (·.kind.isOpen) ≤ ts.countP (·.kind.isClose)) (second : String) :
    ∃ r₁ r₂ r, parse none first = .ok r₁ ∧ parse none second = .ok r₂ ∧
      parse none (first ++ "\n" ++ second) = .ok r ∧
      Reading.Joins (Text.byteLength first.toList + 1) r₁ r₂ r ∧
      r.program.declarations = r₁.program.declarations ++
        r₂.program.declarations.map (Declaration.moved (Text.byteLength first.toList + 1)) := by
  -- The lexemes of both, and those of the second source behind the first one.
  obtain ⟨ls₁, hls₁⟩ : ∃ ls, Lexeme.ofTokens (Token.scan first) = (ls, Trivia.none) :=
    ⟨_, Prod.ext rfl (Lexeme.ofTokensAfter_snd_of_getLast? hlast rfl Trivia.none)⟩
  obtain ⟨⟨ls₂, after₂⟩, hls₂⟩ : ∃ all, Lexeme.ofTokens (Token.scan second) = all := ⟨_, rfl⟩
  obtain ⟨ms, after, hls, hsame, hafter⟩ := Lexeme.exists_ofTokens_append hlast second
  rw [hls₁] at hls
  rw [hls₂] at hsame hafter
  dsimp only at hls hsame hafter
  have hends : Lexeme.EndsOutside 0 ls₁ := by
    have hall := hbalance _ List.suffix_rfl
    have hlexemes := Lexeme.endsOutside_ofTokensAfter hlast hbalance
      ((Nat.zero_add _).le.trans hall) Trivia.none
    rwa [← Lexeme.ofTokens, hls₁] at hlexemes
  -- Alone, both are read to their ends.
  obtain ⟨body₁, next₁, hread₁, hupTo⟩ := exists_statements_done hls₁
  obtain ⟨body₂, next₂, hread₂, -⟩ := exists_statements_done hls₂
  obtain ⟨last, hplace, hread⟩ := exists_statements_join hends hsame hread₁ hupTo hread₂
  have hbytes : Text.byteLength (first ++ "\n" ++ second).toList =
      Text.byteLength first.toList + (1 + Text.byteLength second.toList) := by
    have hline : Text.byteLength "\n".toList = 1 := by decide
    rw [String.toList_append, String.toList_append, Text.byteLength_append,
      Text.byteLength_append, hline, Nat.add_assoc]
  rw [← hbytes] at hread
  refine ⟨_, _, _, parse_of_done hls₁ hread₁, parse_of_done hls₂ hread₂, parse_of_done hls hread,
    ?_⟩
  rw [and_iff_left_of_imp Reading.Joins.declarations]
  -- No comment stands behind the semicolon, so the first source has no trailing ones.
  have hcomments : next₁.comments ++ Trivia.none.comments = next₁.comments := List.append_nil _
  constructor
  · dsimp only
    rw [hcomments]
  · exact hplace.diagnostics
  · dsimp only
    rw [hcomments, hplace.comments, hafter, List.map_append, List.append_assoc]
  · dsimp only
    rw [hcomments, hplace.comments, hafter, List.length_append, List.length_map, List.length_map,
      List.map_add_range']

/-- A parenthesis that is closed by a bracket is reported, and the declaration behind it is read. -/
theorem parse_append_misclosed :
    (Token.scan "type A = (B];").getLast?.map Token.kind = some .semicolon ∧
      (∀ ts, ts <:+ Token.scan "type A = (B];" →
        ts.countP (·.kind.isOpen) ≤ ts.countP (·.kind.isClose)) ∧
      ∃ r₁ r₂ r, parse none "type A = (B];" = .ok r₁ ∧ parse none "type C = D;" = .ok r₂ ∧
        parse none ("type A = (B];" ++ "\n" ++ "type C = D;") = .ok r ∧
        Reading.Joins (13 + 1) r₁ r₂ r ∧
        r₁.diagnostics.map Diagnostic.span = [⟨11, 12⟩] ∧
        r₁.program.declarations.map Declaration.span = [] ∧
        r.program.declarations.map Declaration.span = [⟨14, 25⟩] := by
  have hlast : (Token.scan "type A = (B];").getLast?.map Token.kind = some .semicolon := by
    decide +kernel
  have hbalance : ∀ ts, ts <:+ Token.scan "type A = (B];" →
      ts.countP (·.kind.isOpen) ≤ ts.countP (·.kind.isClose) := by
    have htails : ∀ ts ∈ (Token.scan "type A = (B];").tails,
        ts.countP (·.kind.isOpen) ≤ ts.countP (·.kind.isClose) := by
      decide +kernel
    exact fun ts hts => htails ts ((List.mem_tails ts _).mpr hts)
  obtain ⟨r₁, r₂, r, hr₁, hr₂, hr, hjoins, hdeclarations⟩ :=
    parse_append hlast hbalance "type C = D;"
  have hfirst : (parse none "type A = (B];").toOption.map (fun r => (r.diagnostics.map
      Diagnostic.span, r.program.declarations.map Declaration.span)) = some ([⟨11, 12⟩], []) := by
    decide +kernel
  have hsecond : (parse none "type C = D;").toOption.map
      (fun r => r.program.declarations.map Declaration.span) = some [⟨0, 11⟩] := by
    decide +kernel
  rw [hr₁] at hfirst
  rw [hr₂] at hsecond
  obtain ⟨hdiagnostics, hnone⟩ := Prod.mk.inj (Option.some.inj hfirst)
  have hsome : r₂.program.declarations.map Declaration.span = [⟨0, 11⟩] := Option.some.inj hsecond
  refine ⟨hlast, hbalance, r₁, r₂, r, hr₁, hr₂, hr, hjoins, hdiagnostics, hnone, ?_⟩
  have hspan : Declaration.span ∘ Declaration.moved 14 = Span.moved 14 ∘ Declaration.span :=
    funext (Declaration.span_moved 14)
  -- The declaration of the second text has been moved by the length of the first and the line
  -- break.
  calc r.program.declarations.map Declaration.span
    _ = r₁.program.declarations.map Declaration.span ++
        (r₂.program.declarations.map Declaration.span).map (Span.moved 14) := by
      rw [hdeclarations, List.map_append, List.map_map, List.map_map, ← hspan]
      rfl
    _ = [⟨14, 25⟩] := by
      rw [hnone, hsome]
      rfl

end Program

end Reifier
