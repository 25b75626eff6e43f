import Reifier.Proofs.Parser.Rejection
import Reifier.Proofs.Program.Limit
import Reifier.Proofs.Program.Simulation

/-!
# Programs of one statement

A text that is written with valid words is read from these words, whatever the limit on nesting
(`exists_parse_write`). If they are the words of a statement the program holds it and nothing else,
and nothing is reported. If they are rejected the statement is left out, and reading goes on behind
its semicolon, so the report is the only one.
-/

namespace Reifier.Program

open Token (Word)
open Reifier.Parser (Reads Rejects)
open Reifier.TypeExpr (nested unlimited)

variable {type : Parser TypeExpr} {ws : List Word} {detail : Option String}
  {kind : Diagnostic.Kind}

/-! ### Statements that are read -/

/-- The statement is all that there is. -/
theorem reads_single {post : Statement → Prop} (h : Reads (statement type) ws [] post)
    (hws : ws ≠ []) :
    Reads (Parser.rounds (bodyLoop type)) ws [] fun body =>
      ∃ stmt, body = [⟨[], stmt⟩] ∧ post stmt := by
  have hend : ∀ n, 0 < n → Reads (bodyLoop type n) [] [] (· = []) := by
    intro n hn
    obtain ⟨n, rfl⟩ := Nat.exists_eq_add_one_of_ne_zero (Nat.ne_of_gt hn)
    exact .test_true (fun c hc => hc.isEmpty_eq) (.pure rfl)
  obtain ⟨w, ws, rfl⟩ := List.exists_cons_of_ne_nil hws
  refine .rounds_of_lt fun n hn => ?_
  obtain ⟨n, rfl⟩ := Nat.exists_eq_add_one_of_ne_zero (Nat.ne_zero_of_lt hn)
  have hpos : 0 < n := by
    rw [List.length_cons] at hn
    omega
  refine .test_false (fun c hc => hc.isEmpty_eq) (.settle_bind ?_)
  have hstatement : Reads (Parser.recover (statement type)) (w :: ws) ([] ++ []) _ := h.recover
  rw [← List.append_nil (_ :: _)]
  refine hstatement.bind ?_
  rintro _ ⟨stmt, rfl, hstmt⟩
  refine (hend n hpos).bind_pure ?_
  rintro _ rfl
  exact ⟨stmt, rfl, hstmt⟩

/-! ### Statements that are rejected -/

/-- Nothing is left to be passed over. -/
private theorem reads_skipLoop_nil {n : ℕ} (hn : 0 < n) (depth : ℕ) :
    Reads (skipLoop n depth) [] [] fun _ => True := by
  obtain ⟨n, rfl⟩ := Nat.exists_eq_add_one_of_ne_zero (Nat.ne_of_gt hn)
  exact .test_true (fun c hc => hc.isEmpty_eq) (.pure trivial)

/-- What a line holds is passed over up to its semicolon, whatever brackets are open. -/
private theorem reads_skipLoop (hws : ∀ w ∈ ws, w.kind ≠ .semicolon) {n : ℕ}
    (hn : ws.length + 1 < n)
    (depth : ℕ) : Reads (skipLoop n depth) (ws ++ [.sign .semicolon]) [] fun _ => True := by
  induction ws generalizing n depth with
  | nil =>
    obtain ⟨n, rfl⟩ := Nat.exists_eq_add_one_of_ne_zero (Nat.ne_zero_of_lt hn)
    refine .test_false (fun c hc => hc.isEmpty_eq) (.advance_bind fun t _ _ => ?_)
    refine .look_bind fun ends => ?_
    cases ends with
    | true => exact .pure trivial
    | false => exact reads_skipLoop_nil (Nat.lt_of_succ_lt_succ hn) _
  | cons w ws ih =>
    obtain ⟨n, rfl⟩ := Nat.exists_eq_add_one_of_ne_zero (Nat.ne_zero_of_lt hn)
    obtain ⟨hw, hws⟩ := List.forall_mem_cons.mp hws
    refine .test_false (fun c hc => hc.isEmpty_eq) (.advance_bind fun t hkind _ => ?_)
    refine .test_false (fun c hc => ?_) (ih hws (Nat.lt_of_succ_lt_succ hn) _)
    rw [endsAfter, hc.lineBreakAhead_eq, hkind, decide_eq_false hw, Bool.false_and, Bool.or_false,
      Bool.and_false]

/-- A program of one statement that is rejected has no body, and one report. -/
theorem exists_run_of_rejects {start : Cursor} {w : Word} {more : List Word}
    (h : Rejects (statement type) (w :: ws) (more ++ [.sign .semicolon]) kind detail)
    (hmore : ∀ w ∈ more, w.kind ≠ .semicolon)
    (hstart : start.Ahead (w :: ws ++ (more ++ [.sign .semicolon])))
    (hdiagnostics : start.diagnostics = []) (hlast : start.lastReport = none) :
    ∃ next place, Parser.rounds (bodyLoop type) start = .done [] next ∧
      next.diagnostics = [⟨kind, place, detail⟩] := by
  obtain ⟨-, hsettle, hsettled⟩ := Cursor.Ahead.settled hstart
  obtain ⟨mid, hrun, hpass, hahead⟩ := h start.settled hsettled
  have hskip : Reads skipStatement (more ++ [.sign .semicolon]) [] fun _ => True :=
    .rounds fun n hn => reads_skipLoop hmore (by simpa using hn) 0
  have hreport : (mid.report kind detail).Ahead (more ++ [.sign .semicolon] ++ []) := by
    rw [List.append_nil, Cursor.Ahead, Cursor.report_rest]
    exact hahead
  obtain ⟨_, next, hrun', -, hpass', hend⟩ := hskip _ hreport
  have hlength := hstart.length_eq
  rw [List.cons_append, List.length_cons] at hlength
  refine ⟨next, mid.nextSpan, ?_, ?_⟩
  · rw [Parser.rounds, bodyLoop_of_ne_nil _ _ (List.ne_nil_of_length_eq_add_one hlength),
      bodyRound_of_failed hrun, Parser.bind_of_done hrun', hlength]
    exact bodyLoop_of_nil _ _ (List.forall₂_nil_right_iff.mp hend)
  · rw [hpass'.diagnostics, Cursor.report, hpass.lastReport, hsettle.lastReport, hlast,
      if_neg (Option.some_ne_none _).symm, hpass.diagnostics, hsettle.diagnostics, hdiagnostics]
    rfl

/-! ### Texts -/

/-- To read a text that was written with valid words is to read these words. -/
theorem exists_parse_write (limit : Option ℕ) (h : ∀ w ∈ ws, w.Valid) :
    ∃ start : Cursor, start.Ahead ws ∧ start.comments = [] ∧ start.diagnostics = [] ∧
      start.lastReport = none ∧
      ∀ body next, statements limit start.rest start = .done body next →
        ∃ reading, parse limit (Token.write ws) = .ok reading ∧ reading.program.body = body ∧
          reading.program.comments = next.comments ∧ reading.diagnostics = next.diagnostics := by
  obtain ⟨lexemes, after, hlexemes, hshows, hafter⟩ := Lexeme.exists_lexemes_write h
  refine ⟨startCursor (Text.byteLength (Token.write ws).toList) lexemes, hshows, rfl, rfl, rfl,
    fun body next hrun => ?_⟩
  refine ⟨_, parse_of_done hlexemes hrun, rfl, ?_, rfl⟩
  exact (congrArg _ hafter).trans (List.append_nil _)

/-- There are enough knots in `statements` for the lexemes of a source. -/
theorem statements_eq_unlimited (start : Cursor) :
    statements none start.rest start = Parser.rounds (bodyLoop unlimited.whole) start := by
  have hunlimited := agrees_body fun m (hm : m < start.rest.length) =>
    (TypeExpr.agrees_unlimited (hm.trans (Nat.lt_succ_self _))).1
  exact (hunlimited start (Nat.zero_le _) le_rfl).eq.symm

/-- A statement that is read whatever types are read is the whole program. -/
theorem exists_parse_of_reads (limit : Option ℕ) (hvalid : ∀ w ∈ ws, w.Valid) (hws : ws ≠ [])
    {post : Statement → Prop} (h : ∀ type, Reads (statement type) ws [] post) :
    ∃ reading, parse limit (Token.write ws) = .ok reading ∧
      (∃ stmt, reading.program.body = [⟨[], stmt⟩] ∧ post stmt) ∧
      reading.program.comments = [] ∧ reading.diagnostics = [] := by
  obtain ⟨start, hahead, hcomments, hdiagnostics, -, hparse⟩ := exists_parse_write limit hvalid
  have hstart : start.Ahead (ws ++ []) := by rwa [List.append_nil]
  obtain ⟨body, next, hrun, hbody, hpass, -⟩ := reads_single (h _) hws start hstart
  obtain ⟨reading, hread, rfl, hcomments', hdiagnostics'⟩ := hparse body next hrun
  exact ⟨reading, hread, hbody, hcomments'.trans (hpass.comments.trans hcomments),
    hdiagnostics'.trans (hpass.diagnostics.trans hdiagnostics)⟩

/-- A statement that is rejected whatever types are read is left out of the program. -/
theorem exists_parse_of_rejects (limit : Option ℕ) {w : Word} {more : List Word}
    (hvalid : ∀ v ∈ w :: ws ++ (more ++ [.sign .semicolon]), v.Valid)
    (hmore : ∀ w ∈ more, w.kind ≠ .semicolon)
    (h : ∀ type, Rejects (statement type) (w :: ws) (more ++ [.sign .semicolon]) kind detail) :
    ∃ reading place,
      parse limit (Token.write (w :: ws ++ (more ++ [.sign .semicolon]))) = .ok reading ∧
        reading.program.body = [] ∧ reading.diagnostics = [⟨kind, place, detail⟩] := by
  obtain ⟨start, hahead, -, hdiagnostics, hlast, hparse⟩ := exists_parse_write limit hvalid
  obtain ⟨next, place, hrun, hreport⟩ :=
    exists_run_of_rejects (h _) hmore hahead hdiagnostics hlast
  obtain ⟨reading, hread, hbody, -, hdiagnostics'⟩ := hparse [] next hrun
  exact ⟨reading, place, hread, hbody, hdiagnostics'.trans hreport⟩

end Reifier.Program
