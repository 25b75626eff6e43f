import Reifier.Proofs.Import.Balance
import Reifier.Proofs.Program.Extent
import Reifier.Proofs.Program.Order
import Reifier.Proofs.Program.Places

/-!
# Where errors are reported

No place is reported twice (`nodup_start_of_parse`). Of two reports in a row at one place the second
is dropped, but that is not enough: a declaration inside brackets that cannot be read is left again,
and its tokens are read once more.

A place is known by the number of tokens that are left there (`Token.spanLeft`). A declaration
begins with two words, and behind these no two words stand that might begin another one
(`turns_declarationRest`). So in front of the place where it is reported only one more declaration
can be tried, from its second word on, as in `interface interface extends extends ;`. That one is
tried next, and if it is reported at this place too, the report is dropped (`Cursor.Sealed`). At
this place all brackets are still open that were open before the declaration, so the statement
around it does not end in front of it (`Lexeme.behindStatement_append_of_leaves`), and the next
statement begins further on.
-/

namespace Reifier

open Token (Apart)
open Token.Kind (Leaves Balanced)

/-! ### Places -/

namespace Token

/-- Where `n` of the tokens are left: the place of the next one, or the empty place at `stop` behind
the last one. -/
def spanLeft (ts : List Token) (stop n : ℕ) : Span :=
  match ts.drop (ts.length - n) with
  | [] => Span.point stop
  | t :: _ => t.span

variable {ts : List Token} {stop m n : ℕ}

/-- What is left is spanned by a token, or is the end of the source. -/
private theorem spanLeft_cases (ts : List Token) (stop n : ℕ) :
    (∃ t ∈ ts, spanLeft ts stop n = t.span) ∨ spanLeft ts stop n = Span.point stop := by
  unfold spanLeft
  split
  · exact .inr rfl
  · rename_i t us hdrop
    exact .inl ⟨t, List.mem_of_mem_drop (hdrop ▸ List.mem_cons_self), rfl⟩

/-- Where fewer tokens are left is further on. -/
private theorem start_spanLeft_lt (hts : ts.Pairwise fun t u => t.span.start < u.span.start)
    (hstop : ∀ t ∈ ts, t.span.start < stop) (hmn : m < n) (hn : n ≤ ts.length) :
    (spanLeft ts stop n).start < (spanLeft ts stop m).start := by
  obtain ⟨t, us, hus⟩ : ∃ t us, ts.drop (ts.length - n) = t :: us := by
    refine List.exists_cons_of_length_pos ?_
    rw [List.length_drop]
    omega
  have htail : ts.drop (ts.length - m) = us.drop (n - m - 1) := by
    have hsum : ts.length - m = ts.length - n + 1 + (n - m - 1) := by omega
    rw [hsum, ← List.drop_drop, ← List.drop_drop, hus]
    rfl
  have hpairs := hts.sublist (List.drop_sublist (ts.length - n) ts)
  rw [hus] at hpairs
  have hfirst : spanLeft ts stop n = t.span := by rw [spanLeft, hus]
  rw [hfirst]
  rcases spanLeft_cases (us.drop (n - m - 1)) stop (us.drop (n - m - 1)).length with
    ⟨u, hu, hspan⟩ | hspan
  all_goals
    rw [spanLeft, Nat.sub_self, List.drop_zero, ← htail, ← spanLeft] at hspan
    rw [hspan]
  · exact (List.pairwise_cons.mp hpairs).1 u (List.mem_of_mem_drop hu)
  · exact hstop t (List.mem_of_mem_drop (hus ▸ List.mem_cons_self))

/-- A place is known by the number of tokens that are left. -/
private theorem spanLeft_inj (hts : ts.Pairwise fun t u => t.span.start < u.span.start)
    (hstop : ∀ t ∈ ts, t.span.start < stop) (hm : m ≤ ts.length) (hn : n ≤ ts.length)
    (h : (spanLeft ts stop m).start = (spanLeft ts stop n).start) : m = n := by
  rcases Nat.lt_trichotomy m n with hlt | heq | hlt
  · exact absurd h (start_spanLeft_lt hts hstop hlt hn).ne'
  · exact heq
  · exact absurd h (start_spanLeft_lt hts hstop hlt hm).ne

end Token

/-! ### The brackets around a report -/

namespace Lexeme

/-- A statement does not end among lexemes that close no bracket but their own. -/
theorem behindStatement_append_of_leaves {awaited kinds : List Token.Kind}
    (h : Leaves awaited kinds) {run : List Lexeme} (hrun : kinds = Lexeme.kinds run) {depth : ℕ}
    (hdepth : 0 < depth) (behind : List Lexeme) :
    behindStatement depth (run ++ behind) =
      behindStatement (depth + awaited.length) behind := by
  induction h generalizing run behind with
  | nil h => exact behindStatement_append h hrun hdepth behind
  | @cons awaited kinds inner opening close outside hclose inside ih =>
    obtain ⟨front, back, rfl, hfront, hback⟩ := List.map_eq_append_iff.mp hrun.symm
    obtain ⟨l, within, rfl, rfl, hwithin⟩ := List.map_eq_cons_iff.mp hback
    have hopening := Token.Kind.depthAfter_opening (depth + awaited.length) hclose
    rw [List.append_assoc, ih hfront.symm, List.cons_append,
      behindStatement_of_pos (by rw [hopening]; exact Nat.succ_pos _), hopening,
      behindStatement_append inside hwithin.symm (Nat.succ_pos _)]
    rfl

/-- A statement takes a lexeme if there is one. -/
private theorem length_behindStatement (depth : ℕ) (ls : List Lexeme) :
    (behindStatement depth ls).length < ls.length ∨ behindStatement depth ls = [] := by
  induction ls generalizing depth with
  | nil => exact .inr rfl
  | cons l ls ih =>
    rw [behindStatement]
    split
    · exact .inl (Nat.lt_succ_self _)
    · exact (ih _).imp_left fun hlt => hlt.trans (Nat.lt_succ_self _)

end Lexeme

/-! ### What has been reported -/

namespace Cursor

/-- Nothing but a report has been made between two cursors, at the second one. -/
def Fails (c d : Cursor) : Prop := ∃ mid kind detail, c.Quiet mid ∧ d = mid.report kind detail

private theorem Stopped.fails {words : List String} {c d : Cursor} (h : c.Stopped words d) :
    c.Fails d := by
  obtain ⟨mid, s, kind, detail, hwalked, rfl⟩ := h
  exact ⟨mid, kind, detail, hwalked.toQuiet, rfl⟩

private theorem Fails.behind {c mid d : Cursor} (h : mid.Fails d) (hmid : c.Quiet mid) :
    c.Fails d := by
  obtain ⟨last, kind, detail, hquiet, rfl⟩ := h
  exact ⟨last, kind, detail, hmid.trans hquiet, rfl⟩

private theorem Quiet.length_le {c d : Cursor} (h : c.Quiet d) : d.rest.length ≤ c.rest.length := by
  have hlength := h.tokens.length_le
  rwa [Cursor.tokens, Cursor.tokens, List.length_map, List.length_map] at hlength

/-- The reports of a cursor in a text with the tokens `ts` that ends at `stop`: in `lefts` stands
for each of them how many tokens are left there. -/
structure Marks (ts : List Token) (stop : ℕ) (lefts : List ℕ) (c : Cursor) : Prop where
  tokens : c.tokens <:+ ts
  endOffset : c.endOffset = stop
  spans : c.diagnostics.map (·.span) = lefts.map (Token.spanLeft ts stop)
  nodup : lefts.Nodup
  le : ∀ n ∈ lefts, n ≤ ts.length

/-- A cursor is behind the place where `n` tokens are left, or nothing is left. -/
def Past (n : ℕ) (c : Cursor) : Prop := c.rest.length < n ∨ c.rest = []

/-- The tokens in front of the place where `n` tokens are left. -/
def upTo (n : ℕ) (c : Cursor) : List Token := c.tokens.take (c.tokens.length - n)

/-- No declaration further on is reported where `n` tokens are left: none begins behind the next
token and in front of this place, and if one begins with the next token, the last report was
there. -/
def Sealed (ts : List Token) (stop n : ℕ) (c : Cursor) : Prop :=
  Apart Program.declarationWords (c.upTo n) ∨ Apart Program.declarationWords (c.upTo n).tail ∧
    c.lastReport = some (Token.spanLeft ts stop n).start

variable {ts : List Token} {stop n : ℕ} {lefts : List ℕ} {c d : Cursor}

namespace Marks

private theorem nextSpan (h : c.Marks ts stop lefts) :
    c.nextSpan = Token.spanLeft ts stop c.rest.length := by
  have hdrop := List.suffix_iff_eq_drop.mp h.tokens
  rw [Cursor.tokens, List.length_map] at hdrop
  rw [Token.spanLeft, ← hdrop, ← h.endOffset, Cursor.nextSpan]
  cases c.rest <;> rfl

private theorem nextStart (h : c.Marks ts stop lefts) :
    c.nextStart = (Token.spanLeft ts stop c.rest.length).start := by
  rw [← h.nextSpan, Cursor.nextStart, Cursor.nextSpan]
  cases c.rest <;> rfl

private theorem length_le (h : c.Marks ts stop lefts) : c.rest.length ≤ ts.length := by
  have hlength := h.tokens.length_le
  rwa [Cursor.tokens, List.length_map] at hlength

private theorem quiet (h : c.Marks ts stop lefts) (hd : c.Quiet d) : d.Marks ts stop lefts :=
  ⟨hd.tokens.trans h.tokens, hd.endOffset.trans h.endOffset, hd.diagnostics ▸ h.spans, h.nodup,
    h.le⟩

/-- A report is dropped, or one more place is marked, which has not been marked before. -/
private theorem report (h : c.Marks ts stop lefts)
    (hnew : c.rest.length ∈ lefts → c.lastReport = some c.nextStart) (kind : Diagnostic.Kind)
    (detail : Option String) :
    ∃ more, (c.report kind detail).Marks ts stop (lefts ++ more) ∧ ∀ n ∈ more,
      n = c.rest.length ∧
        (c.report kind detail).lastReport = some (Token.spanLeft ts stop n).start := by
  by_cases hlast : c.lastReport = some c.nextStart
  · have hsame : c.report kind detail = c := if_pos hlast
    rw [hsame]
    exact ⟨[], by rwa [List.append_nil], List.forall_mem_nil _⟩
  · have hreport : c.report kind detail =
        { c with
          diagnostics := c.diagnostics ++ [⟨kind, c.nextSpan, detail⟩]
          lastReport := some c.nextStart } := if_neg hlast
    rw [hreport]
    refine ⟨[c.rest.length], ⟨h.tokens, h.endOffset, ?_, ?_, ?_⟩,
      List.forall_mem_singleton.mpr ⟨rfl, congrArg some h.nextStart⟩⟩
    · rw [List.map_append, List.map_append, h.spans, List.map_singleton, List.map_singleton,
        h.nextSpan]
    · exact List.nodup_append.mpr ⟨h.nodup, List.nodup_singleton _,
        fun m hm n hn hmn => hlast (hnew (List.mem_singleton.mp hn ▸ hmn ▸ hm))⟩
    · exact List.forall_mem_append.mpr ⟨h.le, List.forall_mem_singleton.mpr h.length_le⟩

/-- Going back leaves the reports. -/
private theorem back (hc : c.Marks ts stop lefts) {all : List ℕ} (h : d.Marks ts stop all)
    (rest : List Lexeme) (hrest : rest = c.rest) (comments : List Comment) :
    ({ d with rest := rest, comments := comments } : Cursor).Marks ts stop all :=
  ⟨hrest ▸ hc.tokens, h.endOffset, h.spans, h.nodup, h.le⟩

end Marks

/-! ### Sealed places -/

private theorem tokens_of_append {run : List Lexeme} (h : c.rest = run ++ d.rest) :
    c.tokens = run.map Lexeme.token ++ d.tokens := by
  rw [tokens, tokens, h, List.map_append]

private theorem upTo_of_append {run : List Lexeme} (h : c.rest = run ++ d.rest) :
    c.upTo d.rest.length = run.map Lexeme.token := by
  have hlength : d.rest.length = d.tokens.length := (List.length_map _).symm
  rw [upTo, tokens_of_append h, hlength, List.length_append, Nat.add_sub_cancel, List.take_left]

/-- What is taken is taken from the tokens in front of a place. -/
private theorem upTo_eq_drop {run : List Lexeme} (h : c.rest = run ++ d.rest) (n : ℕ) :
    d.upTo n = (c.upTo n).drop run.length := by
  have hlength : (run.map Lexeme.token).length = run.length := List.length_map _
  rw [upTo, upTo, tokens_of_append h, List.drop_take, ← hlength, List.drop_left,
    List.length_append]
  congr 1
  omega

private theorem Sealed.settled (h : c.Sealed ts stop n) : c.settled.Sealed ts stop n := by
  rwa [Sealed, upTo, settled_tokens, (Quiet.settled c).lastReport]

/-- Behind the next token no declaration begins in front of a place that is sealed. -/
theorem Sealed.taken (h : c.Sealed ts stop n) {l : Lexeme} {run : List Lexeme}
    (hrun : c.rest = l :: run ++ d.rest) : d.Sealed ts stop n := by
  have hdrop : d.upTo n = (c.upTo n).tail.drop run.length := by
    rw [upTo_eq_drop hrun, ← List.drop_one, List.drop_drop, List.length_cons, Nat.add_comm]
  have htail : Apart Program.declarationWords (c.upTo n).tail :=
    h.elim (fun hall => hall.tail) And.left
  rw [Sealed, hdrop]
  exact .inl (htail.drop _)

private theorem Sealed.took (h : c.Sealed ts stop n) {l : Lexeme} {ls : List Lexeme}
    (hrest : c.rest = l :: ls) (d : Cursor) : (d.took l ls).Sealed ts stop n := by
  have hrun : c.rest = l :: [] ++ (d.took l ls).rest := hrest
  exact h.taken hrun

/-- A declaration that is tried and reported at a sealed place is the second one there. -/
private theorem Sealed.lastReport_eq {l m : Lexeme} {run : List Lexeme}
    (h : c.Sealed ts stop d.rest.length) (hrun : c.rest = l :: m :: run ++ d.rest)
    (hword : l.token.isOneOf Program.declarationWords = true)
    (hname : m.token.kind = .identifier) :
    c.lastReport = some (Token.spanLeft ts stop d.rest.length).start := by
  refine (h.resolve_left fun hall => ?_).2
  rw [upTo_of_append hrun] at hall
  exact (List.isChain_cons_cons.mp hall).1 hword hname

/-- All places of reports are behind the cursor, unless nothing is left. -/
def Clear (ts : List Token) (stop : ℕ) (c : Cursor) : Prop :=
  ∃ lefts, c.Marks ts stop lefts ∧ ∀ n ∈ lefts, c.Past n

end Cursor

namespace Program

open Reifier.TypeExpr
open Reifier.Parser (Triple Turns)
open Cursor (Marks Past Sealed Clear Quiet Fails)
open Segment (bare)

variable {type : Parser TypeExpr} {ts : List Token} {stop : ℕ} {lefts : List ℕ} {c d : Cursor}

/-! ### Declarations inside brackets -/

/-- What has been taken of a declaration between two cursors: its first two words `l` and `m`, and
`run` behind them, where no declaration begins and no bracket is closed but those of `run`. -/
structure Tried (c : Cursor) (l m : Lexeme) (run : List Lexeme) (d : Cursor) : Prop
    extends c.Quiet d where
  rest : c.rest = l :: m :: run ++ d.rest
  word : l.token.isOneOf declarationWords = true
  name : m.token.kind = .identifier
  leaves : ∃ awaited, Leaves awaited (Lexeme.kinds run)
  apart : Apart declarationWords (run.map Lexeme.token)

namespace Tried

variable {mid : Cursor} {l m : Lexeme} {run : List Lexeme}

/-- The statement around a declaration does not end in it. -/
private theorem past (h : Tried c l m run mid) {depth : ℕ} (hdepth : 0 < depth)
    (hd : d.rest = Lexeme.behindStatement depth c.rest) : d.Past mid.rest.length := by
  have hwords : Balanced (Lexeme.kinds [l, m]) := by
    rw [Lexeme.kinds, List.map_cons, List.map_singleton, (of_decide_eq_true h.word).1, h.name]
    exact .flat (by decide) (.flat (by decide) .nil)
  have hsplit : c.rest = [l, m] ++ (run ++ mid.rest) := h.rest
  obtain ⟨awaited, hleaves⟩ := h.leaves
  rw [hsplit, Lexeme.behindStatement_append hwords rfl hdepth,
    Lexeme.behindStatement_append_of_leaves hleaves rfl hdepth] at hd
  rw [Past, hd]
  exact Lexeme.length_behindStatement _ _

/-- In front of the place that was reported last, a declaration can only begin with the second
word. -/
private theorem sealed (h : Tried c l m run mid) {e : Cursor}
    (hlast : e.lastReport = some (Token.spanLeft ts stop mid.rest.length).start) :
    (e.took l (m :: run ++ mid.rest)).Sealed ts stop mid.rest.length := by
  have hrest : (e.took l (m :: run ++ mid.rest)).rest = m :: run ++ mid.rest := rfl
  refine .inr ⟨?_, hlast⟩
  rw [Cursor.upTo_of_append hrest]
  exact h.apart

end Tried

section

variable (h : ∀ opened, Turns declarationWords ⟨opened, false⟩ ⟨opened, true⟩ type)
include h

/-- A declaration takes its two words and more. It reports nothing unless it fails, and then where
it stops. -/
private theorem satisfies_declaration (hahead : (aliasAhead c || interfaceAhead c) = true) :
    (declaration type c).Satisfies (fun _ d => ∃ l m run, Tried c l m run d)
      fun d => ∃ l m run mid kind detail, Tried c l m run mid ∧ d = mid.report kind detail := by
  obtain ⟨l, m, ls, hrest, hword, hname⟩ := exists_cons_cons_of_ahead hahead
  -- Behind the two words everything taken is a walk through brackets.
  have htried : ∀ {s mid}, ((c.took l (m :: ls)).took m ls).Walked declarationWords s mid →
      ∃ run, Tried c l m run mid := by
    intro s mid hwalked
    obtain ⟨run, hrun, hbehind⟩ := hwalked.taken
    have hls : ls = run ++ mid.rest := hrun
    have hleaves := hbehind.leaves
    rw [List.map_map] at hleaves
    refine ⟨run, ((Quiet.took hrest).trans (.took rfl)).trans hwalked.toQuiet, ?_, hword, hname,
      ⟨_, hleaves⟩, hbehind.apart⟩
    rw [hrest, hls]
    rfl
  have hwalk := turns_declarationRest h (c.isWord 0 "type") l.token ⟨m.token.text, m.token.span⟩ _
    _ (.refl declarationWords false ((c.took l (m :: ls)).took m ls))
  rw [declaration_of_cons_cons type hrest hname]
  refine hwalk.mono (fun _ d hd => ?_) fun d hd => ?_
  · obtain ⟨run, hrun⟩ := htried hd
    exact ⟨l, m, run, hrun⟩
  · obtain ⟨mid, s, kind, detail, hmid, rfl⟩ := hd
    obtain ⟨run, hrun⟩ := htried hmid
    exact ⟨l, m, run, mid, kind, detail, hrun, rfl⟩

/-- After a declaration that cannot be read, the place where it is reported is sealed behind its
first word. -/
private theorem exists_marks_of_failed {next : Cursor} {depth : ℕ} (hdepth : 0 < depth)
    (hahead : (aliasAhead c || interfaceAhead c) = true)
    (hread : declaration type c = .failed next) (hc : c.Marks ts stop lefts)
    (hsealed : ∀ n ∈ lefts, c.Sealed ts stop n ∧ d.Past n)
    (hd : d.rest = Lexeme.behindStatement depth c.rest) {e : Cursor}
    (he : e = { next with rest := c.rest, comments := c.comments }) {l : Lexeme} {ls : List Lexeme}
    (hrest : c.rest = l :: ls) :
    ∃ all, e.Marks ts stop all ∧ ∀ n ∈ all, (e.took l ls).Sealed ts stop n ∧ d.Past n := by
  have hdecl := satisfies_declaration h hahead
  rw [hread] at hdecl
  obtain ⟨l', m, run, mid, kind, detail, htried, rfl⟩ := hdecl
  obtain ⟨rfl, rfl⟩ := List.cons.inj (hrest.symm.trans htried.rest)
  have hmid := hc.quiet htried.toQuiet
  -- A second report at the same place is dropped.
  have hdropped : mid.rest.length ∈ lefts → mid.lastReport = some mid.nextStart := fun hmem => by
    rw [htried.lastReport, hmid.nextStart]
    exact (hsealed _ hmem).1.lastReport_eq htried.rest htried.word htried.name
  obtain ⟨more, hreport, hmore⟩ := hmid.report hdropped kind detail
  subst he
  refine ⟨lefts ++ more, hc.back hreport _ rfl _, List.forall_mem_append.mpr
    ⟨fun n hn => ⟨(hsealed n hn).1.took hrest _, (hsealed n hn).2⟩, fun n hn => ?_⟩⟩
  obtain ⟨rfl, hlast⟩ := hmore n hn
  exact ⟨htried.sealed hlast, htried.past hdepth hd⟩

/-- **What is reported inside a statement without a structure**, and what was reported before,
stands in front of its end, at one place each. -/
theorem clear_verbatimLoop {n depth : ℕ} {previous : Option Token.Kind}
    {found : List (Item Declaration)}
    (hrun : verbatimLoop type n depth previous c = .done found d) (hc : c.Marks ts stop lefts)
    (hsealed : ∀ k ∈ lefts, c.Sealed ts stop k ∧ d.Past k) : d.Clear ts stop := by
  induction n generalizing depth previous c found lefts with
  | zero => cases hrun
  | succ n ih =>
    cases hrest : c.rest with
    | nil =>
      rw [verbatimLoop_of_nil type n depth previous hrest] at hrun
      cases hrun
      exact ⟨lefts, hc, fun k hk => (hsealed k hk).2⟩
    | cons l ls =>
      have hahead := (settled_of_cons hrest).1
      have hsettled := hc.quiet (.settled c)
      have hsame : ∀ k ∈ lefts, c.settled.Sealed ts stop k ∧ d.Past k := fun k hk =>
        ⟨(hsealed k hk).1.settled, (hsealed k hk).2⟩
      obtain ⟨decl, next, more, -, -, hnested, hread, hmore, -⟩ | ⟨e, he, htext, hback⟩ :=
        verbatimRound_cases hrest hrun
      · -- A declaration has been read, and reading goes on behind it.
        have hdecl := satisfies_declaration h (declarationAhead_of_nestedAhead hnested)
        rw [hread] at hdecl
        obtain ⟨l', m, run, htried⟩ := hdecl
        exact ih hmore (hsettled.quiet htried.toQuiet) fun k hk =>
          ⟨(hsame k hk).1.taken htried.rest, (hsame k hk).2⟩
      · -- The next lexeme is text, perhaps after a declaration has been tried.
        have htook : ∃ all, e.Marks ts stop all ∧
            ∀ k ∈ all, (e.took (bare l) ls).Sealed ts stop k ∧ d.Past k := by
          obtain rfl | ⟨next, hdepth, hnested, hread, he'⟩ := hback
          · exact ⟨lefts, hsettled, fun k hk => ⟨(hsame k hk).1.took he _, (hsame k hk).2⟩⟩
          · have hends : d.rest = Lexeme.behindStatement depth c.settled.rest := by
              rw [rest_of_verbatimLoop h hrun, hahead, hrest]
              rfl
            exact exists_marks_of_failed h hdepth (declarationAhead_of_nestedAhead hnested) hread
              hsettled hsame hends he' hahead
        obtain ⟨all, hall, hsealed⟩ := htook
        obtain ⟨-, rfl⟩ | ⟨depth', hloop⟩ := textRound_cases he htext
        · exact ⟨all, hall.quiet (.took he), fun k hk => (hsealed k hk).2⟩
        · exact ih hloop (hall.quiet (.took he)) hsealed

/-- Behind a statement without a structure all places of reports are past. -/
private theorem clear_verbatim {text : Verbatim} (hrun : verbatim type c = .done text d)
    (hc : c.Marks ts stop lefts) (hlefts : ∀ n ∈ lefts, c.rest.length < n) : d.Clear ts stop := by
  have hlength : d.rest.length ≤ c.rest.length := by
    rw [rest_of_verbatim h hrun]
    rcases Lexeme.length_behindStatement 0 c.rest with hlt | hnil
    · exact hlt.le
    · rw [hnil]
      exact Nat.zero_le _
  have hsealed : ∀ n ∈ lefts, c.Sealed ts stop n ∧ d.Past n := by
    intro n hn
    have hlt := hlefts n hn
    refine ⟨.inl ?_, .inl (hlength.trans_lt hlt)⟩
    have hnone : c.tokens.length - n = 0 := by
      rw [Cursor.tokens, List.length_map]
      omega
    rw [Cursor.upTo, hnone]
    exact .nil
  obtain ⟨found, hloop⟩ := exists_verbatimLoop_of_verbatim hrun
  exact clear_verbatimLoop h hloop hc hsealed

/-! ### Statements -/

/-- A statement that fails reports once, where it stops. One with a structure reports nothing if it
is read. -/
private theorem triple_statement (c : Cursor) :
    Triple (· = c) (statement type)
      (fun _ d => c.Quiet d ∨ ∃ text, verbatim type c = .done text d) c.Fails := by
  have hdecl : Triple (fun e => c.Quiet e ∧ (aliasAhead e || interfaceAhead e) = true)
      (declaration type) (fun _ => c.Quiet) c.Fails := by
    refine fun e he => (satisfies_declaration h he.2).mono (fun _ d hd => ?_) fun d hd => ?_
    · obtain ⟨l, m, run, htried⟩ := hd
      exact he.1.trans htried.toQuiet
    · obtain ⟨l, m, run, mid, kind, detail, htried, rfl⟩ := hd
      exact ⟨mid, kind, detail, he.1.trans htried.toQuiet, rfl⟩
  have himport : Triple (fun e => c.Quiet e ∧ importAhead e = true) importDeclaration
      (fun _ => c.Quiet) c.Fails := by
    rintro e ⟨hquiet, hahead⟩
    have hword := (Bool.and_eq_true_iff.mp hahead).1
    exact (turns_importDeclaration e e ⟨.refl [] false e, hword⟩).mono
      (fun _ d hd => hquiet.trans hd.toQuiet) fun d hd => hd.fails.behind hquiet
  have hexport : ∀ e l ls, e = c ∧ exportAhead e = true → e.rest = l :: ls →
      c.Quiet (e.took l ls) ∧
        (aliasAhead (e.took l ls) || interfaceAhead (e.took l ls)) = true := by
    rintro e l ls ⟨rfl, hahead⟩ hrest
    refine ⟨.took hrest, ?_⟩
    rw [exportAhead, Bool.and_assoc, Bool.and_eq_true, Bool.and_or_distrib_right] at hahead
    simpa [aliasAhead, interfaceAhead, Cursor.isWord, Cursor.hasKind, Cursor.took, hrest]
      using hahead.2
  have hverbatim : Triple (· = c) (verbatim type)
      (fun text d => verbatim type c = .done text d) c.Fails := by
    rintro e rfl
    cases hrun : verbatim type e with
    | done text next => exact rfl
    | failed next => exact absurd hrun (neverFails_verbatim e next)
    | halted cause next => trivial
  have hstart : ∀ e, e = c → c.Quiet e := fun e he => he ▸ .refl c
  -- The lookaheads in the order in which they are asked; what none of them sees is text.
  refine .test ?_ (.test ?_ (.test ?_ ?_))
  · exact .bind (hdecl.anti fun e he => ⟨hstart e he.1, he.2⟩) fun _ => .pure fun _ => .inl
  · exact .bind (himport.anti fun e he => ⟨hstart e he.1, he.2⟩) fun _ => .pure fun _ => .inl
  · exact .advance_bind hexport fun _ => .bind hdecl fun _ =>
      .look_bind fun _ => .pure fun _ hc => .inl hc.1
  · exact .bind hverbatim fun text => .pure fun _ hrun => .inr ⟨text, hrun⟩

omit h in
private theorem length_settled_lt (hne : c.rest ≠ []) (hpast : ∀ n ∈ lefts, c.Past n) :
    ∀ n ∈ lefts, c.settled.rest.length < n := fun n hn => by
  rw [Cursor.settled_length]
  exact (hpast n hn).resolve_right hne

/-- Behind the statements of a source all places of reports are past. -/
private theorem clear_of_course {segs : List (Segment Statement)} (hcourse : Course type c segs d)
    (hc : c.Clear ts stop) : d.Clear ts stop := by
  induction hcourse with
  | stop hend => exact hc
  | @read c next d l run stmt segs hread hover rest ih =>
    obtain ⟨lefts, hmarks, hpast⟩ := hc
    have hlt := length_settled_lt (by simp [hover.rest]) hpast
    have hsettled := hmarks.quiet (.settled c)
    have hcomes := triple_statement h c.settled c.settled rfl
    rw [hread] at hcomes
    rcases hcomes with hquiet | ⟨text, htext⟩
    · exact ih ⟨lefts, hsettled.quiet hquiet,
        fun n hn => .inl (hquiet.length_le.trans_lt (hlt n hn))⟩
    · exact ih (clear_verbatim h htext hsettled hlt)
  | @skip c wrong next d run segs hread hskip hover hrun rest ih =>
    obtain ⟨lefts, hmarks, hpast⟩ := hc
    have hlt := length_settled_lt (by simp [hover.rest, hrun]) hpast
    have hcomes := triple_statement h c.settled c.settled rfl
    rw [hread] at hcomes
    obtain ⟨mid, kind, detail, hquiet, rfl⟩ := hcomes
    have hlength := hquiet.length_le
    have hmid := (hmarks.quiet (.settled c)).quiet hquiet
    obtain ⟨more, hreport, hmore⟩ := hmid.report
      (fun hmem => absurd (hlt _ hmem) hlength.not_gt) kind detail
    have hle : ∀ n ∈ lefts ++ more, mid.rest.length ≤ n := List.forall_mem_append.mpr
      ⟨fun n hn => hlength.trans (hlt n hn).le, fun n hn => (hmore n hn).1.ge⟩
    -- What is skipped behind the report takes at least the token that was reported.
    obtain ⟨last, hlast, hrest, hskipped⟩ :=
      exists_of_skipLoop 0 (Nat.lt_succ_self (mid.report kind detail).rest.length)
    cases hskip.symm.trans hlast
    refine ih ⟨lefts ++ more, hreport.quiet hskipped, fun n hn => ?_⟩
    rw [Cursor.report_rest] at hrest
    rw [Past, hrest]
    exact (Lexeme.length_behindStatement 0 mid.rest).imp_left fun hltMid =>
      hltMid.trans_le (hle n hn)

end

/-! ### Sources -/

variable {limit : Option ℕ} {source : String} {reading : Reading}

/-- **No place is reported twice.** Errors of a source that is read are reported at different
offsets, each at a token that is not trivia or at the end of the source. -/
theorem nodup_start_of_parse (h : parse limit source = .ok reading) :
    (reading.diagnostics.map (·.span.start)).Nodup ∧
      ∀ d ∈ reading.diagnostics,
        (∃ t ∈ Token.scan source, t.kind.isTrivia = false ∧ d.span = t.span) ∨
          d.span = Span.point (Text.byteLength source.toList) := by
  obtain ⟨segs, after, hreads, -⟩ := exists_readsAs_of_parse h
  obtain ⟨last, hcourse, -, hdiagnostics⟩ := hreads.course
  have htokens := Lexeme.tokens_ofTokensAfter Trivia.none (Token.scan source)
  set ts := (Token.scan source).filter fun t => !t.kind.isTrivia with hts
  have hwords : "typeof" ∉ declarationWords := by decide
  have hturns := (turns_nested hwords limit ((Lexeme.ofTokens (Token.scan source)).1.length + 1)).1
  have hstart : (startCursor (Text.byteLength source.toList)
      (Lexeme.ofTokens (Token.scan source)).1).Clear ts (Text.byteLength source.toList) :=
    ⟨[], ⟨htokens ▸ List.suffix_rfl, rfl, rfl, .nil, List.forall_mem_nil _⟩, List.forall_mem_nil _⟩
  -- A report is made where a certain number of tokens is left, and never twice at the same number.
  obtain ⟨lefts, hmarks, -⟩ := clear_of_course hturns hcourse hstart
  have hspans := hmarks.spans
  rw [hdiagnostics] at hspans
  constructor
  · have hpairs : ts.Pairwise fun t u => t.span.start < u.span.start :=
      (Token.pairwise_place 0 _).sublist List.filter_sublist
    have hbounds : ∀ t ∈ ts, t.span.start < Text.byteLength source.toList := fun t ht =>
      have hmem := List.mem_of_mem_filter ht
      (Token.start_lt_stop_of_mem_scan hmem).trans_le (Token.lies_of_mem_scan hmem).stop_le
    have hsame : reading.diagnostics.map (·.span.start) =
        lefts.map fun n => (Token.spanLeft ts (Text.byteLength source.toList) n).start := by
      have hstarts := congrArg (List.map Span.start) hspans
      rwa [List.map_map, List.map_map] at hstarts
    rw [hsame]
    exact hmarks.nodup.map_on fun m hm n hn =>
      Token.spanLeft_inj hpairs hbounds (hmarks.le m hm) (hmarks.le n hn)
  · intro d hd
    have hspan : d.span ∈ lefts.map (Token.spanLeft ts (Text.byteLength source.toList)) :=
      hspans ▸ List.mem_map_of_mem hd
    obtain ⟨n, -, hn⟩ := List.mem_map.mp hspan
    rw [← hn]
    refine (Token.spanLeft_cases ts _ n).imp_left fun ⟨t, ht, hspan⟩ => ⟨t, ?_⟩
    obtain ⟨hmem, htrivia⟩ := List.mem_filter.mp ht
    exact ⟨hmem, by simpa using htrivia, hspan⟩

/-- Inside the brackets two declarations are tried twice over, from the first word and from the
second. The first two attempts fail at one place; of the other two the second fails further back. -/
def overlappingSource : String :=
  "f(\x7b\ninterface\ninterface extends extends ;\ninterface\n" ++
    "interface extends extends . Y , ,\n\x7d);\ntype A ="

theorem nodup_start_of_parse_overlapping :
    ∃ reading, parse none overlappingSource = .ok reading ∧
      reading.diagnostics.map (·.span.start) = [40, 84, 78, 98] ∧
      (reading.diagnostics.map (·.span.start)).Nodup ∧
      ∀ d ∈ reading.diagnostics,
        (∃ t ∈ Token.scan overlappingSource, t.kind.isTrivia = false ∧ d.span = t.span) ∨
          d.span = Span.point 98 := by
  have hstarts : ((parse none overlappingSource).toOption.map fun reading =>
      reading.diagnostics.map (·.span.start)) = some [40, 84, 78, 98] := by
    decide +kernel
  cases hreading : parse none overlappingSource with
  | error cause =>
    rw [hreading] at hstarts
    cases hstarts
  | ok reading =>
    rw [hreading] at hstarts
    have hend : Text.byteLength overlappingSource.toList = 98 := by decide +kernel
    have hall := nodup_start_of_parse hreading
    rw [hend] at hall
    exact ⟨reading, rfl, Option.some.inj hstarts, hall⟩

end Program

end Reifier
