import Reifier.Proofs.Parser.Excerpt
import Reifier.Proofs.Program.Patching
import Reifier.Proofs.Program.Written
import Reifier.Proofs.Token.Excerpt

/-!
# Parts of a source as right sides of aliases

The lexemes of a part of a source stand behind `type X = ` as they stand in the source, except for
the trivia in front of the first one, and a semicolon may be put behind them
(`exists_lexemes_aliasText`).
-/

namespace Reifier

open Token (Contiguous Lexed aliasStart semicolonAt)

/-! ### Tokens further on -/

/-- Moving tokens leaves them lexed, which depends on their kinds and texts alone. -/
private theorem Token.Lexed.map_moved {ts : List Token} (h : Lexed ts) (n : ℕ) :
    Lexed (ts.map (Token.moved n)) := by
  induction ts with
  | nil => trivial
  | cons t ts ih =>
    obtain ⟨hbefore, hnext, hts⟩ := h
    refine ⟨?_, fun hkind u hu => ?_, ih hts⟩
    · rw [List.flatMap_map]
      exact hbefore
    · rw [List.head?_map] at hu
      obtain ⟨v, hv, rfl⟩ := Option.map_eq_some_iff.mp hu
      exact hnext hkind v hv

/-- Tokens moved as one stay one behind the other. -/
private theorem Token.Contiguous.map_moved {ts : List Token} {offset : ℕ} (h : Contiguous offset ts)
    (n : ℕ) : Contiguous (offset + n) (ts.map (Token.moved n)) := by
  induction ts generalizing offset with
  | nil => trivial
  | cons t ts ih =>
    obtain ⟨hspan, hts⟩ := h
    refine ⟨?_, ih hts⟩
    rw [Token.moved, hspan, Span.moved, Nat.add_right_comm]

/-! ### The lexemes of an alias -/

/-- What is read as an alias with the right side `text`. -/
def aliasText (text : String) : String := "type X = " ++ text ++ ";"

/-- What stands in front of a lexeme behind a blank. -/
def Trivia.blank : Trivia := ⟨" ", [], false⟩

/-- The lexemes of `type X = `. -/
def aliasLexemes : List Lexeme :=
  [⟨Trivia.none, ⟨.identifier, "type", ⟨0, 4⟩⟩⟩, ⟨Trivia.blank, ⟨.identifier, "X", ⟨5, 6⟩⟩⟩,
    ⟨Trivia.blank, ⟨.equals, "=", ⟨7, 8⟩⟩⟩]

/-- The lexeme that a semicolon is, at an offset. -/
def Lexeme.semicolon (offset : ℕ) : Lexeme := ⟨Trivia.none, semicolonAt offset⟩

/-- What begins with a token that is not blank, and ends with one that is closed, has its tokens
behind the start of an alias, too. -/
private theorem Token.scan_aliasText {text : String} {t : Token} {ts : List Token}
    (h : scan text = t :: ts) (hfirst : t.kind ≠ .blank)
    (hlast : ∀ u ∈ (t :: ts).getLast?, u.kind.isClosed = true) :
    scan (aliasText text) = aliasStart ++
      (t :: ts ++ [semicolonAt (Text.byteLength text.toList)]).map (Token.moved 9) := by
  obtain ⟨us, hus⟩ : ∃ us, t :: ts ++ [semicolonAt (Text.byteLength text.toList)] = us := ⟨_, rfl⟩
  have hlexed := lexed_scan text
  have hcontiguous := contiguous_scan text
  have htext := flatMap_text_scan text
  rw [h] at hlexed hcontiguous htext
  have hbehind : Lexed (us.map (Token.moved 9)) :=
    hus ▸ (hlexed.append_semicolon hlast _).map_moved 9
  have hchars : (us.map (Token.moved 9)).flatMap (·.text.toList) = text.toList ++ [';'] := by
    rw [List.flatMap_map, ← hus, List.flatMap_append, List.flatMap_singleton]
    exact congrArg₂ (· ++ ·) htext (toList_semicolonAt _)
  -- What is behind the blank of the start is no blank, and so the start lexes as it is.
  have hall : Lexed (aliasStart ++ us.map (Token.moved 9)) := by
    refine hbehind.behind_aliasStart fun d hd => ?_
    rw [hchars, ← htext, List.flatMap_cons, List.append_assoc,
      List.head?_append_of_ne_nil _ hlexed.1.ne_nil] at hd
    exact hlexed.1.isSpace_of_head? hfirst d hd
  -- The start has nine bytes.
  have hplaces : Contiguous 0 (aliasStart ++ us.map (Token.moved 9)) := by
    have hsize : Text.byteLength "type X = ".toList = 9 := by decide
    rw [Contiguous.append_iff, flatMap_text_aliasStart, hsize, ← hus]
    refine ⟨contiguous_aliasStart, Contiguous.map_moved (Contiguous.append_iff.mpr ?_) 9⟩
    refine ⟨hcontiguous, ?_, trivial⟩
    rw [htext, Nat.zero_add, toList_semicolonAt]
    rfl
  have hscan := scan_of_lexed hall hplaces
  rw [moved_zero, List.map_id, List.flatMap_append, flatMap_text_aliasStart, hchars] at hscan
  rw [hus, ← hscan]
  refine congrArg scan (String.toList_injective ?_)
  rw [String.toList_ofList, aliasText, String.toList_append, String.toList_append,
    List.append_assoc]
  rfl

private theorem Trivia.eq_none_of_moved {n : ℕ} {trivia : Trivia}
    (h : trivia.moved n = Trivia.none) : trivia = Trivia.none := by
  obtain ⟨text, comments, lineBreak⟩ := trivia
  simpa [Trivia.moved, Trivia.none] using h

namespace Lexeme

/-- Tokens whose lexemes, further on, have no trivia behind them. -/
private theorem ofTokens_of_moved {n : ℕ} {ts : List Token} {ls : List Lexeme}
    (h : ofTokens (ts.map (Token.moved n)) = (ls, Trivia.none)) :
    ∃ ms, ofTokens ts = (ms, Trivia.none) ∧ ms.map (Lexeme.moved n) = ls := by
  have hmoved := ofTokensAfter_moved n Trivia.none ts
  have hnone : Trivia.none.moved n = Trivia.none := rfl
  rw [hnone, ← ofTokens, h] at hmoved
  obtain ⟨hls, hafter⟩ := Prod.mk.inj hmoved
  exact ⟨_, Prod.ext rfl (Trivia.eq_none_of_moved hafter.symm), hls.symm⟩

/-- Only the first token has something else in front of it behind the start of an alias. -/
private theorem ofTokens_behind_aliasStart {t : Token} {ts : List Token} {ms : List Lexeme}
    (ht : t.kind.isTrivia = false) (hts : ofTokens ts = (ms, Trivia.none)) (size n : ℕ) :
    ofTokens (aliasStart ++ (t :: ts ++ [semicolonAt size]).map (Token.moved n)) =
      (aliasLexemes ++
        ((⟨Trivia.blank, t⟩ : Lexeme) :: ms ++ [Lexeme.semicolon size]).map (Lexeme.moved n),
      Trivia.none) := by
  have hstart : ofTokensAfter Trivia.none aliasStart = (aliasLexemes, Trivia.blank) := rfl
  have hblank : Trivia.blank.moved n = Trivia.blank := rfl
  have hmoved := ofTokensAfter_moved n Trivia.blank (t :: ts ++ [semicolonAt size])
  have hpart : ofTokensAfter Trivia.blank (t :: ts ++ [semicolonAt size]) =
      (⟨Trivia.blank, t⟩ :: ms ++ [Lexeme.semicolon size], Trivia.none) := by
    rw [List.cons_append, ofTokensAfter, if_neg (by simp [ht]), ofTokensAfter_append, ← ofTokens,
      hts]
    rfl
  rw [hblank, hpart] at hmoved
  rw [ofTokens, ofTokensAfter_append, hstart, hmoved]
  rfl

/-- The lexemes of a source from one to another are made of tokens that stand one behind the other,
the first of which is that of the first lexeme. -/
private theorem exists_tokens_of_run {source : String} {front run back : List Lexeme} {l : Lexeme}
    {after : Trivia} (h : ofTokens (Token.scan source) = (front ++ (l :: run) ++ back, after)) :
    ∃ ts, From ts run ∧ l.token.kind.isTrivia = false ∧ Lexed (l.token :: ts) ∧
      Contiguous l.token.span.start (l.token :: ts) := by
  obtain ⟨us, rest, hscan, hfrom⟩ := exists_from_of_ofTokens h
  obtain ⟨_, us₃, rfl, hboth, -⟩ := hfrom.exists_append
  obtain ⟨us₁, us₂, rfl, -, hrun⟩ := hboth.exists_append
  cases hrun with
  | @cons trivia ts t _ _ ht hts =>
    have hsplit : Token.scan source = (us₁ ++ trivia) ++ (t :: ts ++ (us₃ ++ rest)) := by
      rw [hscan]
      simp
    have hlexed := Token.lexed_scan source
    have hcontiguous := Token.contiguous_scan source
    rw [hsplit] at hlexed hcontiguous
    obtain ⟨-, hbehind⟩ := Contiguous.append_iff.mp hcontiguous
    have hall := (Contiguous.append_iff.mp hbehind).1
    have hstart : t.span.start = _ := congrArg Span.start hall.1
    refine ⟨ts, hts, ht, hlexed.of_append.take, ?_⟩
    rwa [hstart]

/-- **A part of a source as the right side of an alias.** Moved by as many bytes as stand in front
of the part in the source, the lexemes are those of the part; only the trivia in front of the first
one is not the same. -/
theorem exists_lexemes_aliasText {source : String} {front run back : List Lexeme} {l : Lexeme}
    {after : Trivia} (h : ofTokens (Token.scan source) = (front ++ (l :: run) ++ back, after))
    (hclosed : ∀ m ∈ (l :: run).getLast?, m.token.kind.isClosed = true) :
    ∃ (t : Token) (ms : List Lexeme) (size : ℕ), t.moved l.token.span.start = l.token ∧
      ms.map (Lexeme.moved l.token.span.start) = run ∧
      ofTokens (Token.scan (aliasText (textOf (l :: run)))) =
        (aliasLexemes ++
          ((⟨Trivia.blank, t⟩ : Lexeme) :: ms ++ [Lexeme.semicolon size]).map (Lexeme.moved 9),
        Trivia.none) := by
  obtain ⟨ts, hfrom, htrivia, hlexed, hcontiguous⟩ := exists_tokens_of_run h
  have hwhole : From (l.token :: ts) (⟨Trivia.none, l.token⟩ :: run) :=
    @From.cons [] ts l.token run (List.forall_mem_nil _) htrivia hfrom
  have htext : (textOf (l :: run)).toList = (l.token :: ts).flatMap (·.text.toList) :=
    hwhole.textOf rfl
  -- The tokens of the text alone.
  have hmoved := Token.scan_of_lexed hlexed hcontiguous
  rw [← htext, String.ofList_toList] at hmoved
  obtain ⟨t, us, hscan, ht, hus⟩ := List.map_eq_cons_iff.mp hmoved
  obtain ⟨ms, hms, hrun⟩ := ofTokens_of_moved (hus ▸ hfrom.ofTokens_eq)
  have hkind : t.kind.isTrivia = false := by
    rw [← htrivia, ← ht]
    rfl
  have hlast : ∀ u ∈ (t :: us).getLast?, u.kind.isClosed = true := by
    intro u hu
    have hkinds := hwhole.getLast?_kind
    rw [← hmoved, hscan, List.getLast?_map, Option.mem_def.mp hu, List.getLast?_cons] at hkinds
    have hkind' : u.kind = ((run.getLast?).getD ⟨Trivia.none, l.token⟩).token.kind :=
      Option.some.inj hkinds
    rw [hkind']
    have hclosed' := hclosed _ List.getLast?_cons
    cases hlast : run.getLast? with
    | none =>
      rw [hlast] at hclosed'
      exact hclosed'
    | some m =>
      rw [hlast] at hclosed'
      exact hclosed'
  refine ⟨t, ms, Text.byteLength (textOf (l :: run)).toList, ht, hrun, ?_⟩
  rw [Token.scan_aliasText hscan (fun hblank => by rw [hblank] at hkind; cases hkind) hlast]
  exact ofTokens_behind_aliasStart hkind hms _ _

end Lexeme

/-! ### Reading the alias -/

namespace Program

open Reifier.Parser (ReadsAlone)
open Reifier.TypeExpr (unlimited)

/-- Behind a token that ends at `lastEnd`, where nothing has been found. -/
def cursorBehind (lastEnd endOffset : ℕ) (ls : List Lexeme) : Cursor where
  rest := ls
  endOffset := endOffset
  lastEnd := lastEnd
  comments := []
  diagnostics := []
  lastReport := none
  depth := 0

/-- An alias that begins so is read like its right side. -/
private theorem typeAlias_aliasLexemes (type : Parser TypeExpr) (endOffset : ℕ) (ls : List Lexeme) :
    typeAlias type (startCursor endOffset (aliasLexemes ++ ls)) =
      (do
        let right ← type
        let _ ← Parser.eat .semicolon
        return (⟨⟨"X", ⟨5, 6⟩⟩, none, right, false, ← Parser.spanFrom 0⟩ : TypeAlias))
      (cursorBehind 8 endOffset ls) := by
  rfl

private theorem statement_aliasLexemes (type : Parser TypeExpr) (endOffset : ℕ) (ls : List Lexeme) :
    statement type (startCursor endOffset (aliasLexemes ++ ls)) =
      ((typeAlias type >>= fun decl => pure (Declaration.typeAlias decl)) >>= fun decl =>
        pure (Statement.declaration decl)) (startCursor endOffset (aliasLexemes ++ ls)) := by
  rfl

/-- Nothing but the alias is read if a semicolon follows its right side, and nothing else. -/
private theorem statements_aliasLexemes {endOffset : ℕ} {ls : List Lexeme} {right : TypeExpr}
    {next : Cursor} {l : Lexeme}
    (hright : unlimited.whole (cursorBehind 8 endOffset ls) = .done right next)
    (hnext : next.rest = [l]) (hl : l.token.kind = .semicolon) :
    ∃ decl last, statements none (aliasLexemes ++ ls) (startCursor endOffset (aliasLexemes ++ ls)) =
        .done [⟨[], .declaration (.typeAlias decl)⟩] last ∧
      decl.id.name = "X" ∧ decl.params = none ∧ decl.right = right ∧
      last.diagnostics = next.diagnostics := by
  have hkind : next.hasKind 0 .semicolon = true :=
    Cursor.hasKind_zero_iff.mpr ⟨l, [], hnext, decide_eq_true hl⟩
  obtain ⟨decl, hdecl⟩ : ∃ decl : TypeAlias,
      decl = ⟨⟨"X", ⟨5, 6⟩⟩, none, right, false, (next.took l []).spanFrom 0⟩ := ⟨_, rfl⟩
  have halias : typeAlias unlimited.whole (startCursor endOffset (aliasLexemes ++ ls)) =
      .done decl (next.took l []) := by
    rw [typeAlias_aliasLexemes, Parser.bind_of_done hright,
      Parser.bind_of_done (Parser.eat_of_hasKind hkind hnext), hdecl]
    rfl
  have hstatement : statement unlimited.whole (startCursor endOffset (aliasLexemes ++ ls)) =
      .done (.declaration (.typeAlias decl)) (next.took l []) := by
    have hinside : (typeAlias unlimited.whole >>= fun decl => pure (Declaration.typeAlias decl))
        (startCursor endOffset (aliasLexemes ++ ls)) = .done (.typeAlias decl) (next.took l []) :=
      Parser.bind_of_done halias _
    rw [statement_aliasLexemes, Parser.bind_of_done hinside]
    rfl
  have hstart : (startCursor endOffset (aliasLexemes ++ ls)).rest ≠ [] := List.cons_ne_nil _ _
  refine ⟨decl, next.took l [], ?_, hdecl ▸ rfl, hdecl ▸ rfl, hdecl ▸ rfl, rfl⟩
  refine (statements_eq_unlimited (startCursor endOffset (aliasLexemes ++ ls))).trans ?_
  rw [Parser.rounds, bodyLoop_of_ne_nil _ _ hstart]
  refine (bodyRound_of_done hstatement).trans ?_
  exact Parser.bind_of_done (bodyLoop_of_nil _ _ rfl) _

/-- A text that nothing follows, `n` bytes further on. -/
def shifted (n : ℕ) : Placement := ⟨n, [], [], [], 0⟩

/-- What is read of lexemes that stand further on is what is read of them, further on. -/
private theorem exists_moved_of_done {n : ℕ} {c d next' : Cursor} (hplaces : (shifted n).Places c d)
    {t : TypeExpr} (hread : unlimited.whole d = .done t next') :
    ∃ t₀ next, unlimited.whole c = .done t₀ next ∧ t = t₀.moved n ∧
      (shifted n).Places next next' := by
  have hlength : d.rest.length = c.rest.length := hplaces.length_eq
  have hread' : (TypeExpr.nested none (c.rest.length + 1)).whole d = .done t next' := by
    rw [← hlength]
    exact hread
  have hfollows := (TypeExpr.follows_nested (le_refl (c.rest.length + 1)) 0).1 c d hplaces
    (.inl ⟨rfl, rfl⟩)
  have hagrees := (TypeExpr.agrees_unlimited (Nat.lt_succ_self c.rest.length)).1 c (Nat.zero_le _)
    le_rfl
  rw [hread'] at hfollows
  cases hc : (TypeExpr.nested none (c.rest.length + 1)).whole c with
  | done t₀ next =>
    rw [hc] at hfollows
    obtain ⟨_, _, hdone, hnext, rfl, -⟩ := hfollows
    cases hdone
    exact ⟨t₀, next, hc, rfl, hnext⟩
  | failed next =>
    rw [hc] at hfollows
    obtain ⟨_, hfailed, -⟩ := hfollows
    cases hfailed
  | halted cause next =>
    -- Without a limit nothing is halted.
    rw [hc] at hagrees
    exact hagrees.1.2.elim

/-- A type expression that is read is also read where the same lexemes stand further on, moved as
they are. -/
private theorem exists_done_of_moved {n : ℕ} {c d next : Cursor} (hplaces : (shifted n).Places c d)
    {t₀ : TypeExpr} (hread : unlimited.whole c = .done t₀ next) :
    ∃ next', unlimited.whole d = .done (t₀.moved n) next' ∧ (shifted n).Places next next' := by
  have hlength : d.rest.length = c.rest.length := hplaces.length_eq
  have hread' : (TypeExpr.nested none (c.rest.length + 1)).whole c = .done t₀ next := hread
  have hfollows := (TypeExpr.follows_nested (le_refl (c.rest.length + 1)) 0).1 c d hplaces
    (.inl ⟨rfl, rfl⟩)
  rw [hread', ← hlength] at hfollows
  obtain ⟨_, next', hdone, hnext, rfl, -⟩ := hfollows
  exact ⟨next', hdone, hnext⟩

/-- A text begins `n` bytes further on if the token in front of it ends there or before. -/
private theorem places_cursorBehind {n lastEnd : ℕ} (h : lastEnd ≤ n) (endOffset : ℕ)
    (ls : List Lexeme) : (shifted n).Places (startCursor endOffset ls)
      (cursorBehind lastEnd (endOffset + n) (ls.map (Lexeme.moved n))) where
  endOffset := rfl
  lastEnd := by simp [cursorBehind, shifted, startCursor, h]
  comments := rfl
  diagnostics := rfl
  lastReport := by simp [cursorBehind, startCursor]
  rest := (List.append_nil _).symm

/-- What a run of lexemes is read as where it stands alone is, with all its places, read of the text
of the run. -/
private theorem exists_startCursor_of_readsAlone {run ls : List Lexeme} {t : TypeExpr} {n : ℕ}
    {semicolon : Lexeme} (h : ReadsAlone unlimited.whole run t)
    (htokens : (ls.map (Lexeme.moved n)).map Lexeme.token = run.map Lexeme.token)
    (htail : (ls.map (Lexeme.moved n)).tail = run.tail)
    (hsemicolon : semicolon.token.kind = .semicolon) (endOffset : ℕ) :
    ∃ t₀ next m, unlimited.whole (startCursor endOffset (ls ++ [semicolon])) = .done t₀ next ∧
      t = t₀.moved n ∧ next.rest = [m] ∧ m.token.kind = .semicolon ∧ next.diagnostics = [] := by
  have hplaces := places_cursorBehind (le_refl n) endOffset (ls ++ [semicolon])
  obtain ⟨next', hdone, hrest', hdiagnostics'⟩ :=
    h (cursorBehind n (endOffset + n) ((ls ++ [semicolon]).map (Lexeme.moved n)))
      (ls.map (Lexeme.moved n)) [semicolon.moved n] List.map_append htokens htail
      (List.forall_mem_singleton.mpr hsemicolon) rfl
  obtain ⟨t₀, next, hbase, ht, hnext⟩ := exists_moved_of_done hplaces hdone
  have hrest := (List.append_nil _).symm.trans (hnext.rest.symm.trans hrest')
  obtain ⟨m, hm, hmoved⟩ := List.map_eq_singleton_iff.mp hrest
  have hkind : m.token.kind = semicolon.token.kind := congrArg (·.token.kind) hmoved
  have hnone := List.map_eq_nil_iff.mp (hnext.diagnostics.symm.trans hdiagnostics')
  exact ⟨t₀, next, m, hbase, ht, hm, hkind.trans hsemicolon, hnone⟩

end Program

/-! ### Annotations that are read alone -/

/-- A type expression is what its part of the source is read as: as the right side of an alias this
part is read without a report, and what comes of it is the type expression, with all its places
further on or further in front by the same distance. -/
def TypeExpr.ReadsBack (source : String) (t : TypeExpr) : Prop :=
  ∃ (text : String) (t₀ : TypeExpr) (reading : Program.Reading) (decl : TypeAlias),
    Text.slice? source.toList t.span = some text.toList ∧
    Program.parse none (aliasText text) = .ok reading ∧ reading.diagnostics = [] ∧
    reading.program.body = [⟨[], .declaration (.typeAlias decl)⟩] ∧ decl.id.name = "X" ∧
    decl.params = none ∧ t = t₀.moved t.span.start ∧ decl.right = t₀.moved 9

namespace Program

open Reifier.Parser (ReadsAlone)
open Reifier.TypeExpr (unlimited)

/-- **What is read of a run of lexemes that stand alone is read of the text of the run.** -/
theorem readsBack_of_readsAlone {source : String} {front run back : List Lexeme} {l : Lexeme}
    {after : Trivia}
    (h : Lexeme.ofTokens (Token.scan source) = (front ++ (l :: run) ++ back, after))
    (hclosed : ∀ m ∈ (l :: run).getLast?, m.token.kind.isClosed = true) {t : TypeExpr}
    (hspan : t.span = Lexeme.spanOf (l :: run))
    (hread : ReadsAlone unlimited.whole (l :: run) t) : t.ReadsBack source := by
  obtain ⟨first, ms, size, hfirst, hms, hlexemes⟩ := Lexeme.exists_lexemes_aliasText h hclosed
  obtain ⟨ls, hls⟩ : ∃ ls, (⟨Trivia.blank, first⟩ : Lexeme) :: ms ++ [Lexeme.semicolon size] = ls :=
    ⟨_, rfl⟩
  rw [hls] at hlexemes
  obtain ⟨bytes, hbytes⟩ :
      ∃ bytes, Text.byteLength (aliasText (Lexeme.textOf (l :: run))).toList = bytes + 9 := by
    have hstart : Text.byteLength "type X = ".toList = 9 := by decide
    refine ⟨Text.byteLength (Lexeme.textOf (l :: run)).toList + Text.byteLength ";".toList, ?_⟩
    rw [aliasText, String.toList_append, String.toList_append, Text.byteLength_append,
      Text.byteLength_append, hstart]
    omega
  have htokens : ((⟨Trivia.blank, first⟩ :: ms).map (Lexeme.moved l.token.span.start)).map
      Lexeme.token = (l :: run).map Lexeme.token := by
    rw [List.map_cons, List.map_cons, List.map_cons, hms]
    exact congrArg (· :: _) hfirst
  have hsemicolon : (Lexeme.semicolon size).token.kind = .semicolon := rfl
  -- The run is read from a cursor of its own, with a semicolon behind it, and this is then moved
  -- to where the type begins in the declaration.
  obtain ⟨t₀, next, m, hbase, ht, hm, hkind, hnone⟩ :=
    exists_startCursor_of_readsAlone hread htokens hms hsemicolon bytes
  rw [hls] at hbase
  obtain ⟨last, hright, hlast⟩ :=
    exists_done_of_moved (places_cursorBehind (by decide : 8 ≤ 9) bytes ls) hbase
  have hlastRest : last.rest = [m.moved 9] := by
    rw [hlast.rest, hm]
    rfl
  obtain ⟨decl, stop, hstatements, hname, hparams, hdecl, hstop⟩ :=
    statements_aliasLexemes hright hlastRest hkind
  rw [← hbytes] at hstatements
  refine ⟨Lexeme.textOf (l :: run), t₀, _, decl, ?_, parse_of_done hlexemes hstatements, ?_, rfl,
    hname, hparams, ?_, hdecl⟩
  · rw [hspan]
    exact Lexeme.slice?_spanOf h
  · dsimp only
    rw [hstop, hlast.diagnostics, hnone]
    rfl
  · rw [hspan]
    exact ht

end Program

end Reifier
