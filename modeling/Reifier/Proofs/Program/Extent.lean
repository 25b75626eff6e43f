import Reifier.Proofs.Program.Endings
import Reifier.Proofs.TypeExpr.Balance

/-!
# How far statements reach

Where a statement without a structure ends is said by its tokens alone (`Lexeme.behindStatement`).
Passing over the statement stops there, and so does reading it, although reading takes whole
declarations at once: these are balanced (`turns_declarationRest`) and stand inside brackets, so
none of their tokens can end the statement. Main statement: `skipStatement_of_verbatim`.
-/

namespace Reifier

open Token.Kind (IsFlat Balanced)

/-! ### The end of a statement -/

namespace Lexeme

/-- Whether a statement ends between a token of a given kind, behind which `depth` brackets are
open, and lexemes. -/
def EndsBetween (kind : Token.Kind) (depth : ℕ) (behind : List Lexeme) : Prop :=
  depth = 0 ∧ (kind = .semicolon ∨
    ∃ l ∈ behind.head?, l.before.lineBreak = true ∧ ∃ word ∈ Program.statementWords,
      l.isWord word = true)

instance (kind : Token.Kind) (depth : ℕ) (behind : List Lexeme) :
    Decidable (EndsBetween kind depth behind) := inferInstanceAs (Decidable (_ ∧ _))

/-- The lexemes behind a statement that begins with `depth` brackets open. -/
def behindStatement : ℕ → List Lexeme → List Lexeme
  | _, [] => []
  | depth, l :: ls =>
    if EndsBetween l.token.kind (l.token.kind.depthAfter depth) ls then ls
    else behindStatement (l.token.kind.depthAfter depth) ls

variable {depth : ℕ} {l : Lexeme} {ls : List Lexeme}

private theorem behindStatement_of_endsBetween
    (h : EndsBetween l.token.kind (l.token.kind.depthAfter depth) ls) :
    behindStatement depth (l :: ls) = ls := if_pos h

private theorem behindStatement_of_not
    (h : ¬ EndsBetween l.token.kind (l.token.kind.depthAfter depth) ls) :
    behindStatement depth (l :: ls) = behindStatement (l.token.kind.depthAfter depth) ls := if_neg h

/-- Inside brackets no token ends the statement. -/
theorem behindStatement_of_pos (h : 0 < l.token.kind.depthAfter depth) :
    behindStatement depth (l :: ls) = behindStatement (l.token.kind.depthAfter depth) ls :=
  behindStatement_of_not fun hends => h.ne' hends.1

end Lexeme

namespace Token.Kind

variable {kind opening close : Kind}

private theorem depthAfter_of_isFlat (depth : ℕ) (h : kind.IsFlat) :
    kind.depthAfter depth = depth := by
  simp [depthAfter, h.1, h.2]

theorem depthAfter_opening (depth : ℕ) (h : opening.closing? = some close) :
    opening.depthAfter depth = depth + 1 := by
  cases opening <;> first | rfl | cases h

private theorem depthAfter_closing (depth : ℕ) (h : opening.closing? = some close) :
    close.depthAfter (depth + 1) = depth := by
  cases opening <;> cases h <;> rfl

end Token.Kind

/-- **Balanced lexemes inside brackets are passed over.** -/
theorem Lexeme.behindStatement_append {kinds : List Token.Kind} (h : Balanced kinds)
    {run : List Lexeme} (hrun : kinds = Lexeme.kinds run) {depth : ℕ} (hdepth : 0 < depth)
    (behind : List Lexeme) :
    behindStatement depth (run ++ behind) = behindStatement depth behind := by
  induction h generalizing run depth behind with
  | nil =>
    obtain rfl : run = [] := List.map_eq_nil_iff.mp hrun.symm
    rfl
  | flat hkind _ ih =>
    obtain ⟨l, ls, rfl, rfl, hls⟩ := List.map_eq_cons_iff.mp hrun.symm
    have hsame := Token.Kind.depthAfter_of_isFlat depth hkind
    rw [List.cons_append, behindStatement_of_pos (hsame.symm ▸ hdepth), hsame]
    exact ih hls.symm hdepth behind
  | pair hclose _ _ ihinside ih =>
    obtain ⟨l, more, rfl, rfl, hmore⟩ := List.map_eq_cons_iff.mp hrun.symm
    obtain ⟨inside, back, rfl, hinside, hback⟩ := List.map_eq_append_iff.mp hmore
    obtain ⟨l', ls, rfl, rfl, hls⟩ := List.map_eq_cons_iff.mp hback
    have hopening := Token.Kind.depthAfter_opening depth hclose
    have hclosing := Token.Kind.depthAfter_closing depth hclose
    rw [List.cons_append, List.append_assoc, List.cons_append,
      behindStatement_of_pos (by rw [hopening]; exact Nat.succ_pos depth), hopening,
      ihinside hinside.symm (Nat.succ_pos depth),
      behindStatement_of_pos (by rw [hclosing]; exact hdepth), hclosing]
    exact ih hls.symm hdepth behind

namespace Program

open Reifier.TypeExpr
open Reifier.Parser (Turns TurnsWhere Agrees)
open Segment (bare)

variable {type : Parser TypeExpr} {opened : List Token.Kind} {c d : Cursor}

/-! ### The brackets of a declaration -/

/-- The words that begin a declaration of a type. -/
def declarationWords : List String := ["type", "interface"]

/-- What stands behind the name of a type alias; `first` is the word that begins it. -/
def typeAliasRest (type : Parser TypeExpr) (first : Token) (id : Identifier) :
    Parser TypeAlias := do
  let params ← declarationParams type
  let _ ← Parser.expect .equals "="
  let right ← type
  let _ ← Parser.eat .semicolon
  return ⟨id, params, right, false, ← Parser.spanFrom first.span.start⟩

/-- What stands behind the name of an interface; `first` is the word that begins it. -/
def interfaceRest (type : Parser TypeExpr) (first : Token) (id : Identifier) :
    Parser Interface := do
  let params ← declarationParams type
  let bases ← interfaceBases type
  if ← Parser.look fun c => c.hasKind 0 .braceOpen || c.hasKind 0 .braceBarOpen then
    let (body, bodySpan) ← objectType type
    let _ ← Parser.eat .semicolon
    return ⟨id, params, bases, body, bodySpan, false, ← Parser.spanFrom first.span.start⟩
  else Parser.reject .expectedToken (some "\x7b")

/-- What stands behind the name of a declaration. -/
def declarationRest (type : Parser TypeExpr) (isAlias : Bool) (first : Token) (id : Identifier) :
    Parser Declaration := do
  if isAlias = true then return .typeAlias (← typeAliasRest type first id)
  else return .interface (← interfaceRest type first id)

/-- A declaration begins with two words. -/
theorem declaration_of_cons_cons (type : Parser TypeExpr) {l m : Lexeme} {ls : List Lexeme}
    (hrest : c.rest = l :: m :: ls) (hname : m.token.kind = .identifier) :
    declaration type c = declarationRest type (c.isWord 0 "type") l.token
      ⟨m.token.text, m.token.span⟩ ((c.took l (m :: ls)).took m ls) := by
  have hkind : (c.took l (m :: ls)).hasKind 0 .identifier = true := decide_eq_true hname
  have hread : identifier (c.took l (m :: ls)) =
      .done ⟨m.token.text, m.token.span⟩ ((c.took l (m :: ls)).took m ls) := by
    rw [identifier, Parser.nextIs, Parser.test_of_true hkind]
    rfl
  have hfirst := Parser.advance_of_rest hrest
  rw [declaration, Parser.nextIsWord, Parser.look_bind_apply, declarationRest]
  split
  · rw [typeAlias, bind_assoc, Parser.bind_of_done hfirst, bind_assoc, Parser.bind_of_done hread]
    rfl
  · rw [interface, bind_assoc, Parser.bind_of_done hfirst, bind_assoc, Parser.bind_of_done hread]
    rfl

/-- A declaration begins with its word and an identifier. -/
theorem exists_cons_cons_of_ahead (h : (aliasAhead c || interfaceAhead c) = true) :
    ∃ l m ls, c.rest = l :: m :: ls ∧ l.token.isOneOf declarationWords = true ∧
      m.token.kind = .identifier := by
  have hwords : ∃ word ∈ declarationWords, c.isWord 0 word = true := by
    rcases Bool.or_eq_true_iff.mp h with h | h
    · exact ⟨"type", by decide, (Bool.and_eq_true_iff.mp h).1⟩
    · exact ⟨"interface", by decide, (Bool.and_eq_true_iff.mp h).1⟩
  have hname : c.hasKind 1 .identifier = true := by
    rcases Bool.or_eq_true_iff.mp h with h | h <;> exact (Bool.and_eq_true_iff.mp h).2
  obtain ⟨word, hmem, hword⟩ := hwords
  match hrest : c.rest with
  | [] => simp [Cursor.hasKind, hrest] at hname
  | [l] => simp [Cursor.hasKind, hrest] at hname
  | l :: m :: ls =>
    obtain ⟨hkind, htext⟩ := Token.Word.ext_iff.mp (Cursor.word_of_isWord hword hrest)
    refine ⟨l, m, ls, rfl, decide_eq_true ⟨hkind, ?_⟩, ?_⟩
    · rwa [show l.token.text = word from htext]
    · simpa [Cursor.hasKind, hrest, Lexeme.hasKind] using hname

section

variable (h : ∀ opened, Turns declarationWords ⟨opened, false⟩ ⟨opened, true⟩ type)
include h

private theorem turns_declarationParams :
    Turns declarationWords ⟨opened, false⟩ ⟨opened, false⟩ (declarationParams type) :=
  .choose ((turns_typeParams h).bind fun _ => .pure _) (.pure _)

private theorem turns_typeAliasRest (first : Token) (id : Identifier) :
    Turns declarationWords ⟨opened, false⟩ ⟨opened, true⟩ (typeAliasRest type first id) :=
  (turns_declarationParams h).bind fun _ => .expect_mark_bind (by decide) fun _ =>
    (h _).bind fun _ => .eat_any_bind (by decide) fun _ => .look_bind fun _ => .pure _

private theorem turns_interfaceBases :
    Turns declarationWords ⟨opened, false⟩ ⟨opened, true⟩ (interfaceBases type) := by
  refine .eatWord_bind (by decide) fun yes => ?_
  cases yes with
  | true => exact .commaSeparated fun _ => turns_generic h
  | false => exact .loosen (.pure _)

private theorem turns_interfaceRest (first : Token) (id : Identifier) :
    Turns declarationWords ⟨opened, false⟩ ⟨opened, true⟩ (interfaceRest type first id) := by
  refine (turns_declarationParams h).bind fun _ => (turns_interfaceBases h).bind fun _ => ?_
  refine .test ((turns_objectType h).bind fun _ => ?_) (.reject _ _)
  exact .eat_any_bind (by decide) fun _ => .look_bind fun _ => .pure _

/-- Behind its first two words a declaration leaves the brackets open that were open before, and
there are no other two words in it that might begin one. -/
theorem turns_declarationRest (isAlias : Bool) (first : Token) (id : Identifier) :
    Turns declarationWords ⟨opened, false⟩ ⟨opened, true⟩
      (declarationRest type isAlias first id) := by
  cases isAlias with
  | true => exact (turns_typeAliasRest h first id).bind fun _ => .pure _
  | false => exact (turns_interfaceRest h first id).bind fun _ => .pure _

end

/-- A declaration takes balanced lexemes. -/
private theorem exists_balanced_of_declaration
    (h : ∀ opened, Turns declarationWords ⟨opened, false⟩ ⟨opened, true⟩ type)
    {decl : Declaration} (hahead : (aliasAhead c || interfaceAhead c) = true)
    (hread : declaration type c = .done decl d) :
    ∃ run, c.rest = run ++ d.rest ∧ Balanced (Lexeme.kinds run) := by
  obtain ⟨l, m, ls, hrest, hfirst, hname⟩ := exists_cons_cons_of_ahead hahead
  rw [declaration_of_cons_cons type hrest hname] at hread
  obtain ⟨run, hrun, hbalanced⟩ := Turns.exists_balanced
    ((turns_declarationRest h _ _ _).toWhere fun _ => True) trivial hread
  have hflat : ∀ k : Lexeme, k.token.kind = .identifier → k.token.kind.IsFlat := fun k hk => by
    rw [hk]
    decide
  have hword : l.token.kind = .identifier := (of_decide_eq_true hfirst).1
  refine ⟨l :: m :: run, ?_, .flat (hflat l hword) (.flat (hflat m hname) hbalanced)⟩
  rw [hrest, List.cons_append, List.cons_append, ← hrun]
  rfl

/-! ### Passing over a statement -/

private theorem endsAfter_iff {kind : Token.Kind} {depth : ℕ} :
    endsAfter kind depth c = true ↔ Lexeme.EndsBetween kind depth c.rest := by
  unfold endsAfter Lexeme.EndsBetween Cursor.lineBreakAhead Cursor.isWord
  cases c.rest <;> simp

private theorem endsAfter_took {kind : Token.Kind} {depth : ℕ} {l : Lexeme} {ls : List Lexeme} :
    endsAfter kind depth (c.took l ls) = true ↔ Lexeme.EndsBetween kind depth ls := endsAfter_iff

/-- A round of skipping takes a lexeme, and is the last one if the statement ends behind this. -/
private theorem skipLoop_of_cons (n depth : ℕ) {l : Lexeme} {ls : List Lexeme}
    (hrest : c.rest = l :: ls) : skipLoop (n + 1) depth c =
      if Lexeme.EndsBetween l.token.kind (l.token.kind.depthAfter depth) ls then
        .done () (c.took l ls)
      else skipLoop n (l.token.kind.depthAfter depth) (c.took l ls) := by
  have hmore : ¬ c.rest.isEmpty = true := by simp [hrest]
  rw [skipLoop, Parser.atEnd, Parser.test_of_not hmore,
    Parser.bind_of_done (Parser.advance_of_rest hrest)]
  by_cases hends : endsAfter l.token.kind (l.token.kind.depthAfter depth) (c.took l ls) = true
  · rw [Parser.test_of_true hends, if_pos (endsAfter_took.mp hends)]
    rfl
  · rw [Parser.test_of_not hends, if_neg fun h => hends (endsAfter_took.mpr h)]

/-- **Skipping comes to the end of the statement,** given more rounds than lexemes are ahead, and
takes what it does without a report. The induction is on the rounds, with the brackets that are
open. -/
theorem exists_of_skipLoop {n : ℕ} (depth : ℕ) (hn : c.rest.length < n) :
    ∃ last, skipLoop n depth c = .done () last ∧
      last.rest = Lexeme.behindStatement depth c.rest ∧ c.Quiet last := by
  induction n generalizing depth c with
  | zero => exact absurd hn (Nat.not_lt_zero _)
  | succ n ih =>
    cases hrest : c.rest with
    | nil =>
      have hend : c.rest.isEmpty = true := by simp [hrest]
      refine ⟨c, ?_, hrest, .refl c⟩
      rw [skipLoop, Parser.atEnd, Parser.test_of_true hend]
      rfl
    | cons l ls =>
      rw [skipLoop_of_cons n depth hrest]
      split
      · rename_i hends
        exact ⟨_, rfl, (Lexeme.behindStatement_of_endsBetween hends).symm, .took hrest⟩
      · rename_i hends
        have hlength : (c.took l ls).rest.length < n := by
          rw [hrest, List.length_cons] at hn
          exact Nat.lt_of_succ_lt_succ hn
        rw [Lexeme.behindStatement_of_not hends]
        obtain ⟨last, hskip, hlast, hquiet⟩ := ih (l.token.kind.depthAfter depth) hlength
        exact ⟨last, hskip, hlast, (Cursor.Quiet.took hrest).trans hquiet⟩

/-! ### Reading a statement -/

/-- A round that reads no declaration takes a lexeme as skipping does. -/
private theorem textRound_of_cons (n depth : ℕ) {l : Lexeme} {ls : List Lexeme}
    (hrest : c.rest = l :: ls) : textRound type n depth c =
      if Lexeme.EndsBetween l.token.kind (l.token.kind.depthAfter depth) ls then
        .done [] (c.took l ls)
      else
        verbatimLoop type n (l.token.kind.depthAfter depth) (some l.token.kind) (c.took l ls) := by
  rw [textRound, Parser.bind_of_done (Parser.advance_of_rest hrest)]
  by_cases hends : endsAfter l.token.kind (l.token.kind.depthAfter depth) (c.took l ls) = true
  · rw [Parser.test_of_true hends, if_pos (endsAfter_took.mp hends)]
    rfl
  · rw [Parser.test_of_not hends, if_neg fun h => hends (endsAfter_took.mpr h)]

/-- Reading a statement stops where its tokens say that it ends. -/
theorem rest_of_verbatimLoop
    (h : ∀ opened, Turns declarationWords ⟨opened, false⟩ ⟨opened, true⟩ type) {n depth : ℕ}
    {previous : Option Token.Kind} {found : List (Item Declaration)}
    (hrun : verbatimLoop type n depth previous c = .done found d) :
    d.rest = Lexeme.behindStatement depth c.rest := by
  induction n generalizing depth previous c found with
  | zero => cases hrun
  | succ n ih =>
    cases hrest : c.rest with
    | nil =>
      rw [verbatimLoop_of_nil type n depth previous hrest] at hrun
      cases hrun
      exact hrest
    | cons l ls =>
      obtain ⟨decl, next, more, hdepth, -, hahead, hread, hmore, -⟩ | ⟨e, he, htext, -⟩ :=
        verbatimRound_cases hrest hrun
      · -- The lexemes of the declaration are balanced, so they do not end the statement.
        obtain ⟨run, hover, hbalanced⟩ := exists_balanced_of_declaration h
          (declarationAhead_of_nestedAhead hahead) hread
        rw [(settled_of_cons hrest).1] at hover
        calc d.rest = Lexeme.behindStatement depth next.rest := ih hmore
          _ = Lexeme.behindStatement depth (run ++ next.rest) :=
              (Lexeme.behindStatement_append hbalanced rfl hdepth _).symm
          _ = Lexeme.behindStatement depth (bare l :: ls) := by rw [hover]
          _ = Lexeme.behindStatement depth (l :: ls) := rfl
      · rw [textRound_of_cons n depth he] at htext
        split at htext
        · rename_i hends
          cases htext
          exact (Lexeme.behindStatement_of_endsBetween hends).symm
        · rename_i hends
          exact (ih htext).trans (Lexeme.behindStatement_of_not hends).symm

theorem exists_verbatimLoop_of_verbatim {text : Verbatim} (hrun : verbatim type c = .done text d) :
    ∃ found, verbatimLoop type (c.rest.length + 1) 0 none c = .done found d := by
  rw [verbatim, Parser.nextStart, Parser.look_bind_apply, Parser.look_bind_apply] at hrun
  obtain ⟨found, last, hloop, hlast⟩ := Parser.exists_of_bind_eq_done hrun
  cases hlast
  exact ⟨found, hloop⟩

theorem rest_of_verbatim
    (h : ∀ opened, Turns declarationWords ⟨opened, false⟩ ⟨opened, true⟩ type) {text : Verbatim}
    (hrun : verbatim type c = .done text d) : d.rest = Lexeme.behindStatement 0 c.rest := by
  obtain ⟨found, hloop⟩ := exists_verbatimLoop_of_verbatim hrun
  exact rest_of_verbatimLoop h hloop

theorem neverFails_verbatim : Parser.NeverFails (verbatim type) :=
  .look_bind fun _ => .look_bind fun _ =>
    .bind (fun c next => neverFails_verbatimLoop _ _ _ c next) fun _ =>
      .look_bind fun _ => .look_bind fun _ => .pure _

/-- A statement is read unless types are nested too deeply in it. -/
private theorem exists_of_verbatim {limit : Option ℕ} {knots : ℕ} (hknots : c.rest.length < knots)
    (hlimit : ∀ next, verbatim (nested limit knots).whole c ≠ .halted .tooDeep next) :
    ∃ text next, verbatim (nested limit knots).whole c = .done text next := by
  have hloop : ∀ found next, Parser.rounds (verbatimLoop (nested limit knots).whole · 0 none) c =
      .done found next → ∃ text next, verbatim (nested limit knots).whole c = .done text next :=
    fun found next hfound => by
      rw [verbatim, Parser.nextStart, Parser.look_bind_apply, Parser.look_bind_apply,
        Parser.bind_of_done hfound]
      exact ⟨_, _, rfl⟩
  cases hrest : c.rest with
  | nil => exact hloop [] c (verbatimLoop_of_nil _ _ _ _ hrest)
  | cons l ls =>
    have hagrees := (agrees_verbatim fun m hm =>
      (agrees_nested (fun h : limit ≠ none => h) (fun _ => id) (hm.trans hknots)
        (hm.trans hknots)).1).agrees c (by simp [hrest]) le_rfl
    cases hrun : verbatim (nested limit knots).whole c with
    | done text next => exact ⟨text, next, rfl⟩
    | failed next => exact absurd hrun (neverFails_verbatim c next)
    | halted cause next =>
      rw [hrun] at hagrees
      obtain rfl := hagrees.1.1
      exact absurd hrun (hlimit next)

/-- **Reading the declarations inside a statement does not move its end**, whatever is found, read,
or tried in vain: unless types are nested too deeply, reading stops at the lexeme at which passing
over the statement stops. The declarations of types that are read take balanced lexemes. -/
theorem skipStatement_of_verbatim (limit : Option ℕ) (knots : ℕ) (c : Cursor) :
    (c.rest.length < knots →
      (∀ next, verbatim (nested limit knots).whole c ≠ .halted .tooDeep next) →
      ∃ text next last, verbatim (nested limit knots).whole c = .done text next ∧
        skipStatement c = .done () last ∧ next.rest = last.rest) ∧
    ∀ decl next, (aliasAhead c || interfaceAhead c) = true →
      declaration (nested limit knots).whole c = .done decl next →
      ∃ run, c.rest = run ++ next.rest ∧ Balanced (Lexeme.kinds run) := by
  have hwords : "typeof" ∉ declarationWords := by decide
  have hturns := (turns_nested hwords limit knots).1
  refine ⟨fun hknots hlimit => ?_, fun decl next hahead hread =>
    exists_balanced_of_declaration hturns hahead hread⟩
  obtain ⟨text, next, hread⟩ := exists_of_verbatim hknots hlimit
  obtain ⟨last, hskip, hlast, -⟩ := exists_of_skipLoop 0 (Nat.lt_succ_self c.rest.length)
  exact ⟨text, next, last, hread, hskip, (rest_of_verbatim hturns hread).trans hlast.symm⟩

/-! ### A declaration inside brackets -/

/-- A source that begins with a statement in whose brackets one declaration is read and another one
is not. -/
def callSource : String := "f(() => \x7b\n type A = (\x7b b: string \x7d)[];\n type B = ;\n\x7d); g"

/-- What is read of a statement without a structure: how many declarations are inside its brackets,
and how many lexemes are left behind it. -/
def verbatimExtent (limit : Option ℕ) (knots : ℕ) (c : Cursor) : Option (ℕ × ℕ) :=
  match verbatim (nested limit knots).whole c with
  | .done text next => some (text.nested.length, next.rest.length)
  | _ => none

/-- How many lexemes a declaration leaves behind. -/
def declarationExtent (limit : Option ℕ) (knots : ℕ) (c : Cursor) : Option ℕ :=
  match declaration (nested limit knots).whole c with
  | .done _ next => some next.rest.length
  | _ => none

private theorem ne_halted_of_verbatimExtent {limit : Option ℕ} {knots : ℕ} {extent : ℕ × ℕ}
    (h : verbatimExtent limit knots c = some extent) (next : Cursor) :
    verbatim (nested limit knots).whole c ≠ .halted .tooDeep next := by
  intro hhalted
  rw [verbatimExtent, hhalted] at h
  cases h

/-- An extent is that of a declaration that is read. -/
private theorem exists_of_declarationExtent {limit : Option ℕ} {knots left : ℕ}
    (h : declarationExtent limit knots c = some left) :
    ∃ decl next, declaration (nested limit knots).whole c = .done decl next ∧
      next.rest.length = left := by
  unfold declarationExtent at h
  split at h
  · rename_i decl next hread
    exact ⟨decl, next, hread, Option.some.inj h⟩
  · cases h

theorem skipStatement_of_verbatim_call :
    (sourceStart callSource).rest.length < 40 ∧
      (∀ next, verbatim (nested (some 3) 40).whole (sourceStart callSource) ≠
        .halted .tooDeep next) ∧
      verbatimExtent (some 3) 40 (sourceStart callSource) = some (1, 1) ∧
      (∃ text next last,
        verbatim (nested (some 3) 40).whole (sourceStart callSource) = .done text next ∧
          skipStatement (sourceStart callSource) = .done () last ∧ next.rest = last.rest) ∧
      (aliasAhead (sourceStart "type A = {| b: string |}[]; g") ||
        interfaceAhead (sourceStart "type A = {| b: string |}[]; g")) = true ∧
      ∃ decl next run, declaration (nested (some 3) 40).whole
          (sourceStart "type A = {| b: string |}[]; g") = .done decl next ∧
        (sourceStart "type A = {| b: string |}[]; g").rest = run ++ next.rest ∧
        next.rest.length = 1 ∧ Balanced (Lexeme.kinds run) := by
  have hextent : verbatimExtent (some 3) 40 (sourceStart callSource) = some (1, 1) := by
    decide +kernel
  have hlength : (sourceStart callSource).rest.length < 40 := by decide +kernel
  have hlimit := ne_halted_of_verbatimExtent hextent
  have hahead : (aliasAhead (sourceStart "type A = {| b: string |}[]; g") ||
      interfaceAhead (sourceStart "type A = {| b: string |}[]; g")) = true := by decide +kernel
  have hleft : declarationExtent (some 3) 40 (sourceStart "type A = {| b: string |}[]; g") =
      some 1 := by decide +kernel
  obtain ⟨decl, next, hread, hone⟩ := exists_of_declarationExtent hleft
  refine ⟨hlength, hlimit, hextent,
    (skipStatement_of_verbatim (some 3) 40 (sourceStart callSource)).1 hlength hlimit, hahead, ?_⟩
  obtain ⟨run, hrun, hbalanced⟩ := (skipStatement_of_verbatim (some 3) 40
    (sourceStart "type A = {| b: string |}[]; g")).2 decl next hahead hread
  exact ⟨decl, next, run, hread, hrun, hone, hbalanced⟩

end Program

end Reifier
