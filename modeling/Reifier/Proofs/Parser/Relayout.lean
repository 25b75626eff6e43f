import Reifier.Proofs.Parser.Agreement
import Reifier.Proofs.Token.Rereading

/-!
# Parsers in two layouts

Two sources may have the same lexemes apart from where they stand and from the trivia before them,
as long as the trivia breaks the line before the same lexemes. A `Relayout` says which offsets of
the two sources belong together, and `ρ.Matches c d` that two cursors have come equally far.

`Parser.Mirrors ρ V p q` compares a run of `p` in the first source with a run of `q` in the second:
both are done, with values that are related by `V`, or both fail, or both halt for the same cause.
Nothing else is seen of the trivia, so there is one rule for each combinator that productions are
built from, without any condition on the cursor.
-/

namespace Reifier

variable {α β γ δ ε : Type}

/-- Two values that a function takes to the same. -/
def EqualUnder (e : α → γ) (a b : α) : Prop := e b = e a

/-! ### Cursors in two layouts -/

/-- Which offsets of a source belong to which of another one. No offset belongs to two. -/
structure Relayout where
  Meets : ℕ → ℕ → Prop
  meets_iff {m n m' n' : ℕ} : Meets m m' → Meets n n' → (m = n ↔ m' = n')

namespace Relayout

/-- Offsets that stand at the same place in two lists belong together. -/
def ofStarts {starts starts' : List ℕ} (h : starts.Nodup) (h' : starts'.Nodup) : Relayout where
  Meets m m' := ∃ i : ℕ, starts[i]? = some m ∧ starts'[i]? = some m'
  meets_iff := by
    have hplace : ∀ {ns : List ℕ}, ns.Nodup → ∀ {i j m n : ℕ}, ns[i]? = some m → ns[j]? = some n →
        (m = n ↔ i = j) := by
      intro ns hns i j m n hi hj
      constructor
      · rintro rfl
        obtain ⟨hlt, -⟩ := List.getElem?_eq_some_iff.mp hi
        exact (List.getElem?_inj hlt hns).mp (hi.trans hj.symm)
      · rintro rfl
        exact Option.some.inj (hi.symm.trans hj)
    rintro m n m' n' ⟨i, hm, hm'⟩ ⟨j, hn, hn'⟩
    rw [hplace h hm hn, hplace h' hm' hn']

variable {ρ : Relayout} {c d : Cursor}

/-- The same lexeme in two layouts. -/
structure MatchesLexeme (ρ : Relayout) (l m : Lexeme) : Prop where
  word : EqualUnder Token.word l.token m.token
  lineBreak : m.before.lineBreak = l.before.lineBreak
  start : ρ.Meets l.token.span.start m.token.span.start

/-- Whether two cursors have come equally far and have found the same wrong. -/
structure Matches (ρ : Relayout) (c d : Cursor) : Prop where
  rest : List.Forall₂ ρ.MatchesLexeme c.rest d.rest
  rereads : Lexeme.Rereads c.rest ∧ Lexeme.Rereads d.rest
  endOffset : ρ.Meets c.endOffset d.endOffset
  diagnostics : EqualUnder (List.map fun w : Diagnostic => (w.kind, w.detail))
    c.diagnostics d.diagnostics
  lastReport : Option.Rel ρ.Meets c.lastReport d.lastReport
  depth : d.depth = c.depth

namespace MatchesLexeme

variable {l m : Lexeme} (h : ρ.MatchesLexeme l m)
include h

private theorem kind : m.token.kind = l.token.kind := congrArg Token.Word.kind h.word

private theorem text : m.token.text = l.token.text := congrArg Token.Word.text h.word

end MatchesLexeme

/-! ### What is seen from two cursors -/

namespace Matches

variable (h : ρ.Matches c d)
include h

theorem length_eq : d.rest.length = c.rest.length := h.rest.length_eq.symm

/-- The next lexeme is there for both, or for none of them. -/
private theorem cases_rest : (c.rest = [] ∧ d.rest = []) ∨
    ∃ l ls m ms, c.rest = l :: ls ∧ d.rest = m :: ms ∧ ρ.MatchesLexeme l m ∧
      List.Forall₂ ρ.MatchesLexeme ls ms := by
  have hrest := h.rest
  cases hc : c.rest with
  | nil =>
    rw [hc, List.forall₂_nil_left_iff] at hrest
    exact .inl ⟨rfl, hrest⟩
  | cons l ls =>
    rw [hc] at hrest
    obtain ⟨m, ms, hlm, hmore, hd⟩ := List.forall₂_cons_left_iff.mp hrest
    exact .inr ⟨l, ls, m, ms, rfl, hd, hlm, hmore⟩

/-- Lexemes match place by place. -/
private theorem getElem? (n : ℕ) : Option.Rel ρ.MatchesLexeme c.rest[n]? d.rest[n]? := by
  have hrest := h.rest
  generalize c.rest = ls at hrest
  generalize d.rest = ms at hrest
  induction hrest generalizing n with
  | nil => exact .none
  | cons hlm _ ih =>
    cases n with
    | zero => exact .some hlm
    | succ n => exact ih n

/-- What only asks for the token of a lexeme is the same from both cursors. -/
private theorem any_getElem? (n : ℕ) {see : Lexeme → Bool}
    (hsee : ∀ l m, ρ.MatchesLexeme l m → see m = see l) :
    d.rest[n]?.any see = c.rest[n]?.any see := by
  have hrel := h.getElem? n
  revert hrel
  generalize c.rest[n]? = l?
  generalize d.rest[n]? = m?
  rintro (hlm | _)
  · exact hsee _ _ hlm
  · rfl

/-- What comes next begins at places that meet. -/
private theorem nextStart : ρ.Meets c.nextStart d.nextStart := by
  unfold Cursor.nextStart
  rcases h.cases_rest with ⟨hc, hd⟩ | ⟨l, ls, m, ms, hc, hd, hlm, -⟩
  · rw [hc, hd]
    exact h.endOffset
  · rw [hc, hd]
    exact hlm.start

/-! ### What becomes of two cursors -/

/-- Taking a lexeme on both sides. -/
private theorem took {l m : Lexeme} {ls ms : List Lexeme} (hc : c.rest = l :: ls)
    (hd : d.rest = m :: ms) : ρ.Matches (c.took l ls) (d.took m ms) := by
  obtain ⟨hrest, ⟨hrereads, hrereads'⟩, hend, hdiagnostics, hreport, hdepth⟩ := h
  rw [hc] at hrest hrereads
  rw [hd] at hrest hrereads'
  exact ⟨(List.forall₂_cons.mp hrest).2, ⟨hrereads.of_cons, hrereads'.of_cons⟩, hend,
    hdiagnostics, hreport, hdepth⟩

/-- Recording comments on both sides. -/
private theorem settled : ρ.Matches c.settled d.settled := by
  unfold Cursor.settled
  rcases h.cases_rest with ⟨hc, hd⟩ | ⟨l, ls, m, ms, hc, hd, hlm, hmore⟩
  · rw [hc, hd]
    exact h
  · obtain ⟨-, ⟨hrereads, hrereads'⟩, hend, hdiagnostics, hreport, hdepth⟩ := h
    rw [hc] at hrereads ⊢
    rw [hd] at hrereads' ⊢
    exact ⟨.cons ⟨hlm.word, rfl, hlm.start⟩ hmore, ⟨hrereads.head rfl, hrereads'.head rfl⟩, hend,
      hdiagnostics, hreport, hdepth⟩

/-- Two reports at places that belong together are both new, or none of them is. -/
private theorem report (kind : Diagnostic.Kind) (detail : Option String) :
    ρ.Matches (c.report kind detail) (d.report kind detail) := by
  have hstart := h.nextStart
  have hsame : c.lastReport = some c.nextStart ↔ d.lastReport = some d.nextStart := by
    have hreport := h.lastReport
    revert hreport
    generalize c.lastReport = last
    generalize d.lastReport = last'
    rintro (hlast | _)
    · rw [Option.some_inj, Option.some_inj]
      exact ρ.meets_iff hlast hstart
    · exact iff_of_false nofun nofun
  unfold Cursor.report
  by_cases hlast : c.lastReport = some c.nextStart
  · rw [if_pos hlast, if_pos (hsame.mp hlast)]
    exact h
  · rw [if_neg hlast, if_neg fun hlast' => hlast (hsame.mpr hlast')]
    refine ⟨h.rest, h.rereads, h.endOffset, ?_, .some hstart, h.depth⟩
    have hbefore := h.diagnostics
    unfold EqualUnder at hbefore ⊢
    rw [List.map_append, List.map_append, hbefore]
    rfl

private theorem entered : ρ.Matches c.entered d.entered :=
  ⟨h.rest, h.rereads, h.endOffset, h.diagnostics, h.lastReport, congrArg (· + 1) h.depth⟩

private theorem left : ρ.Matches c.left d.left :=
  ⟨h.rest, h.rereads, h.endOffset, h.diagnostics, h.lastReport, congrArg (· - 1) h.depth⟩

/-- After a failed attempt one goes back to the lexemes before it. -/
private theorem rewind {next next' : Cursor} (hnext : ρ.Matches next next') :
    ρ.Matches { next with rest := c.rest, comments := c.comments }
      { next' with rest := d.rest, comments := d.comments } :=
  ⟨h.rest, h.rereads, hnext.endOffset, hnext.diagnostics, hnext.lastReport, hnext.depth⟩

end Matches

/-- A view that is the same from both cursors. -/
def Sees (ρ : Relayout) (view : Cursor → γ) : Prop :=
  ∀ c d : Cursor, ρ.Matches c d → view d = view c

namespace Sees

variable {v w : Cursor → Bool}

protected theorem hasKind (n : ℕ) (kind : Token.Kind) : ρ.Sees (·.hasKind n kind) := fun _ _ h =>
  h.any_getElem? n fun l m hlm => by rw [Lexeme.hasKind, hlm.kind, Lexeme.hasKind]

protected theorem isWord (n : ℕ) (word : String) : ρ.Sees (·.isWord n word) := fun _ _ h =>
  h.any_getElem? n fun l m hlm => by rw [Lexeme.isWord, hlm.kind, hlm.text, Lexeme.isWord]

/-- A line break ahead is seen on both sides, since matching lexemes have the same breaks before
them. -/
protected theorem lineBreakAhead : ρ.Sees (·.lineBreakAhead) := by
  intro c d h
  dsimp only
  unfold Cursor.lineBreakAhead
  rw [List.head?_eq_getElem?, List.head?_eq_getElem?]
  exact h.any_getElem? 0 fun l m hlm => hlm.lineBreak

protected theorem atEnd : ρ.Sees (·.rest.isEmpty) := by
  intro c d h
  dsimp only
  rcases h.cases_rest with ⟨hc, hd⟩ | ⟨l, ls, m, ms, hc, hd, -, -⟩
  · rw [hc, hd]
  · rw [hc, hd]
    rfl

protected theorem length : ρ.Sees (·.rest.length) := fun _ _ h => h.length_eq

/-- The kind of what comes next is seen alike. -/
protected theorem nextKind : ρ.Sees (·.rest.head?.map (·.token.kind)) := by
  intro c d h
  dsimp only
  rcases h.cases_rest with ⟨hc, hd⟩ | ⟨l, ls, m, ms, hc, hd, hlm, -⟩
  · rw [hc, hd]
  · rw [hc, hd]
    exact congrArg some hlm.kind

protected theorem nextText : ρ.Sees fun c => (c.rest.head?.map (·.token.text)).getD "" := by
  intro c d h
  dsimp only
  rcases h.cases_rest with ⟨hc, hd⟩ | ⟨l, ls, m, ms, hc, hd, hlm, -⟩
  · rw [hc, hd]
  · rw [hc, hd]
    exact hlm.text

protected theorem const (b : Bool) : ρ.Sees fun _ => b := fun _ _ _ => rfl

/-- What is seen alike is denied alike. -/
protected theorem not (h : ρ.Sees v) : ρ.Sees fun c => !v c := by
  intro c d hcd
  dsimp only
  rw [h c d hcd]

protected theorem and (hv : ρ.Sees v) (hw : ρ.Sees w) : ρ.Sees fun c => v c && w c := by
  intro c d hcd
  dsimp only
  rw [hv c d hcd, hw c d hcd]

protected theorem or (hv : ρ.Sees v) (hw : ρ.Sees w) : ρ.Sees fun c => v c || w c := by
  intro c d hcd
  dsimp only
  rw [hv c d hcd, hw c d hcd]

end Sees

end Relayout

/-! ### Mirrored runs -/

/-- How two outcomes in two layouts compare. -/
def Outcome.Mirrors (ρ : Relayout) (V : α → β → Prop) : Outcome α → Outcome β → Prop
  | .done a next, other => ∃ b next', other = .done b next' ∧ V a b ∧ ρ.Matches next next'
  | .failed next, other => ∃ next', other = .failed next' ∧ ρ.Matches next next'
  | .halted cause _, other => ∃ next', other = .halted cause next'

namespace Parser

open Reifier.Relayout (Sees)

/-- The outcomes compare from any two cursors that have come equally far. -/
def Mirrors (ρ : Relayout) (V : α → β → Prop) (p : Parser α) (q : Parser β) : Prop :=
  ∀ c d : Cursor, ρ.Matches c d → (p c).Mirrors ρ V (q d)

namespace Mirrors

variable {ρ : Relayout} {p : Parser α} {q : Parser β} {V : α → β → Prop} {W : γ → δ → Prop}

/-! ### Sequence -/

protected theorem done {a : α} {b : β} (h : V a b) : Mirrors ρ V (pure a) (pure b) :=
  fun _ _ hcd => ⟨b, _, rfl, h, hcd⟩

/-- A sequence mirrors another one part by part. -/
protected theorem bind {f : α → Parser γ} {g : β → Parser δ} (hp : Mirrors ρ V p q)
    (hf : ∀ {a b}, V a b → Mirrors ρ W (f a) (g b)) : Mirrors ρ W (p >>= f) (q >>= g) := by
  intro c d hcd
  have hrun := hp c d hcd
  cases hpc : p c with
  | done a next =>
    rw [hpc] at hrun
    obtain ⟨b, next', hq, hab, hnext⟩ := hrun
    rw [bind_of_done hpc, bind_of_done hq]
    exact hf hab next next' hnext
  | failed next =>
    rw [hpc] at hrun
    obtain ⟨next', hq, hnext⟩ := hrun
    rw [bind_of_failed hpc, bind_of_failed hq]
    exact ⟨next', rfl, hnext⟩
  | halted cause next =>
    rw [hpc] at hrun
    obtain ⟨next', hq⟩ := hrun
    rw [bind_of_halted hpc, bind_of_halted hq]
    exact ⟨next', rfl⟩

protected theorem halt (cause : Halt) :
    Mirrors ρ V (Parser.halt cause : Parser α) (Parser.halt cause : Parser β) :=
  fun _ d _ => ⟨d, rfl⟩

protected theorem reject (kind : Diagnostic.Kind) (detail : Option String) :
    Mirrors ρ V (Parser.reject kind detail : Parser α) (Parser.reject kind detail : Parser β) :=
  fun _ _ hcd => ⟨_, rfl, hcd.report kind detail⟩

/-! ### Looking -/

/-- A view that is seen alike chooses the same way on. -/
theorem look_bind {view : Cursor → ε} (hview : ρ.Sees view) {f : ε → Parser γ} {g : ε → Parser δ}
    (hf : ∀ x, Mirrors ρ W (f x) (g x)) : Mirrors ρ W (look view >>= f) (look view >>= g) := by
  intro c d hcd
  rw [look_bind_apply, look_bind_apply, hview c d hcd]
  exact hf (view c) c d hcd

/-- Offsets differ. -/
theorem nextStart_bind {f : ℕ → Parser γ} {g : ℕ → Parser δ}
    (hf : ∀ start start', Mirrors ρ W (f start) (g start')) :
    Mirrors ρ W (nextStart >>= f) (nextStart >>= g) :=
  fun c d hcd => hf c.nextStart d.nextStart c d hcd

/-- So do ranges. -/
theorem spanFrom_bind {start start' : ℕ} {f : Span → Parser γ} {g : Span → Parser δ}
    (hf : ∀ span span', Mirrors ρ W (f span) (g span')) :
    Mirrors ρ W (spanFrom start >>= f) (spanFrom start' >>= g) :=
  fun c d hcd => hf (c.spanFrom start) (d.spanFrom start') c d hcd

/-- A test that is seen alike chooses the same branch. -/
theorem test {view : Cursor → Bool} (hview : ρ.Sees view) {a b : Parser γ} {a' b' : Parser δ}
    (ha : Mirrors ρ W a a') (hb : Mirrors ρ W b b') :
    Mirrors ρ W (look view >>= fun yes => if yes = true then a else b)
      (look view >>= fun yes => if yes = true then a' else b') := by
  refine look_bind hview fun yes => ?_
  cases yes with
  | true => exact ha
  | false => exact hb

/-- Something may be read first, after a test, before what is read in any case. -/
theorem sometimes {view : Cursor → Bool} (hview : ρ.Sees view) (hp : Mirrors ρ V p q)
    {rest : Parser γ} {rest' : Parser δ} (hrest : Mirrors ρ W rest rest') :
    Mirrors ρ W (look view >>= fun yes => if yes = true then p >>= fun _ => rest else rest)
      (look view >>= fun yes => if yes = true then q >>= fun _ => rest' else rest') :=
  test hview (.bind hp fun _ => hrest) hrest

/-! ### Taking -/

/-- Taking a lexeme gives tokens of the same word. -/
protected theorem advance : Mirrors ρ (EqualUnder Token.word) advance advance := by
  intro c d hcd
  rcases hcd.cases_rest with ⟨hc, hd⟩ | ⟨l, ls, m, ms, hc, hd, hlm, -⟩
  · rw [advance, hc, advance, hd]
    exact ⟨d, rfl⟩
  · rw [advance_of_rest hc, advance_of_rest hd]
    exact ⟨m.token, _, rfl, hlm.word, hcd.took hc hd⟩

protected theorem eat (kind : Token.Kind) : Mirrors ρ (EqualUnder id) (eat kind) (eat kind) :=
  .test (.hasKind 0 kind) (.bind .advance fun _ => .done rfl) (.done rfl)

protected theorem expect (kind : Token.Kind) (spelling : String) :
    Mirrors ρ (EqualUnder Token.word) (expect kind spelling) (expect kind spelling) :=
  .test (.hasKind 0 kind) .advance (.reject _ _)

protected theorem expectWord (word : String) :
    Mirrors ρ (EqualUnder Token.word) (expectWord word) (expectWord word) :=
  .test (.isWord 0 word) .advance (.reject _ _)

theorem eat_bind {kind : Token.Kind} {f : Bool → Parser γ} {g : Bool → Parser δ}
    (htrue : Mirrors ρ W (f true) (g true)) (hfalse : Mirrors ρ W (f false) (g false)) :
    Mirrors ρ W (Parser.eat kind >>= f) (Parser.eat kind >>= g) := by
  rw [Parser.eat_bind, Parser.eat_bind]
  exact test (.hasKind 0 kind) (.bind .advance fun _ => htrue) hfalse

theorem eatWord_bind {word : String} {f : Bool → Parser γ} {g : Bool → Parser δ}
    (htrue : Mirrors ρ W (f true) (g true)) (hfalse : Mirrors ρ W (f false) (g false)) :
    Mirrors ρ W (Parser.eatWord word >>= f) (Parser.eatWord word >>= g) := by
  rw [Parser.eatWord_bind, Parser.eatWord_bind]
  exact test (.isWord 0 word) (.bind .advance fun _ => htrue) hfalse

/-! ### Recording comments -/

/-- Comments may differ in number, so nothing is said of their places. -/
theorem settle_bind {f : List CommentId → Parser γ} {g : List CommentId → Parser δ}
    (hf : ∀ ids ids', Mirrors ρ W (f ids) (g ids')) :
    Mirrors ρ W (settle >>= f) (settle >>= g) :=
  fun _ _ hcd => hf _ _ _ _ hcd.settled

/-! ### Repeating -/

/-- Both loops have the same number of rounds, as many lexemes being left. -/
protected theorem rounds {loop : ℕ → Parser α} {loop' : ℕ → Parser β}
    (h : ∀ n, Mirrors ρ V (loop n) (loop' n)) : Mirrors ρ V (rounds loop) (rounds loop') := by
  intro c d hcd
  rw [Parser.rounds, Parser.rounds, hcd.length_eq]
  exact h _ c d hcd

variable {e : α → γ} {r s : Parser α}

protected theorem after? {kind : Token.Kind} (h : Mirrors ρ (EqualUnder e) r s) :
    Mirrors ρ (EqualUnder (Option.map e)) (after? kind r) (after? kind s) :=
  .eat_bind (h.bind fun hab => .done (congrArg some hab)) (.done rfl)

/-- Operands mirror each other one by one. -/
protected theorem operands {operator : Token.Kind} (h : Mirrors ρ (EqualUnder e) r s) :
    Mirrors ρ (EqualUnder (List.map e)) (operands operator r) (operands operator s) := by
  refine .rounds fun n => ?_
  induction n with
  | zero => exact .halt _
  | succ n ih =>
    refine .eat_bind ?_ (.done rfl)
    exact h.bind fun hab => ih.bind fun hmore => .done (congrArg₂ List.cons hab hmore)

/-- Items mirror each other one by one. -/
protected theorem items {close : Token.Kind} (h : Mirrors ρ (EqualUnder e) r s) :
    Mirrors ρ (EqualUnder (List.map e)) (items close r) (items close s) := by
  refine .rounds fun n => ?_
  induction n with
  | zero => exact .halt _
  | succ n ih =>
    refine .test (.hasKind 0 close) (.done rfl) (h.bind fun {a b} hab => .eat_bind ?_ ?_)
    · exact ih.bind fun hmore => .done (congrArg₂ List.cons hab hmore)
    · exact .done (congrArg (fun x => [x]) hab)

protected theorem commaSeparated (h : Mirrors ρ (EqualUnder e) r s) :
    Mirrors ρ (EqualUnder (List.map e)) (commaSeparated r) (commaSeparated s) :=
  h.bind fun hab => h.operands.bind fun hmore => .done (congrArg₂ List.cons hab hmore)

/-! ### Trying -/

/-- Either both parsers go on with a result or both without one. -/
protected theorem recover (h : Mirrors ρ V p q) :
    Mirrors ρ (Option.Rel V) (recover p) (recover q) := by
  intro c d hcd
  have hrun := h c d hcd
  rw [recover, recover]
  cases hpc : p c with
  | done a next =>
    rw [hpc] at hrun
    obtain ⟨b, next', hq, hab, hnext⟩ := hrun
    rw [hq]
    exact ⟨some b, next', rfl, .some hab, hnext⟩
  | failed next =>
    rw [hpc] at hrun
    obtain ⟨next', hq, hnext⟩ := hrun
    rw [hq]
    exact ⟨none, next', rfl, .none, hnext⟩
  | halted cause next =>
    rw [hpc] at hrun
    obtain ⟨next', hq⟩ := hrun
    rw [hq]
    exact ⟨next', rfl⟩

/-- Either both attempts succeed or both go back, to cursors that match as they did before. -/
protected theorem attempt (h : Mirrors ρ V p q) :
    Mirrors ρ (Option.Rel V) (attempt p) (attempt q) := by
  intro c d hcd
  have hrun := h c d hcd
  rw [attempt, attempt]
  cases hpc : p c with
  | done a next =>
    rw [hpc] at hrun
    obtain ⟨b, next', hq, hab, hnext⟩ := hrun
    rw [hq]
    exact ⟨some b, next', rfl, .some hab, hnext⟩
  | failed next =>
    rw [hpc] at hrun
    obtain ⟨next', hq, hnext⟩ := hrun
    rw [hq]
    exact ⟨none, _, rfl, .none, hcd.rewind hnext⟩
  | halted cause next =>
    rw [hpc] at hrun
    obtain ⟨next', hq⟩ := hrun
    rw [hq]
    exact ⟨next', rfl⟩

/-! ### Nesting -/

/-- Equally many levels are open, so the limit is reached in both or in none. -/
protected theorem nesting {limit : Option ℕ} (h : Mirrors ρ V p q) :
    Mirrors ρ V (nesting limit p) (nesting limit q) := by
  intro c d hcd
  have hrun := h c.entered d.entered hcd.entered
  rw [nesting, nesting, hcd.depth]
  split_ifs
  · exact ⟨d, rfl⟩
  · cases hpc : p c.entered with
    | done a next =>
      rw [hpc] at hrun
      obtain ⟨b, next', hq, hab, hnext⟩ := hrun
      rw [hq]
      exact ⟨b, _, rfl, hab, hnext.left⟩
    | failed next =>
      rw [hpc] at hrun
      obtain ⟨next', hq, hnext⟩ := hrun
      rw [hq]
      exact ⟨_, rfl, hnext.left⟩
    | halted cause next =>
      rw [hpc] at hrun
      obtain ⟨next', hq⟩ := hrun
      rw [hq]
      exact ⟨_, rfl⟩

end Mirrors

end Parser

end Reifier
