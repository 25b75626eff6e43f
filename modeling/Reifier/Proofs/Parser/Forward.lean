import Reifier.Proofs.Parser.Keeps

/-!
# Parsers that only go forward

A parser without attempts takes a run of lexemes and nothing else: what it leaves is what stood
behind the run, the comments that it records are those before the lexemes of the run, and the last
end that it knows is that of the run (`Cursor.Over`). If it fails, it has reported something.

`p.Forward inv post` says this of a parser, and that it is done with a value that satisfies `post`
at a cursor with the lasting property `inv`, if it is run from such a cursor. The rules follow the
combinators, except `settle`, `attempt` and `recover`.
-/

namespace Reifier

variable {α β : Type}

/-! ### Runs of lexemes -/

namespace Lexeme

/-- The comments before the lexemes of a run. -/
def comments (run : List Lexeme) : List Comment := run.flatMap (·.before.comments)

/-- Where a run ends, if there is something in it. -/
def lastStop (run : List Lexeme) (otherwise : ℕ) : ℕ :=
  (run.getLast?.map (·.token.span.stop)).getD otherwise

@[simp] theorem comments_nil : comments [] = [] := rfl

@[simp] theorem comments_cons (l : Lexeme) (run : List Lexeme) :
    comments (l :: run) = l.before.comments ++ comments run := rfl

@[simp] theorem comments_append (run more : List Lexeme) :
    comments (run ++ more) = comments run ++ comments more := List.flatMap_append

/-- Where a run ends is where what follows its first lexeme ends. -/
theorem lastStop_cons (l : Lexeme) (run : List Lexeme) (otherwise : ℕ) :
    lastStop (l :: run) otherwise = lastStop run l.token.span.stop := by
  cases run with
  | nil => rfl
  | cons m run => simp [lastStop, List.getLast?_cons]

/-- Where two runs one after the other end. -/
theorem lastStop_append (run more : List Lexeme) (otherwise : ℕ) :
    lastStop (run ++ more) otherwise = lastStop more (lastStop run otherwise) := by
  induction run generalizing otherwise with
  | nil => rfl
  | cons l run ih => rw [List.cons_append, lastStop_cons, ih, lastStop_cons]

/-- From the first token of a run to the end of the last one. -/
def spanOf (run : List Lexeme) : Span :=
  match run with
  | [] => Span.point 0
  | l :: more =>
    ⟨l.token.span.start, max (lastStop more l.token.span.stop) l.token.span.start⟩

end Lexeme

namespace Cursor

/-- The lexemes of `run` have been taken from `c` on, and nothing but reporting has been done
besides. -/
structure Over (c : Cursor) (run : List Lexeme) (d : Cursor) : Prop where
  rest : c.rest = run ++ d.rest
  comments : d.comments = c.comments ++ Lexeme.comments run
  lastEnd : d.lastEnd = Lexeme.lastStop run c.lastEnd

/-- Some lexemes have been taken. -/
def Goes (c d : Cursor) : Prop := ∃ run, c.Over run d

/-- Lexemes have been taken, the first of them with the token `first`. -/
def GoesFrom (first : Token) (c d : Cursor) : Prop :=
  ∃ l run, l.token = first ∧ c.Over (l :: run) d

namespace Over

variable {c d e : Cursor} {run more : List Lexeme}

protected theorem refl (c : Cursor) : c.Over [] c := ⟨rfl, (List.append_nil _).symm, rfl⟩

/-- Runs are put together. -/
protected theorem trans (h : c.Over run d) (h' : d.Over more e) : c.Over (run ++ more) e where
  rest := by rw [h.rest, h'.rest, List.append_assoc]
  comments := by rw [h'.comments, h.comments, Lexeme.comments_append, List.append_assoc]
  lastEnd := by rw [h'.lastEnd, h.lastEnd, Lexeme.lastStop_append]

protected theorem take {l : Lexeme} {ls : List Lexeme} (h : c.rest = l :: ls) :
    c.Over [l] (c.took l ls) :=
  ⟨h, by simp [took], rfl⟩

/-- A report takes nothing. -/
protected theorem report (c : Cursor) (kind : Diagnostic.Kind) (detail : Option String) :
    c.Over [] (c.report kind detail) := by
  unfold Cursor.report
  split <;> exact ⟨rfl, (List.append_nil _).symm, rfl⟩

/-- A run does not depend on the level. -/
private theorem entered (h : c.Over run d) : c.Over run d.entered := ⟨h.rest, h.comments, h.lastEnd⟩

private theorem left (h : c.Over run d) : c.Over run d.left := ⟨h.rest, h.comments, h.lastEnd⟩

/-- What has been taken between two cursors is determined by them. -/
theorem eq (h : c.Over run d) (h' : c.Over more d) : run = more :=
  List.append_cancel_right (h.rest.symm.trans h'.rest)

/-- A span that is read from the start of a run on is that of the run. -/
theorem spanFrom {l : Lexeme} (h : c.Over (l :: run) d) :
    d.spanFrom l.token.span.start = Lexeme.spanOf (l :: run) := by
  rw [Cursor.spanFrom, h.lastEnd, Lexeme.lastStop_cons]
  rfl

/-- A run may be taken in two steps: first the comments before it are recorded. -/
theorem of_settled {l m : Lexeme} {ls : List Lexeme} (hrest : c.rest = l :: ls)
    (h : c.settled.Over (m :: run) d) : m = { l with before := Trivia.none } ∧
      c.Over (l :: run) d := by
  unfold settled at h
  rw [hrest] at h
  obtain ⟨hrun, hcomments, hlast⟩ := h
  dsimp only at hrun hcomments hlast
  obtain ⟨rfl, hls⟩ := List.cons.inj hrun
  refine ⟨rfl, ⟨?_, ?_, ?_⟩⟩
  · rw [hrest, hls]
    rfl
  · rw [hcomments]
    simp [Trivia.none]
  · rw [hlast, Lexeme.lastStop_cons, Lexeme.lastStop_cons]

end Over

protected theorem Goes.refl (c : Cursor) : c.Goes c := ⟨[], .refl c⟩

/-- Going ahead twice is going ahead. -/
protected theorem Goes.trans {c d e : Cursor} (h : c.Goes d) (h' : d.Goes e) : c.Goes e := by
  obtain ⟨run, hrun⟩ := h
  obtain ⟨more, hmore⟩ := h'
  exact ⟨run ++ more, hrun.trans hmore⟩

/-- Going ahead from a token and then further is going ahead from it. -/
theorem GoesFrom.trans {first : Token} {c d e : Cursor} (h : c.GoesFrom first d) (h' : d.Goes e) :
    c.GoesFrom first e := by
  obtain ⟨l, run, hl, hrun⟩ := h
  obtain ⟨more, hmore⟩ := h'
  exact ⟨l, run ++ more, hl, hrun.trans hmore⟩

/-- A span from the start of the first token to the end of the last one that has been taken. -/
theorem GoesFrom.exists_spanFrom {first : Token} {c d : Cursor} (h : c.GoesFrom first d) :
    ∃ l run, l.token = first ∧ c.Over (l :: run) d ∧
      d.spanFrom first.span.start = Lexeme.spanOf (l :: run) := by
  obtain ⟨l, run, rfl, hrun⟩ := h
  exact ⟨l, run, rfl, hrun, hrun.spanFrom⟩

end Cursor

/-! ### Parsers -/

namespace Parser

open Cursor (Goes Lasting)

/-- From a cursor with the property `inv` the parser takes a run of lexemes. If it is done, then
with a value that satisfies `post`, and if it fails, it has reported why; `inv` holds where it
stops. -/
def Forward (inv : Cursor → Prop) (post : α → Prop) (p : Parser α) : Prop :=
  ∀ c₀ : Cursor, Triple (fun c => inv c ∧ c₀.Goes c) p (fun a c => post a ∧ inv c ∧ c₀.Goes c)
    fun c => (inv c ∧ c₀.Goes c) ∧ c.lastReport ≠ none

namespace Forward

variable {inv : Cursor → Prop} {post : α → Prop} {post' : β → Prop} {p : Parser α}

/-- What has been taken before a run counts with what is taken in it. -/
theorem triple {R : Cursor → Prop} (hR : ∀ c d, R c → c.Goes d → R d) (h : Forward inv post p) :
    Triple (fun c => inv c ∧ R c) p (fun a c => post a ∧ inv c ∧ R c)
      fun c => (inv c ∧ R c) ∧ c.lastReport ≠ none := by
  intro c hc
  exact (h c c ⟨hc.1, .refl c⟩).mono
    (fun a d hd => ⟨hd.1, hd.2.1, hR c d hc.2 hd.2.2⟩)
    fun d hd => ⟨⟨hd.1.1, hR c d hc.2 hd.1.2⟩, hd.2⟩

/-- What is known of all that a parser comes to is known where it is asked for further. -/
theorem bind_triple {R fail : Cursor → Prop} {Q : β → Cursor → Prop} {f : α → Parser β}
    (hR : ∀ c d, R c → c.Goes d → R d) (hfail : ∀ c, (inv c ∧ R c) ∧ c.lastReport ≠ none → fail c)
    (hp : Forward inv post p)
    (hf : ∀ a, post a → Triple (fun c => inv c ∧ R c) (f a) Q fail) :
    Triple (fun c => inv c ∧ R c) (p >>= f) Q fail := by
  have hfirst := (hp.triple hR).mono (fun _ => id) (fun _ _ => id) hfail
  exact .bind hfirst fun a c hc => hf a hc.1 c hc.2

/-! ### Sequence -/

protected theorem pure {a : α} (h : post a) : Forward inv post (pure a : Parser α) :=
  fun _ => .pure fun _ hc => ⟨h, hc⟩

/-- A sequence goes forward over both parts, one after the other. -/
protected theorem bind {f : α → Parser β} (hp : Forward inv post p)
    (hf : ∀ a, post a → Forward inv post' (f a)) : Forward inv post' (p >>= f) :=
  fun c₀ => .bind (hp c₀) fun a c hc => hf a hc.1 c₀ c hc.2

/-! ### Looking -/

/-- What is seen may be something that holds where `inv` does. -/
theorem look_bind {view : Cursor → α} {f : α → Parser β} (hview : ∀ c, inv c → post (view c))
    (hf : ∀ a, post a → Forward inv post' (f a)) : Forward inv post' (look view >>= f) := by
  refine fun c₀ => .look_bind fun a c hc => ?_
  obtain ⟨hc, rfl⟩ := hc
  exact hf _ (hview c hc.1) c₀ c hc

/-- A look ahead takes nothing, whatever it sees. -/
theorem any_look_bind {view : Cursor → α} {f : α → Parser β} (hf : ∀ a, Forward inv post' (f a)) :
    Forward inv post' (look view >>= f) :=
  fun c₀ => .look_bind fun a c hc => hf a c₀ c hc.1

theorem test {view : Cursor → Bool} {a b : Parser β} (ha : Forward inv post' a)
    (hb : Forward inv post' b) :
    Forward inv post' (look view >>= fun yes => if yes = true then a else b) :=
  fun c₀ => .test (fun c hc => ha c₀ c hc.1) (hb c₀)

protected theorem halt (cause : Halt) : Forward inv post (halt cause : Parser α) :=
  fun _ => .halt cause

protected theorem rounds {loop : ℕ → Parser α} (h : ∀ n, Forward inv post (loop n)) :
    Forward inv post (rounds loop) :=
  fun c₀ => .rounds fun n => h n c₀

/-! ### Moving -/

variable [Lasting inv]

/-- A rejection stays where it is and has reported something. -/
protected theorem reject (kind : Diagnostic.Kind) (detail : Option String) :
    Forward inv post (reject kind detail : Parser α) := by
  refine fun c₀ => .reject fun c hc => ⟨⟨Lasting.reaches hc.1 (.report c kind detail), ?_⟩, ?_⟩
  · exact hc.2.trans ⟨[], .report c kind detail⟩
  · unfold Cursor.report
    split
    · rename_i hreport
      rw [hreport]
      exact Option.some_ne_none _
    · exact Option.some_ne_none _

/-- The next token is taken, of which something is known. -/
theorem take_bind (ahead : Cursor → Prop) (found : Token → Prop) {f : Token → Parser β}
    (h : ∀ c l ls, inv c → ahead c → c.rest = l :: ls → found l.token)
    (hf : ∀ t, found t → Forward inv post' (f t)) (c₀ : Cursor) :
    Triple (fun c => (inv c ∧ c₀.Goes c) ∧ ahead c) (Parser.advance >>= f)
      (fun b c => post' b ∧ inv c ∧ c₀.Goes c)
      fun c => (inv c ∧ c₀.Goes c) ∧ c.lastReport ≠ none := by
  have htake : ∀ c l ls, ((inv c ∧ c₀.Goes c) ∧ ahead c) → c.rest = l :: ls →
      found l.token ∧ inv (c.took l ls) ∧ c₀.Goes (c.took l ls) :=
    fun c l ls ⟨⟨hc, hgoes⟩, hahead⟩ hrest =>
      ⟨h c l ls hc hahead hrest, Lasting.reaches hc (.take hrest),
        hgoes.trans ⟨[l], .take hrest⟩⟩
  have hrest : ∀ t, Triple (fun c => found t ∧ inv c ∧ c₀.Goes c) (f t)
      (fun b c => post' b ∧ inv c ∧ c₀.Goes c)
      fun c => (inv c ∧ c₀.Goes c) ∧ c.lastReport ≠ none :=
    fun t c hc => hf t hc.1 c₀ c hc.2
  exact .advance_bind htake hrest

/-- Nothing is asked of the token that is taken. -/
theorem any_advance_bind {f : Token → Parser β} (hf : ∀ t, Forward inv post' (f t)) :
    Forward inv post' (Parser.advance >>= f) := by
  intro c₀
  have hany : ∀ (c : Cursor) (l : Lexeme) (ls : List Lexeme), inv c → True → c.rest = l :: ls →
      True := fun _ _ _ _ _ _ => trivial
  exact (take_bind (fun _ => True) (fun _ => True) hany (fun t _ => hf t) c₀).anti
    fun c hc => ⟨hc, trivial⟩

protected theorem eat_bind {kind : Token.Kind} {f : Bool → Parser β}
    (htrue : Forward inv post' (f true)) (hfalse : Forward inv post' (f false)) :
    Forward inv post' (eat kind >>= f) := by
  rw [Parser.eat_bind]
  exact test (any_advance_bind fun _ => htrue) hfalse

protected theorem eatWord_bind {word : String} {f : Bool → Parser β}
    (htrue : Forward inv post' (f true)) (hfalse : Forward inv post' (f false)) :
    Forward inv post' (eatWord word >>= f) := by
  rw [Parser.eatWord_bind]
  exact test (any_advance_bind fun _ => htrue) hfalse

protected theorem expect_bind {kind : Token.Kind} {spelling : String} {f : Token → Parser β}
    (hf : ∀ t, Forward inv post' (f t)) : Forward inv post' (expect kind spelling >>= f) := by
  rw [Parser.expect_bind]
  exact test (any_advance_bind hf) (.reject _ _)

protected theorem expectWord_bind {word : String} {f : Token → Parser β}
    (hf : ∀ t, Forward inv post' (f t)) : Forward inv post' (expectWord word >>= f) := by
  rw [Parser.expectWord_bind]
  exact test (any_advance_bind hf) (.reject _ _)

protected theorem eat (kind : Token.Kind) : Forward inv (fun _ => True) (eat kind) :=
  test (any_advance_bind fun _ => .pure trivial) (.pure trivial)

protected theorem expect (kind : Token.Kind) (spelling : String) :
    Forward inv (fun _ => True) (expect kind spelling) := by
  rw [← bind_pure (Parser.expect kind spelling)]
  exact .expect_bind fun _ => .pure trivial

protected theorem after? {kind : Token.Kind} (hp : Forward inv post p) :
    Forward inv (fun a? => ∀ a ∈ a?, post a) (after? kind p) := by
  refine .eat_bind (.bind hp fun a ha => .pure ?_) (.pure ?_)
  · rintro b ⟨⟩
    exact ha
  · rintro b ⟨⟩

/-- Operands are read one behind the other, with their signs between them. -/
protected theorem operands {operator : Token.Kind} (hp : Forward inv post p) :
    Forward inv (fun as => ∀ a ∈ as, post a) (operands operator p) := by
  refine .rounds fun n => ?_
  induction n with
  | zero => exact .halt _
  | succ n ih =>
    refine .eat_bind (.bind hp fun a ha => .bind ih fun as has => .pure ?_) (.pure ?_)
    · exact List.forall_mem_cons.mpr ⟨ha, has⟩
    · exact List.forall_mem_nil _

/-- Items are read one behind the other, with commas between them, up to the closing mark. -/
protected theorem items {close : Token.Kind} (hp : Forward inv post p) :
    Forward inv (fun as => ∀ a ∈ as, post a) (items close p) := by
  refine .rounds fun n => ?_
  induction n with
  | zero => exact .halt _
  | succ n ih =>
    refine .test (.pure (List.forall_mem_nil _)) (.bind hp fun a ha => .eat_bind ?_ ?_)
    · exact .bind ih fun as has => .pure (List.forall_mem_cons.mpr ⟨ha, has⟩)
    · exact .pure (List.forall_mem_singleton.mpr ha)

protected theorem commaSeparated (hp : Forward inv post p) :
    Forward inv (fun as => ∀ a ∈ as, post a) (commaSeparated p) :=
  .bind hp fun _ ha => .bind (.operands hp) fun _ has =>
    .pure (List.forall_mem_cons.mpr ⟨ha, has⟩)

/-! ### Nesting -/

omit [Lasting inv] in
/-- Entering a level and leaving it takes no lexeme. An exhausted limit halts the parser. -/
protected theorem nesting {limit : Option ℕ} (hinv : ∀ c, inv c → inv c.entered)
    (hleft : ∀ c, inv c → inv c.left) (hp : Forward inv post p) :
    Forward inv post (nesting limit p) := by
  have hgoes : ∀ {c₀ c : Cursor}, c₀.Goes c → c₀.Goes c.left := fun ⟨run, hrun⟩ =>
    ⟨run, hrun.left⟩
  intro c₀
  have hpre : ∀ c : Cursor, inv c ∧ c₀.Goes c → limit.any (· ≤ c.depth) = false →
      (fun c => inv c ∧ c₀.Goes c) c.entered := by
    rintro c ⟨hc, run, hrun⟩ -
    exact ⟨hinv c hc, run, hrun.entered⟩
  exact .nesting hpre ((hp c₀).mono (fun _ => id)
    (fun a c hc => ⟨hc.1, hleft c hc.2.1, hgoes hc.2.2⟩)
    fun c hc => ⟨⟨hleft c hc.1.1, hgoes hc.1.2⟩, hc.2⟩)

end Forward

end Parser

end Reifier
