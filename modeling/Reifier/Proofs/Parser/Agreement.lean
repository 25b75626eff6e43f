import Mathlib.Tactic
import Reifier.Parser.Basic

/-!
# Parsers that agree

What a parser may do to its cursor is said once: `Cursor.Reaches c d` holds when `d` comes about
from `c` by taking a lexeme, recording comments, reporting, going back after a failed attempt, and
reading one level further in. Whatever a run of a parser keeps is then an induction over these
moves. Two such facts are here: the tokens that a run leaves are some of those that it began with
(`Reaches.tokens_sublist`), and it closes every level that it opens (`Reaches.depth_eq`).

`Parser.Agrees may least most p q` compares two parsers at cursors with at least `least` and at most
`most` lexemes left. Unless `p` halts because of nesting, which is only allowed when `may` holds,
both come to the same outcome, at a cursor that is reached from the first one. In particular `p`
never asks for a lexeme that is not there; `p.Agrees may least most p` says this of one parser
alone. The rules below follow the combinators that productions are built from.
-/

namespace Reifier

/-! ### Moves of a cursor -/

/-- The moves that parsers make, one after another. -/
inductive Cursor.Reaches : Cursor → Cursor → Prop
  | refl (c : Cursor) : Reaches c c
  | trans {a b c : Cursor} : Reaches a b → Reaches b c → Reaches a c
  | take {c : Cursor} {l : Lexeme} {ls : List Lexeme} (h : c.rest = l :: ls) :
      Reaches c (c.took l ls)
  | settle (c : Cursor) : Reaches c c.settled
  | report (c : Cursor) (kind : Diagnostic.Kind) (detail : Option String) :
      Reaches c (c.report kind detail)
  | rewind {c next : Cursor} :
      Reaches c next → Reaches c { next with rest := c.rest, comments := c.comments }
  | nest {c next : Cursor} : Reaches c.entered next → Reaches c next.left

namespace Cursor

theorem report_rest (c : Cursor) (kind : Diagnostic.Kind) (detail : Option String) :
    (c.report kind detail).rest = c.rest := by
  unfold report
  split <;> rfl

private theorem report_depth (c : Cursor) (kind : Diagnostic.Kind) (detail : Option String) :
    (c.report kind detail).depth = c.depth := by
  unfold report
  split <;> rfl

/-- Leaving a level and reporting do not get in each other's way. -/
theorem left_report (c : Cursor) (kind : Diagnostic.Kind) (detail : Option String) :
    (c.report kind detail).left = c.left.report kind detail := by
  unfold report
  split <;> rename_i hreport
  · exact (if_pos hreport).symm
  · exact (if_neg hreport).symm

theorem settled_length (c : Cursor) : c.settled.rest.length = c.rest.length := by
  unfold settled
  split <;> simp_all

private theorem settled_depth (c : Cursor) : c.settled.depth = c.depth := by
  unfold settled
  split <;> rfl

/-- The tokens of the lexemes ahead. -/
def tokens (c : Cursor) : List Token := c.rest.map Lexeme.token

/-- Recording comments leaves the tokens as they are. -/
theorem settled_tokens (c : Cursor) : c.settled.tokens = c.tokens := by
  unfold tokens settled
  cases hrest : c.rest with
  | nil => rw [hrest]
  | cons l ls => rfl

/-- Moving on never brings back a token. -/
theorem Reaches.tokens_sublist {c d : Cursor} (h : c.Reaches d) : d.tokens.Sublist c.tokens := by
  induction h with
  | refl => exact .refl _
  | trans _ _ ih₁ ih₂ => exact ih₂.trans ih₁
  | @take c l ls h =>
    have htokens : c.tokens = l.token :: (c.took l ls).tokens := by
      rw [tokens, h]
      rfl
    rw [htokens]
    exact List.sublist_cons_self _ _
  | settle c => rw [settled_tokens]
  | report c kind detail => rw [tokens, report_rest, tokens]
  | rewind => exact .refl _
  | nest _ ih => exact ih

/-- No move adds a lexeme. -/
theorem Reaches.length_le {c d : Cursor} (h : c.Reaches d) : d.rest.length ≤ c.rest.length := by
  have hlength := h.tokens_sublist.length_le
  rwa [tokens, tokens, List.length_map, List.length_map] at hlength

/-- **Every level that is opened is closed again.** -/
theorem Reaches.depth_eq {c d : Cursor} (h : c.Reaches d) : d.depth = c.depth := by
  induction h with
  | refl => rfl
  | trans _ _ ih₁ ih₂ => exact ih₂.trans ih₁
  | take => rfl
  | settle c => exact c.settled_depth
  | report c kind detail => exact c.report_depth kind detail
  | rewind _ ih => exact ih
  | nest _ ih =>
    rw [left, ih]
    exact Nat.add_sub_cancel _ 1

/-- Reports stay. -/
theorem Reaches.diagnostics_isPrefix {c d : Cursor} (h : c.Reaches d) :
    c.diagnostics <+: d.diagnostics := by
  induction h with
  | refl => exact List.prefix_rfl
  | trans _ _ ih₁ ih₂ => exact ih₁.trans ih₂
  | take => exact List.prefix_rfl
  | settle c =>
    unfold settled
    split <;> exact List.prefix_rfl
  | report c kind detail =>
    unfold Cursor.report
    split
    · exact List.prefix_rfl
    · exact List.prefix_append _ _
  | rewind _ ih => exact ih
  | nest _ ih => exact ih

/-- If there has been a report, there is one. -/
def Reported (c : Cursor) : Prop := c.lastReport ≠ none → c.diagnostics ≠ []

/-- A cursor that has reported something has done so wherever it goes. -/
theorem Reaches.reported {c d : Cursor} (h : c.Reaches d) (hc : c.Reported) : d.Reported := by
  induction h with
  | refl => exact hc
  | trans _ _ ih₁ ih₂ => exact ih₂ (ih₁ hc)
  | take => exact hc
  | settle c =>
    unfold Reported settled
    split <;> exact hc
  | report c kind detail =>
    unfold Reported Cursor.report
    split
    · exact hc
    · exact fun _ => List.append_ne_nil_of_right_ne_nil _ (List.cons_ne_nil _ _)
  | rewind _ ih => exact ih hc
  | nest _ ih => exact ih hc

end Cursor

/-! ### Agreement -/

variable {α β : Type} {may : Prop} {least most : ℕ}

/-- How an outcome from the cursor `c` compares with another one: they are the same, at a cursor
that is reached from `c`, or the first halts because of nesting, and may do so. -/
def Outcome.Agrees (may : Prop) (c : Cursor) : Outcome α → Outcome α → Prop
  | .done a next, other => other = .done a next ∧ c.Reaches next
  | .failed next, other => other = .failed next ∧ c.Reaches next
  | .halted cause next, _ => (cause = .tooDeep ∧ may) ∧ c.Reaches next

/-- An outcome that agrees with another one lies ahead of where it began. -/
theorem Outcome.Agrees.reaches {c : Cursor} {o other : Outcome α} (h : o.Agrees may c other) :
    c.Reaches o.cursor := by
  cases o with
  | done a next => exact h.2
  | failed next => exact h.2
  | halted cause next => exact h.2

/-- Without halting for nesting the outcomes are the same. -/
theorem Outcome.Agrees.eq {c : Cursor} {o other : Outcome α} (h : o.Agrees False c other) :
    other = o := by
  cases o with
  | done a next => exact h.1
  | failed next => exact h.1
  | halted cause next => exact h.1.2.elim

/-- The moves before a run count with those of the run. -/
theorem Outcome.Agrees.of_reaches {c next : Cursor} {o other : Outcome α} (h : c.Reaches next)
    (ho : o.Agrees may next other) : o.Agrees may c other := by
  cases o with
  | done a last => exact ⟨ho.1, h.trans ho.2⟩
  | failed last => exact ⟨ho.1, h.trans ho.2⟩
  | halted cause last => exact ⟨ho.1, h.trans ho.2⟩

/-- An outcome from the cursor `c` with which reading can go on leaves fewer lexemes than there
were. -/
def Outcome.Shortens (c : Cursor) : Outcome α → Prop
  | .done _ next => next.rest.length < c.rest.length
  | .failed next => next.rest.length < c.rest.length
  | .halted _ _ => True

/-- An outcome is shorter than where it began if it is reached from behind a lexeme that was
taken. -/
private theorem Outcome.Shortens.of_reaches {c next : Cursor} {o : Outcome α}
    (hlt : next.rest.length < c.rest.length) (h : next.Reaches o.cursor) : o.Shortens c := by
  cases o with
  | done a last => exact h.length_le.trans_lt hlt
  | failed last => exact h.length_le.trans_lt hlt
  | halted cause last => trivial

namespace Parser

/-- Agreement at all cursors with at least `least` and at most `most` lexemes left. -/
def Agrees (may : Prop) (least most : ℕ) (p q : Parser α) : Prop :=
  ∀ c : Cursor, least ≤ c.rest.length → c.rest.length ≤ most → (p c).Agrees may c (q c)

namespace Agrees

variable {p q : Parser α} {f g : α → Parser β}

/-- Parsers that agree on more rounds and after fewer lexemes agree. -/
theorem anti {least' most' : ℕ} (h : Agrees may least most p q) (hleast : least ≤ least')
    (hmost : most' ≤ most) : Agrees may least' most' p q :=
  fun c h₁ h₂ => h c (hleast.trans h₁) (h₂.trans hmost)

/-- Agreement wherever there is a lexeme, from agreement everywhere. -/
theorem ahead (h : Agrees may 0 most p q) : Agrees may least most p q :=
  h.anti (Nat.zero_le _) le_rfl

/-- Agreement everywhere, from agreement wherever there is a lexeme. -/
theorem of_ahead (h : Agrees may 1 most p q)
    (hend : ∀ c, c.rest = [] → (p c).Agrees may c (q c)) : Agrees may 0 most p q := by
  intro c _ hmost
  by_cases hc : c.rest = []
  · exact hend c hc
  · exact h c (List.length_pos_iff.mpr hc) hmost

/-! ### Sequence -/

protected theorem pure (a : α) : Agrees may least most (pure a : Parser α) (pure a) :=
  fun c _ _ => ⟨rfl, .refl c⟩

/-- What follows runs at cursors with at most as many lexemes, and with as many as there are
wherever the first parser is done. -/
theorem bind_of_le {count : ℕ} (hp : Agrees may least most p q)
    (hcount : ∀ c next a, p c = .done a next → count ≤ next.rest.length)
    (hf : ∀ a, Agrees may count most (f a) (g a)) : Agrees may least most (p >>= f) (q >>= g) := by
  intro c hleast hmost
  have hc := hp c hleast hmost
  cases hpc : p c with
  | done a next =>
    rw [hpc] at hc
    obtain ⟨hq, hreach⟩ := hc
    rw [bind_of_done hpc, bind_of_done hq]
    exact .of_reaches hreach (hf a next (hcount c next a hpc) (hreach.length_le.trans hmost))
  | failed next =>
    rw [hpc] at hc
    obtain ⟨hq, hreach⟩ := hc
    rw [bind_of_failed hpc, bind_of_failed hq]
    exact ⟨rfl, hreach⟩
  | halted cause next =>
    rw [hpc] at hc
    rw [bind_of_halted hpc]
    exact hc

protected theorem bind (hp : Agrees may least most p q)
    (hf : ∀ a, Agrees may 0 most (f a) (g a)) : Agrees may least most (p >>= f) (q >>= g) :=
  bind_of_le hp (fun _ _ _ _ => Nat.zero_le _) hf

/-! ### Looking -/

/-- Looking moves nothing, so the number of lexemes left is known afterwards as before. -/
theorem look_bind (view : Cursor → α) (hf : ∀ a, Agrees may least most (f a) (g a)) :
    Agrees may least most (look view >>= f) (look view >>= g) :=
  fun c hleast hmost => hf (view c) c hleast hmost

/-- A test that only succeeds when at least `count` lexemes are left. -/
theorem test {view : Cursor → Bool} {count : ℕ} (hview : ∀ c, view c = true → count ≤ c.rest.length)
    {a a' b b' : Parser β} (ha : Agrees may count most a a') (hb : Agrees may least most b b') :
    Agrees may least most (look view >>= fun yes => if yes = true then a else b)
      (look view >>= fun yes => if yes = true then a' else b') := by
  refine fun c hleast hmost => ?_
  change (((if view c = true then a else b) : Parser β) c).Agrees may c
    (((if view c = true then a' else b') : Parser β) c)
  split
  · rename_i hc
    exact ha c (hview c hc) hmost
  · exact hb c hleast hmost

/-- Something may be read first, after a test, before what is read in any case. -/
theorem sometimes {view : Cursor → Bool} {p p' : Parser α} {rest rest' : Parser β}
    (hp : Agrees may least most p p') (hrest : Agrees may 0 most rest rest') :
    Agrees may least most
      (look view >>= fun yes => if yes = true then p >>= fun _ => rest else rest)
      (look view >>= fun yes => if yes = true then p' >>= fun _ => rest' else rest') := by
  refine look_bind view fun yes => ?_
  cases yes with
  | true => exact .bind hp fun _ => hrest
  | false => exact hrest.ahead

/-- Whether a lexeme is left decides which parser runs. -/
theorem atEnd_bind {a a' b b' : Parser β} (ha : Agrees may least most a a')
    (hb : Agrees may 1 most b b') :
    Agrees may least most (atEnd >>= fun yes => if yes = true then a else b)
      (atEnd >>= fun yes => if yes = true then a' else b') := by
  refine fun c hleast hmost => ?_
  change (((if c.rest.isEmpty = true then a else b) : Parser β) c).Agrees may c
    (((if c.rest.isEmpty = true then a' else b') : Parser β) c)
  split
  · exact ha c hleast hmost
  · rename_i hc
    rw [List.isEmpty_iff] at hc
    exact hb c (List.length_pos_iff.mpr hc) hmost

/-! ### Taking and reporting -/

protected theorem advance : Agrees may 1 most advance advance := by
  intro c hleast _
  obtain ⟨l, ls, hrest⟩ := List.exists_cons_of_ne_nil (List.length_pos_iff.mp hleast)
  rw [advance_of_rest hrest]
  exact ⟨rfl, .take hrest⟩

/-- Behind a lexeme that is taken fewer are left. -/
theorem advance_bind {f g : Token → Parser β}
    (hf : ∀ t, ∀ m < most, Agrees may least m (f t) (g t)) :
    Agrees may (least + 1) most (Parser.advance >>= f) (Parser.advance >>= g) := by
  intro c hleast hmost
  obtain ⟨l, ls, hrest⟩ := List.exists_cons_of_length_pos ((Nat.succ_pos least).trans_le hleast)
  have hlength : c.rest.length = (c.took l ls).rest.length + 1 := by rw [hrest]; rfl
  rw [bind_of_done (advance_of_rest hrest), bind_of_done (advance_of_rest hrest)]
  exact .of_reaches (.take hrest)
    (hf l.token (c.took l ls).rest.length (by omega) (c.took l ls) (by omega) le_rfl)

protected theorem reject (kind : Diagnostic.Kind) (detail : Option String) :
    Agrees may least most (Parser.reject kind detail : Parser α) (Parser.reject kind detail) :=
  fun c _ _ => ⟨rfl, .report c kind detail⟩

theorem settle_bind {f g : List CommentId → Parser β}
    (hf : ∀ ids, Agrees may least most (f ids) (g ids)) :
    Agrees may least most (settle >>= f) (settle >>= g) := by
  refine fun c hleast hmost => .of_reaches (.settle c) (hf _ c.settled ?_ ?_)
  · rwa [c.settled_length]
  · rwa [c.settled_length]

/-- What the kind of the next lexeme decides; there is one if it has a kind. -/
theorem nextKind_bind {f g : Option Token.Kind → Parser β}
    (hnone : Agrees may least most (f none) (g none))
    (hsome : ∀ kind, Agrees may 1 most (f (some kind)) (g (some kind))) :
    Agrees may least most (nextKind >>= f) (nextKind >>= g) := by
  refine fun c hleast hmost => ?_
  change (f (c.rest.head?.map (·.token.kind)) c).Agrees may c
    (g (c.rest.head?.map (·.token.kind)) c)
  cases hc : c.rest with
  | nil => exact hnone c hleast hmost
  | cons l ls => exact hsome l.token.kind c (by rw [hc]; exact Nat.succ_pos _) hmost

end Agrees

/-! ### Tests that look so many lexemes ahead -/

/-- A kind that is seen ahead is that of a lexeme that is left. -/
theorem lt_length_of_hasKind {n : ℕ} {kind : Token.Kind} (c : Cursor)
    (h : c.hasKind n kind = true) : n < c.rest.length := by
  by_contra hn
  simp [Cursor.hasKind, List.getElem?_eq_none (Nat.le_of_not_lt hn)] at h

/-- A word that is seen ahead is a lexeme that is left. -/
theorem lt_length_of_isWord {n : ℕ} {word : String} (c : Cursor)
    (h : c.isWord n word = true) : n < c.rest.length := by
  by_contra hn
  simp [Cursor.isWord, List.getElem?_eq_none (Nat.le_of_not_lt hn)] at h

/-- A view that is one of two is backed by as many lexemes as both of them are. -/
theorem le_length_of_or {v w : Cursor → Bool} {count : ℕ}
    (hv : ∀ c, v c = true → count ≤ c.rest.length) (hw : ∀ c, w c = true → count ≤ c.rest.length)
    (c : Cursor) (h : (v c || w c) = true) : count ≤ c.rest.length := by
  rcases Bool.or_eq_true_iff.mp h with h | h
  · exact hv c h
  · exact hw c h

/-- A view that is two at once is backed by the lexemes of the first. -/
theorem le_length_of_left {v w : Cursor → Bool} {count : ℕ}
    (hv : ∀ c, v c = true → count ≤ c.rest.length) (c : Cursor) (h : (v c && w c) = true) :
    count ≤ c.rest.length :=
  hv c (Bool.and_eq_true_iff.mp h).1

/-- A view that is two at once is backed by the lexemes of the second. -/
theorem le_length_of_right {v w : Cursor → Bool} {count : ℕ}
    (hw : ∀ c, w c = true → count ≤ c.rest.length) (c : Cursor) (h : (v c && w c) = true) :
    count ≤ c.rest.length :=
  hw c (Bool.and_eq_true_iff.mp h).2

namespace Agrees

/-! ### Taking what passes a test -/

protected theorem eat_bind {kind : Token.Kind} {f g : Bool → Parser β}
    (htrue : ∀ m < most, Agrees may 0 m (f true) (g true))
    (hfalse : Agrees may least most (f false) (g false)) :
    Agrees may least most (eat kind >>= f) (eat kind >>= g) := by
  rw [Parser.eat_bind, Parser.eat_bind]
  exact test lt_length_of_hasKind (advance_bind fun _ => htrue) hfalse

protected theorem eatWord_bind {word : String} {f g : Bool → Parser β}
    (htrue : ∀ m < most, Agrees may 0 m (f true) (g true))
    (hfalse : Agrees may least most (f false) (g false)) :
    Agrees may least most (eatWord word >>= f) (eatWord word >>= g) := by
  rw [Parser.eatWord_bind, Parser.eatWord_bind]
  exact test lt_length_of_isWord (advance_bind fun _ => htrue) hfalse

/-- Behind a lexeme that has to be there fewer are left. -/
protected theorem expect_bind {kind : Token.Kind} {spelling : String} {f g : Token → Parser β}
    (hf : ∀ t, ∀ m < most, Agrees may 0 m (f t) (g t)) :
    Agrees may least most (expect kind spelling >>= f) (expect kind spelling >>= g) := by
  rw [Parser.expect_bind, Parser.expect_bind]
  exact test lt_length_of_hasKind (advance_bind hf) (.reject _ _)

protected theorem eat (kind : Token.Kind) : Agrees may least most (eat kind) (eat kind) :=
  test lt_length_of_hasKind (.bind .advance fun _ => .pure _) (.pure _)

protected theorem expect (kind : Token.Kind) (spelling : String) :
    Agrees may least most (expect kind spelling) (expect kind spelling) :=
  test lt_length_of_hasKind .advance (.reject _ _)

protected theorem expectWord (word : String) :
    Agrees may least most (expectWord word) (expectWord word) :=
  test lt_length_of_isWord .advance (.reject _ _)

protected theorem after? {kind : Token.Kind} {p q : Parser α} (h : Agrees may 0 most p q) :
    Agrees may least most (after? kind p) (after? kind q) := by
  refine .eat_bind (fun m hm => ?_) (.pure _)
  exact .bind (h.anti le_rfl hm.le) fun _ => .pure _

/-! ### Repeating -/

/-- A loop agrees with another one if one round does, given that the rounds after a lexeme has been
taken do. -/
theorem loop_of_step {σ : Type} {loop loop' : ℕ → σ → Parser α}
    (step : ∀ m ≤ most, (∀ k < m, ∀ s, Agrees may 0 k (loop m s) (loop' m s)) →
      ∀ s, Agrees may 0 m (loop (m + 1) s) (loop' (m + 1) s)) :
    ∀ m ≤ most, ∀ s, Agrees may 0 m (loop (m + 1) s) (loop' (m + 1) s) := by
  intro m
  induction m with
  | zero => exact fun hm => step 0 hm fun k hk => absurd hk (Nat.not_lt_zero k)
  | succ m ih =>
    -- A round with fewer lexemes left is one of the `m + 1` rounds that remain.
    refine fun hm => step (m + 1) hm fun k hk s => ?_
    exact (ih (Nat.le_of_succ_le hm) s).anti le_rfl (Nat.le_of_lt_succ hk)

/-- Loops with a state agree if each round does, provided that the rounds behind it do. Every round
takes a lexeme, so as many rounds as there are lexemes left are enough. -/
theorem rounds_of_step {σ : Type} {loop loop' : ℕ → σ → Parser α}
    (step : ∀ m ≤ most, (∀ k < m, ∀ s, Agrees may 0 k (loop m s) (loop' m s)) →
      ∀ s, Agrees may 0 m (loop (m + 1) s) (loop' (m + 1) s)) (s : σ) :
    Agrees may 0 most (rounds (loop · s)) (rounds (loop' · s)) :=
  fun c _ hmost => loop_of_step step c.rest.length hmost s c (Nat.zero_le _) le_rfl

/-- The same for a loop that carries nothing from round to round. -/
theorem rounds_of_step' {loop loop' : ℕ → Parser α}
    (step : ∀ m ≤ most, (∀ k < m, Agrees may 0 k (loop m) (loop' m)) →
      Agrees may 0 m (loop (m + 1)) (loop' (m + 1))) :
    Agrees may 0 most (rounds loop) (rounds loop') := by
  have hstep : ∀ m ≤ most, (∀ k < m, ∀ _ : Unit, Agrees may 0 k (loop m) (loop' m)) →
      ∀ _ : Unit, Agrees may 0 m (loop (m + 1)) (loop' (m + 1)) :=
    fun m hm ih _ => step m hm fun k hk => ih k hk ()
  exact rounds_of_step hstep ()

variable {p q : Parser α}

/-- Lists of operands agree if the operands do on every shorter rest. -/
protected theorem operands {operator : Token.Kind} (h : ∀ m < most, Agrees may 0 m p q) :
    Agrees may 0 most (operands operator p) (operands operator q) := by
  refine rounds_of_step' fun m hm ih => .eat_bind (fun k hk => ?_) (.pure _)
  exact .bind (h k (hk.trans_le hm)) fun _ => .bind (ih k hk) fun _ => .pure _

/-- Lists up to a closing mark agree if the items do. An item need not take a lexeme, but the comma
behind it does. -/
protected theorem items {close : Token.Kind} (h : Agrees may 0 most p q) :
    Agrees may 0 most (items close p) (items close q) := by
  refine rounds_of_step' fun m hm ih => .look_bind _ fun closes => ?_
  cases closes with
  | true => exact .pure _
  | false =>
    refine .bind (h.anti le_rfl hm) fun _ => .eat_bind (fun k hk => ?_) (.pure _)
    exact .bind (ih k hk) fun _ => .pure _

protected theorem commaSeparated (h : Agrees may 0 most p q) :
    Agrees may 0 most (commaSeparated p) (commaSeparated q) :=
  .bind h fun _ => .bind (.operands fun _ hm => h.anti le_rfl hm.le) fun _ => .pure _

/-! ### Nesting -/

/-- Whatever is allowed under a limit is allowed under a higher one, so one level further in the two
parsers agree again. -/
protected theorem nesting {limit limit' : Option ℕ} (hmay : limit ≠ none → may)
    (hle : ∀ d, limit'.any (· ≤ d) = true → limit.any (· ≤ d) = true)
    (h : Agrees may 0 most p q) : Agrees may 0 most (nesting limit p) (nesting limit' q) := by
  intro c hleast hmost
  unfold Parser.nesting
  -- If the first parser goes on, so does the second one, and both are one level further in.
  by_cases hlimit : limit.any (· ≤ c.depth) = true
  · rw [if_pos hlimit]
    refine ⟨⟨rfl, hmay ?_⟩, .refl c⟩
    rintro rfl
    exact absurd hlimit (by simp)
  · have hinside := h c.entered hleast hmost
    rw [if_neg hlimit, if_neg fun hlimit' => hlimit (hle c.depth hlimit')]
    cases hp : p c.entered with
    | done a next =>
      rw [hp] at hinside
      rw [hinside.1]
      exact ⟨rfl, .nest hinside.2⟩
    | failed next =>
      rw [hp] at hinside
      rw [hinside.1]
      exact ⟨rfl, .nest hinside.2⟩
    | halted cause next =>
      rw [hp] at hinside
      exact ⟨hinside.1, .nest hinside.2⟩

end Agrees

/-! ### Parsers that are done before a lexeme -/

/-- A parser that is only done where a lexeme is left. -/
def EndsAhead (p : Parser α) : Prop :=
  ∀ (c next : Cursor) (a : α), p c = .done a next → 0 < next.rest.length

namespace EndsAhead

protected theorem reject (kind : Diagnostic.Kind) (detail : Option String) :
    EndsAhead (reject kind detail : Parser α) := by
  intro c next a h
  cases h

protected theorem bind {p : Parser α} {f : α → Parser β} (hf : ∀ a, EndsAhead (f a)) :
    EndsAhead (p >>= f) := by
  intro c next b h
  obtain ⟨a, mid, -, hmid⟩ := exists_of_bind_eq_done h
  exact hf a mid next b hmid

/-- Nothing is read after `p`. -/
theorem bind_pure {p : Parser α} (hp : EndsAhead p) (f : α → β) :
    EndsAhead (p >>= fun a => pure (f a)) := by
  intro c next b h
  obtain ⟨a, mid, hpc, hmid⟩ := exists_of_bind_eq_done h
  cases hmid
  exact hp c _ a hpc

/-- Nothing more is read when a lexeme is seen ahead. -/
theorem test_pure {view : Cursor → Bool} (hview : ∀ c, view c = true → 0 < c.rest.length) {a : α}
    {b : Parser α} (hb : EndsAhead b) :
    EndsAhead (look view >>= fun yes => if yes = true then pure a else b) := by
  intro c next a' h
  by_cases hc : view c = true
  · rw [test_of_true hc] at h
    cases h
    exact hview c hc
  · rw [test_of_not hc] at h
    exact hb c next a' h

end EndsAhead

/-! ### Parsers that take a lexeme -/

/-- Agreement of parsers that come to a cursor with fewer lexemes left, unless they are halted. -/
structure AgreesTaking (may : Prop) (least most : ℕ) (p q : Parser α) : Prop where
  agrees : Agrees may least most p q
  shortens : ∀ c : Cursor, least ≤ c.rest.length → c.rest.length ≤ most → (p c).Shortens c

namespace AgreesTaking

variable {p q : Parser α} {f g : α → Parser β}

/-- Behind a lexeme that is taken it is enough to agree on the shorter rest. -/
theorem advance_bind {f g : Token → Parser β}
    (hf : ∀ t, ∀ m < most, Agrees may least m (f t) (g t)) :
    AgreesTaking may (least + 1) most (Parser.advance >>= f) (Parser.advance >>= g) where
  agrees := .advance_bind hf
  shortens c hleast hmost := by
    obtain ⟨l, ls, hrest⟩ := List.exists_cons_of_length_pos ((Nat.succ_pos least).trans_le hleast)
    have hlength : c.rest.length = (c.took l ls).rest.length + 1 := by rw [hrest]; rfl
    rw [bind_of_done (advance_of_rest hrest)]
    have hafter := hf l.token _ (by omega) (c.took l ls) (by omega) le_rfl
    exact .of_reaches (by omega) hafter.reaches

/-- A sequence takes a lexeme if its first part does; what follows agrees on a shorter rest. -/
protected theorem bind (hp : AgreesTaking may least most p q)
    (hf : ∀ a, Agrees may 0 most (f a) (g a)) :
    AgreesTaking may least most (p >>= f) (q >>= g) where
  agrees := .bind hp.agrees hf
  shortens c hleast hmost := by
    have hlt := hp.shortens c hleast hmost
    cases hpc : p c with
    | done a next =>
      rw [hpc] at hlt
      rw [bind_of_done hpc]
      exact .of_reaches hlt (hf a next (Nat.zero_le _) (hlt.le.trans hmost)).reaches
    | failed next =>
      rw [hpc] at hlt
      rw [bind_of_failed hpc]
      exact hlt
    | halted cause next =>
      rw [bind_of_halted hpc]
      trivial

theorem look_bind (view : Cursor → α) (hf : ∀ a, AgreesTaking may least most (f a) (g a)) :
    AgreesTaking may least most (look view >>= f) (look view >>= g) where
  agrees := .look_bind view fun a => (hf a).agrees
  shortens c := (hf (view c)).shortens c

/-- A branch that is taken only if enough lexemes are left may take that many. -/
theorem test {view : Cursor → Bool} {count : ℕ} (hview : ∀ c, view c = true → count ≤ c.rest.length)
    {a a' b b' : Parser β} (ha : AgreesTaking may count most a a')
    (hb : AgreesTaking may least most b b') :
    AgreesTaking may least most (look view >>= fun yes => if yes = true then a else b)
      (look view >>= fun yes => if yes = true then a' else b') where
  agrees := .test hview ha.agrees hb.agrees
  shortens c hleast hmost := by
    by_cases hc : view c = true
    · rw [test_of_true hc]
      exact ha.shortens c (hview c hc) hmost
    · rw [test_of_not hc]
      exact hb.shortens c hleast hmost

/-- Where a lexeme is left the end is not reached. -/
theorem atEnd_bind {a a' b b' : Parser β} (ha : Agrees may 1 most a a')
    (hb : AgreesTaking may 1 most b b') :
    AgreesTaking may 1 most (atEnd >>= fun yes => if yes = true then a else b)
      (atEnd >>= fun yes => if yes = true then a' else b') where
  agrees := .atEnd_bind ha hb.agrees
  shortens c hleast hmost := by
    have hc : ¬ c.rest.isEmpty = true := by
      rw [List.isEmpty_iff]
      exact List.length_pos_iff.mp hleast
    rw [atEnd, test_of_not hc]
    exact hb.shortens c hleast hmost

theorem settle_bind {f g : List CommentId → Parser β}
    (hf : ∀ ids, AgreesTaking may least most (f ids) (g ids)) :
    AgreesTaking may least most (settle >>= f) (settle >>= g) where
  agrees := .settle_bind fun ids => (hf ids).agrees
  shortens c hleast hmost := by
    rw [← c.settled_length] at hleast hmost
    have hlt := (hf (List.range' c.comments.length c.commentsAhead.length)).shortens c.settled
      hleast hmost
    unfold Outcome.Shortens at hlt ⊢
    rwa [c.settled_length] at hlt

/-- A loop takes a lexeme if it does so at each number of lexemes left, with the rounds that it has
there. -/
protected theorem rounds {loop loop' : ℕ → Parser α}
    (h : ∀ m ≤ most, AgreesTaking may least m (loop (m + 1)) (loop' (m + 1))) :
    AgreesTaking may least most (rounds loop) (rounds loop') where
  agrees c hleast hmost := (h _ hmost).agrees c hleast le_rfl
  shortens c hleast hmost := (h _ hmost).shortens c hleast le_rfl

variable {f g : Option α → Parser β}

/-- After a failure one goes on from where it happened; in any case a lexeme has been taken. -/
theorem recover_bind (hp : AgreesTaking may least most p q)
    (hf : ∀ a, ∀ m < most, Agrees may 0 m (f a) (g a)) :
    Agrees may least most (recover p >>= f) (recover q >>= g) := by
  intro c hleast hmost
  have hc := hp.agrees c hleast hmost
  have hlt := hp.shortens c hleast hmost
  cases hpc : p c with
  | done a next =>
    rw [hpc] at hc hlt
    have hrun : recover p c = .done (some a) next := by rw [recover, hpc]
    have hrun' : recover q c = .done (some a) next := by rw [recover, hc.1]
    rw [bind_of_done hrun, bind_of_done hrun']
    exact .of_reaches hc.2 (hf (some a) _ (hlt.trans_le hmost) next (Nat.zero_le _) le_rfl)
  -- A failure ends the taking, too, so that what follows has fewer lexemes either way.
  | failed next =>
    rw [hpc] at hc hlt
    have hrun : recover p c = .done none next := by rw [recover, hpc]
    have hrun' : recover q c = .done none next := by rw [recover, hc.1]
    rw [bind_of_done hrun, bind_of_done hrun']
    exact .of_reaches hc.2 (hf none _ (hlt.trans_le hmost) next (Nat.zero_le _) le_rfl)
  | halted cause next =>
    rw [hpc] at hc
    have hrun : recover p c = .halted cause next := by rw [recover, hpc]
    rw [bind_of_halted hrun]
    exact hc

/-- After a failure one goes back to where the attempt began, so what follows has to take a lexeme
itself. -/
theorem attempt_bind (hp : AgreesTaking may least most p q)
    (hsome : ∀ a, ∀ m < most, Agrees may 0 m (f (some a)) (g (some a)))
    (hnone : AgreesTaking may least most (f none) (g none)) :
    AgreesTaking may least most (attempt p >>= f) (attempt q >>= g) := by
  have hboth : ∀ c : Cursor, least ≤ c.rest.length → c.rest.length ≤ most →
      ((attempt p >>= f) c).Agrees may c ((attempt q >>= g) c) ∧
        ((attempt p >>= f) c).Shortens c := by
    intro c hleast hmost
    have hc := hp.agrees c hleast hmost
    have hlt := hp.shortens c hleast hmost
    cases hpc : p c with
    | done a next =>
      rw [hpc] at hc hlt
      have hrun : attempt p c = .done (some a) next := by rw [attempt, hpc]
      have hrun' : attempt q c = .done (some a) next := by rw [attempt, hc.1]
      have hafter := hsome a _ (hlt.trans_le hmost) next (Nat.zero_le _) le_rfl
      rw [bind_of_done hrun, bind_of_done hrun']
      exact ⟨.of_reaches hc.2 hafter, .of_reaches hlt hafter.reaches⟩
    | failed next =>
      rw [hpc] at hc
      -- The lexemes are back, so what follows begins where the attempt began.
      let back : Cursor := { next with rest := c.rest, comments := c.comments }
      have hrun : attempt p c = .done none back := by rw [attempt, hpc]
      have hrun' : attempt q c = .done none back := by rw [attempt, hc.1]
      rw [bind_of_done hrun, bind_of_done hrun']
      exact ⟨.of_reaches (.rewind hc.2) (hnone.agrees back hleast hmost),
        hnone.shortens back hleast hmost⟩
    | halted cause next =>
      rw [hpc] at hc
      have hrun : attempt p c = .halted cause next := by rw [attempt, hpc]
      rw [bind_of_halted hrun]
      exact ⟨hc, trivial⟩
  exact ⟨fun c hleast hmost => (hboth c hleast hmost).1, fun c hleast hmost =>
    (hboth c hleast hmost).2⟩

end AgreesTaking

end Parser

end Reifier
