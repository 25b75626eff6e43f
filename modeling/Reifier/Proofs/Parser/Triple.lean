import Reifier.Proofs.Parser.Agreement

/-!
# Conditions before and after a parser

`Triple pre p post fail` says of a run of `p` from a cursor that satisfies `pre`: if it is done with
a value, then at a cursor that satisfies `post` of this value, and if it fails, then at a cursor
that satisfies `fail`. The rules follow the combinators that productions are built from; what is
only looked at, and the tokens that are taken, are known afterwards.
-/

namespace Reifier

variable {α β : Type}

/-- The cursor at which an outcome leaves a parser satisfies `post` or `fail`, unless it is
halted. -/
def Outcome.Satisfies (post : α → Cursor → Prop) (fail : Cursor → Prop) : Outcome α → Prop
  | .done a next => post a next
  | .failed next => fail next
  | .halted _ _ => True

/-- A weaker postcondition is satisfied as well. -/
theorem Outcome.Satisfies.mono {post post' : α → Cursor → Prop} {fail fail' : Cursor → Prop}
    {o : Outcome α} (h : o.Satisfies post fail) (hpost : ∀ a c, post a c → post' a c)
    (hfail : ∀ c, fail c → fail' c) : o.Satisfies post' fail' := by
  cases o with
  | done a next => exact hpost a next h
  | failed next => exact hfail next h
  | halted cause next => trivial

namespace Parser

/-- From a cursor that satisfies `pre` the parser comes to one that satisfies `post` or `fail`,
unless it is halted. -/
def Triple (pre : Cursor → Prop) (p : Parser α) (post : α → Cursor → Prop)
    (fail : Cursor → Prop) : Prop :=
  ∀ c : Cursor, pre c → (p c).Satisfies post fail

namespace Triple

variable {pre pre' mid fail fail' : Cursor → Prop} {post : β → Cursor → Prop} {p : Parser α}

/-- Nothing is said of a run. -/
theorem any (p : Parser β) : Triple pre p (fun _ _ => True) fun _ => True := by
  intro c _
  cases p c <;> trivial

/-- A parser that agrees with itself makes nothing but moves. -/
theorem of_agrees {inv : Cursor → Prop} {may : Prop} {least : ℕ} {p : Parser β}
    (hinv : ∀ c d, inv c → c.Reaches d → inv d)
    (h : ∀ c, pre c → inv c ∧ least ≤ c.rest.length ∧ Agrees may least c.rest.length p p)
    (hfail : ∀ c, inv c → fail c) : Triple pre p (fun _ => inv) fail := by
  intro c hc
  obtain ⟨hstart, hleast, hagrees⟩ := h c hc
  have hnext := hinv c _ hstart (hagrees c hleast le_rfl).reaches
  cases hpc : p c with
  | done b next =>
    rw [hpc] at hnext
    exact hnext
  | failed next =>
    rw [hpc] at hnext
    exact hfail next hnext
  | halted cause next => trivial

/-! ### Sequence -/

protected theorem pure {b : β} (h : ∀ c, pre c → post b c) :
    Triple pre (pure b : Parser β) post fail :=
  fun c hc => h c hc

/-- A sequence: the first parser establishes what the second one starts from. -/
protected theorem bind {between : α → Cursor → Prop} {f : α → Parser β}
    (hp : Triple pre p between fail) (hf : ∀ a, Triple (between a) (f a) post fail) :
    Triple pre (p >>= f) post fail := by
  intro c hc
  have hfirst := hp c hc
  cases hpc : p c with
  | done a next =>
    rw [hpc] at hfirst
    rw [bind_of_done hpc]
    exact hf a next hfirst
  | failed next =>
    rw [hpc] at hfirst
    rw [bind_of_failed hpc]
    exact hfirst
  | halted cause next =>
    rw [bind_of_halted hpc]
    trivial

/-- The rule of consequence. -/
theorem mono {post' : β → Cursor → Prop} {p : Parser β} (h : Triple pre p post fail)
    (hpre : ∀ c, pre' c → pre c) (hpost : ∀ b c, post b c → post' b c)
    (hfail : ∀ c, fail c → fail' c) : Triple pre' p post' fail' :=
  fun c hc => (h c (hpre c hc)).mono hpost hfail

/-- The parser may be run from fewer cursors. -/
theorem anti {p : Parser β} (h : Triple pre p post fail) (hpre : ∀ c, pre' c → pre c) :
    Triple pre' p post fail :=
  fun c hc => h c (hpre c hc)

/-! ### Looking -/

/-- What has been seen is known afterwards. -/
theorem look_bind {view : Cursor → α} {f : α → Parser β}
    (hf : ∀ a, Triple (fun c => pre c ∧ view c = a) (f a) post fail) :
    Triple pre (look view >>= f) post fail :=
  fun c hc => hf (view c) c ⟨hc, rfl⟩

/-- The first branch may use that the test holds. -/
theorem test {view : Cursor → Bool} {a b : Parser β}
    (ha : Triple (fun c => pre c ∧ view c = true) a post fail) (hb : Triple pre b post fail) :
    Triple pre (look view >>= fun yes => if yes = true then a else b) post fail := by
  refine look_bind fun yes => ?_
  cases yes with
  | true => exact ha
  | false => exact fun c hc => hb c hc.1

/-! ### Taking and reporting -/

protected theorem halt (cause : Halt) : Triple pre (halt cause : Parser β) post fail :=
  fun _ _ => trivial

protected theorem reject {kind : Diagnostic.Kind} {detail : Option String}
    (h : ∀ c, pre c → fail (c.report kind detail)) :
    Triple pre (reject kind detail : Parser β) post fail :=
  fun c hc => h c hc

/-- Taking a lexeme. Where none is left the parser halts, and nothing is said of that. -/
theorem advance_bind {f : Token → Parser β} {between : Token → Cursor → Prop}
    (h : ∀ c l ls, pre c → c.rest = l :: ls → between l.token (c.took l ls))
    (hf : ∀ t, Triple (between t) (f t) post fail) :
    Triple pre (Parser.advance >>= f) post fail := by
  intro c hc
  cases hrest : c.rest with
  | nil =>
    have hhalt : Parser.advance c = .halted .overrun c := by rw [Parser.advance, hrest]
    rw [bind_of_halted hhalt]
    trivial
  | cons l ls =>
    rw [bind_of_done (advance_of_rest hrest)]
    exact hf l.token _ (h c l ls hc hrest)

theorem settle_bind {f : List CommentId → Parser β} (h : ∀ c, pre c → mid c.settled)
    (hf : ∀ ids, Triple mid (f ids) post fail) : Triple pre (settle >>= f) post fail :=
  fun c hc => hf _ c.settled (h c hc)

/-! ### Repeating -/

/-- A loop satisfies what every number of its rounds does. -/
protected theorem rounds {loop : ℕ → Parser β} (h : ∀ n, Triple pre (loop n) post fail) :
    Triple pre (rounds loop) post fail :=
  fun c hc => h (c.rest.length + 1) c hc

/-! ### Trying -/

variable {between : α → Cursor → Prop} {f : Option α → Parser β}

/-- Behind a parser that may fail, both ways on. -/
theorem recover_bind (hp : Triple pre p between mid)
    (hsome : ∀ a, Triple (between a) (f (some a)) post fail)
    (hnone : Triple mid (f none) post fail) : Triple pre (recover p >>= f) post fail := by
  intro c hc
  have hrun := hp c hc
  rw [bind_apply, recover]
  cases hpc : p c with
  | done a next =>
    rw [hpc] at hrun
    exact hsome a next hrun
  | failed next =>
    rw [hpc] at hrun
    exact hnone next hrun
  | halted cause next => trivial

/-- After a failure one goes back to the lexemes and the comments before the attempt. -/
theorem attempt_bind (hp : Triple pre p between mid)
    (hback : ∀ c next, pre c → mid next →
      pre' { next with rest := c.rest, comments := c.comments })
    (hsome : ∀ a, Triple (between a) (f (some a)) post fail)
    (hnone : Triple pre' (f none) post fail) : Triple pre (attempt p >>= f) post fail := by
  intro c hc
  have hrun := hp c hc
  rw [bind_apply, attempt]
  cases hpc : p c with
  | done a next =>
    rw [hpc] at hrun
    exact hsome a next hrun
  | failed next =>
    rw [hpc] at hrun
    exact hnone _ (hback c next hc hrun)
  | halted cause next => trivial

/-! ### Nesting -/

/-- One level further in, unless there is none left. -/
protected theorem nesting {limit : Option ℕ} {p : Parser β}
    (hpre : ∀ c, pre c → limit.any (· ≤ c.depth) = false → pre' c.entered)
    (hp : Triple pre' p (fun b c => post b c.left) fun c => fail c.left) :
    Triple pre (nesting limit p) post fail := by
  intro c hc
  unfold Parser.nesting
  split
  · trivial
  · rename_i hlimit
    have hrun := hp c.entered (hpre c hc (eq_false_of_ne_true hlimit))
    cases hpc : p c.entered with
    | done b next =>
      rw [hpc] at hrun
      exact hrun
    | failed next =>
      rw [hpc] at hrun
      exact hrun
    | halted cause next => trivial

end Triple

end Parser

end Reifier
