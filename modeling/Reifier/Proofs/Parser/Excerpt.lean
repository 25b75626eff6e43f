import Reifier.Proofs.Parser.Simulation

/-!
# Parts of a source that are read alone

A part of a source is cut out, and nothing or a semicolon is put behind it. `Parser.Repeats σ taken
least spare p q` compares a run of `p` in the source with the run of `q` from the same place where
the part stands alone: where `p` is done inside the part, so is `q`, with the same value, and at the
same place. The first lexeme of the part may have something else in front of it there, so a parser
has to have taken some lexeme before it may look at a line break or at the end of the last token;
`taken` counts the lexemes of the part that are known to be behind.

No more is compared than what comes before the end of the part. A parser looks ahead, and may have
seen what is behind the part; but where this let it go on, it has taken those lexemes, and is not
done inside the part. So it matters how many lexemes `p` takes, which are at least `least`, and how
many of the part are left behind it, which have to be at least `spare`.
-/

namespace Reifier

variable {α β : Type}

/-- A part of a source with `size` lexemes, which those of `behind` follow in the source, and those
of `stop` where it stands alone. -/
structure Excerpt where
  size : ℕ
  behind : List Lexeme
  stop : List Lexeme
  semicolons : ∀ l ∈ stop, l.token.kind = .semicolon

namespace Excerpt

/-- A cursor `c` in the source has the lexemes `ahead` of the part in front of it, and a cursor `d`
stands at the same place where the part is alone. At least `taken` lexemes of it are behind. -/
structure Shows (σ : Excerpt) (taken : ℕ) (c d : Cursor) (ahead ahead' : List Lexeme) :
    Prop where
  rest : c.rest = ahead ++ σ.behind
  rest' : d.rest = ahead' ++ σ.stop
  tokens : ahead'.map Lexeme.token = ahead.map Lexeme.token
  tail : ahead'.tail = ahead.tail
  size : ahead.length + taken ≤ σ.size
  /-- What stands before the first lexeme of the part, and where the token before it ends, is not
  the same. -/
  further : ahead.length < σ.size → ahead' = ahead ∧ d.lastEnd = c.lastEnd
  diagnostics : d.diagnostics = []

/-- Two cursors stand at the same place of the part. At least `taken` lexemes of it are behind. -/
def Places (σ : Excerpt) (taken : ℕ) (c d : Cursor) : Prop :=
  ∃ ahead ahead', σ.Shows taken c d ahead ahead'

variable {σ : Excerpt} {taken taken' k n : ℕ} {c d : Cursor} {ahead ahead' : List Lexeme}

namespace Shows

variable (h : σ.Shows taken c d ahead ahead')

include h

/-- Fewer lexemes may be counted as behind. -/
theorem anti (hle : taken' ≤ taken) : σ.Shows taken' c d ahead ahead' :=
  { h with size := (Nat.add_le_add_left hle _).trans h.size }

private theorem length_eq : ahead'.length = ahead.length := by
  simpa using congrArg List.length h.tokens

/-- How far the part goes on is known from what is left of the source. -/
private theorem lt_length_iff : σ.behind.length + n < c.rest.length ↔ n < ahead.length := by
  rw [h.rest, List.length_append]
  omega

/-- The tokens of the part are the same. -/
private theorem token_eq (hn : n < ahead.length) :
    d.rest[n]?.map Lexeme.token = c.rest[n]?.map Lexeme.token := by
  have hn' : n < ahead'.length := h.length_eq ▸ hn
  rw [h.rest, h.rest', List.getElem?_append_left hn, List.getElem?_append_left hn',
    ← List.getElem?_map, ← List.getElem?_map, h.tokens]

/-- What is no semicolon is in the part. -/
private theorem lt_length_of_hasKind {kind : Token.Kind} (hkind : d.hasKind n kind = true)
    (hne : kind ≠ .semicolon) : n < ahead.length := by
  by_contra hn
  have hn' : ahead'.length ≤ n := h.length_eq ▸ Nat.le_of_not_lt hn
  unfold Cursor.hasKind at hkind
  rw [h.rest', List.getElem?_append_right hn'] at hkind
  cases hl : σ.stop[n - ahead'.length]? with
  | none => simp [hl] at hkind
  | some l =>
    rw [hl] at hkind
    have hl' : l.token.kind = kind := by simpa [Lexeme.hasKind] using hkind
    exact hne (hl' ▸ σ.semicolons l (List.mem_of_getElem? hl))

/-- Behind the first lexeme the same lexemes stand ahead. -/
private theorem eq (htaken : 0 < taken) : ahead' = ahead ∧ d.lastEnd = c.lastEnd :=
  h.further (by have := h.size; omega)

end Shows

theorem Places.anti (h : σ.Places taken c d) (hle : taken' ≤ taken) : σ.Places taken' c d := by
  obtain ⟨ahead, ahead', h⟩ := h
  exact ⟨ahead, ahead', h.anti hle⟩

/-- More lexemes are behind when some have been taken. -/
private theorem Places.took {l : Lexeme} {ls : List Lexeme} (h : σ.Places taken c d)
    (hrest : c.rest = l :: ls) (hlt : σ.behind.length < c.rest.length) :
    ∃ l' ls', d.rest = l' :: ls' ∧ l'.token = l.token ∧
      σ.Places (taken + 1) (c.took l ls) (d.took l' ls') := by
  obtain ⟨ahead, ahead', h⟩ := h
  have hlen : 0 < ahead.length := h.lt_length_iff.mp hlt
  have hlen' : 0 < ahead'.length := h.length_eq ▸ hlen
  obtain ⟨m, ms, rfl⟩ := List.exists_cons_of_length_pos hlen
  obtain ⟨m', ms', rfl⟩ := List.exists_cons_of_length_pos hlen'
  have hcons := h.rest
  rw [hrest, List.cons_append] at hcons
  obtain ⟨rfl, rfl⟩ := List.cons.inj hcons
  have htoken : m'.token = l.token := (List.cons.inj h.tokens).1
  obtain rfl : ms' = ms := h.tail
  have hsize := h.size
  rw [List.length_cons] at hsize
  refine ⟨m', ms' ++ σ.stop, h.rest', htoken, ms', ms', ⟨rfl, rfl, rfl, rfl, by omega, ?_, ?_⟩⟩
  · exact fun _ => ⟨rfl, congrArg (·.span.stop) htoken⟩
  · exact h.diagnostics

/-! ### What is seen from two cursors -/

/-- A view that is the same from both cursors when `k` lexemes of the part are ahead. -/
def Sees (σ : Excerpt) (taken k : ℕ) (view : Cursor → α) : Prop :=
  ∀ c d, σ.Places taken c d → σ.behind.length + k ≤ c.rest.length → view d = view c

/-- A test that is passed in the source if it is passed where the part is alone. -/
def Passes (σ : Excerpt) (taken : ℕ) (view : Cursor → Bool) : Prop :=
  ∀ c d, σ.Places taken c d → view d = true → view c = true

namespace Sees

variable {v w : Cursor → Bool}

/-- A view of a token ahead is the same if the token is in the part. -/
private theorem of_token (view : Option Token → α) (hn : n < k) :
    σ.Sees taken k fun c => view (c.rest[n]?.map Lexeme.token) := by
  rintro c d ⟨ahead, ahead', h⟩ hk
  dsimp only
  rw [h.token_eq (h.lt_length_iff.mp (by omega))]

/-- Kinds are seen alike as far as the part goes. -/
protected theorem hasKind (kind : Token.Kind) (hn : n < k) : σ.Sees taken k (·.hasKind n kind) := by
  have hview : (fun c : Cursor => c.hasKind n kind) =
      fun c => (c.rest[n]?.map Lexeme.token).any fun t => t.kind = kind := by
    funext c
    rw [Option.any_map]
    rfl
  rw [hview]
  exact of_token _ hn

/-- Words are seen alike as far as the part goes. -/
protected theorem isWord (word : String) (hn : n < k) : σ.Sees taken k (·.isWord n word) := by
  have hview : (fun c : Cursor => c.isWord n word) =
      fun c => (c.rest[n]?.map Lexeme.token).any
        fun t => t.kind = .identifier && t.text = word := by
    funext c
    rw [Option.any_map]
    rfl
  rw [hview]
  exact of_token _ hn

/-- Neither cursor is at the end while the part goes on. -/
protected theorem atEnd (hk : 0 < k) : σ.Sees taken k (·.rest.isEmpty) := by
  have hview : (fun c : Cursor => c.rest.isEmpty) =
      fun c => (c.rest[0]?.map Lexeme.token).isNone := by
    funext c
    cases c.rest <;> rfl
  rw [hview]
  exact of_token _ hk

protected theorem nextKind (hk : 0 < k) :
    σ.Sees taken k fun c => c.rest.head?.map fun l => l.token.kind := by
  have hview : (fun c : Cursor => c.rest.head?.map fun l => l.token.kind) =
      fun c => (c.rest[0]?.map Lexeme.token).map Token.kind := by
    funext c
    rw [List.head?_eq_getElem?, Option.map_map]
    rfl
  rw [hview]
  exact of_token _ hk

protected theorem nextText (hk : 0 < k) :
    σ.Sees taken k fun c => (c.rest.head?.map fun l => l.token.text).getD "" := by
  have hview : (fun c : Cursor => (c.rest.head?.map fun l => l.token.text).getD "") =
      fun c => ((c.rest[0]?.map Lexeme.token).map Token.text).getD "" := by
    funext c
    rw [List.head?_eq_getElem?, Option.map_map]
    rfl
  rw [hview]
  exact of_token (fun token? => (token?.map Token.text).getD "") hk

protected theorem nextStart (hk : 0 < k) : σ.Sees taken k Cursor.nextStart := by
  intro c d hcd hle
  have htoken := of_token id hk c d hcd hle
  unfold Cursor.nextStart
  cases hc : c.rest with
  | nil => simp [hc] at hle; omega
  | cons l ls =>
    cases hd : d.rest with
    | nil => simp [hc, hd] at htoken
    | cons l' ls' =>
      have heq : l'.token = l.token := by simpa [hc, hd] using htoken
      dsimp only
      rw [heq]

/-- Behind the first lexeme spans end at the same place. -/
protected theorem spanFrom (start : ℕ) (htaken : 0 < taken) :
    σ.Sees taken k (·.spanFrom start) := by
  rintro c d ⟨ahead, ahead', h⟩ -
  dsimp only
  rw [Cursor.spanFrom, (h.eq htaken).2]
  rfl

protected theorem and (hv : σ.Sees taken k v) (hw : σ.Sees taken k w) :
    σ.Sees taken k fun c => v c && w c := by
  intro c d hcd hk
  dsimp only
  rw [hv c d hcd hk, hw c d hcd hk]

protected theorem or (hv : σ.Sees taken k v) (hw : σ.Sees taken k w) :
    σ.Sees taken k fun c => v c || w c := by
  intro c d hcd hk
  dsimp only
  rw [hv c d hcd hk, hw c d hcd hk]

end Sees

namespace Passes

variable {v w : Cursor → Bool}

/-- A kind that is not that of the stop is found inside the part. -/
protected theorem hasKind (n : ℕ) {kind : Token.Kind} (hne : kind ≠ .semicolon) :
    σ.Passes taken (·.hasKind n kind) := by
  intro c d hcd hd
  have hsame : d.hasKind n kind = c.hasKind n kind := by
    obtain ⟨ahead, ahead', h⟩ := hcd
    have hsees : σ.Sees taken (n + 1) (·.hasKind n kind) := .hasKind kind (Nat.lt_succ_self n)
    refine hsees c d ⟨ahead, ahead', h⟩ ?_
    have hlt := h.lt_length_of_hasKind hd hne
    rw [h.rest, List.length_append]
    omega
  exact hsame.symm.trans hd

/-- A word is found inside the part, since nothing behind it is one. -/
protected theorem isWord (n : ℕ) (word : String) : σ.Passes taken (·.isWord n word) := by
  intro c d hcd hd
  have hsame : d.isWord n word = c.isWord n word := by
    obtain ⟨ahead, ahead', h⟩ := hcd
    have hsees : σ.Sees taken (n + 1) (·.isWord n word) := .isWord word (Nat.lt_succ_self n)
    refine hsees c d ⟨ahead, ahead', h⟩ ?_
    have hlt := h.lt_length_of_hasKind (Placement.hasKind_of_isWord hd) (by decide)
    rw [h.rest, List.length_append]
    omega
  exact hsame.symm.trans hd

protected theorem and (hv : σ.Passes taken v) (hw : σ.Passes taken w) :
    σ.Passes taken fun c => v c && w c := by
  intro c d hcd hd
  rw [Bool.and_eq_true] at hd ⊢
  exact ⟨hv c d hcd hd.1, hw c d hcd hd.2⟩

protected theorem or (hv : σ.Passes taken v) (hw : σ.Passes taken w) :
    σ.Passes taken fun c => v c || w c := by
  intro c d hcd hd
  rw [Bool.or_eq_true] at hd ⊢
  exact hd.imp (hv c d hcd) (hw c d hcd)

end Passes

/-- Behind the first lexeme of the part a line break is in front of both cursors or of none. -/
private theorem lineBreak_eq (htaken : 0 < taken) (h : σ.Places taken c d)
    (hlt : σ.behind.length < c.rest.length) : d.lineBreakAhead = c.lineBreakAhead := by
  obtain ⟨ahead, ahead', h⟩ := h
  obtain ⟨l, ls, rfl⟩ := List.exists_cons_of_length_pos (h.lt_length_iff.mp hlt)
  obtain rfl := (h.eq htaken).1
  simp [Cursor.lineBreakAhead, h.rest, h.rest']

/-- A bracket behind the first lexeme of the part, on the same line. -/
theorem sees_sameLine (kind : Token.Kind) (htaken : 0 < taken) (hk : 0 < k) :
    σ.Sees taken k fun c => c.hasKind 0 kind && !c.lineBreakAhead := by
  intro c d hcd hle
  have hkind : d.hasKind 0 kind = c.hasKind 0 kind := Sees.hasKind kind hk c d hcd hle
  dsimp only
  rw [hkind, lineBreak_eq htaken hcd (by omega)]

/-- A test for the same line is passed inside the part, behind its first lexeme. -/
theorem passes_sameLine {kind : Token.Kind} (hne : kind ≠ .semicolon) (htaken : 0 < taken) :
    σ.Passes taken fun c => c.hasKind 0 kind && !c.lineBreakAhead := by
  intro c d hcd hd
  have hlt : σ.behind.length < c.rest.length := by
    obtain ⟨ahead, ahead', h⟩ := hcd
    exact h.lt_length_iff.mpr (h.lt_length_of_hasKind (Bool.and_eq_true_iff.mp hd).1 hne)
  exact (sees_sameLine (k := 1) kind htaken Nat.zero_lt_one c d hcd hlt).symm.trans hd

end Excerpt

namespace Parser

/-- What `p` reads in the source, `q` reads where the part is alone, as long as `p` is done inside
the part, and at least `spare` lexemes of it are left. At least `taken` lexemes of the part are
behind to begin with, and `p` takes at least `least`. -/
structure Repeats (σ : Excerpt) (taken least spare : ℕ) (p q : Parser α) : Prop where
  takes : ∀ c next a, p c = .done a next → next.rest.length + least ≤ c.rest.length
  repeats : ∀ c d next a, σ.Places taken c d → p c = .done a next →
    σ.behind.length + spare ≤ next.rest.length →
    ∃ next', q d = .done a next' ∧ σ.Places (taken + least) next next'

namespace Repeats

open Excerpt (Sees Passes)

variable {σ : Excerpt} {taken least spare k m : ℕ} {p q : Parser α}
  {f g : α → Parser β}

/-- Less may be known of what is taken. -/
theorem least_le (h : Repeats σ taken m spare p q) (hle : least ≤ m) :
    Repeats σ taken least spare p q where
  takes c next a hp := (Nat.add_le_add_left hle _).trans (h.takes c next a hp)
  repeats c d next a hcd hp hnext := by
    obtain ⟨next', hq, hplaces⟩ := h.repeats c d next a hcd hp hnext
    exact ⟨next', hq, hplaces.anti (Nat.add_le_add_left hle _)⟩

/-! ### Sequence -/

/-- A result is repeated where it is. -/
protected theorem pure (a : α) : Repeats σ taken 0 spare (pure a) (pure a) where
  takes _ _ _ hp := by
    cases hp
    exact le_rfl
  repeats _ d _ _ hcd hp _ := by
    cases hp
    exact ⟨d, rfl, hcd⟩

/-- The first parser leaves in the part what the second one takes of it. -/
protected theorem bind (hp : Repeats σ taken least (spare + m) p q)
    (hf : ∀ a, Repeats σ (taken + least) m spare (f a) (g a)) :
    Repeats σ taken (least + m) spare (p >>= f) (q >>= g) where
  takes c next b h := by
    obtain ⟨a, mid, hpc, hfm⟩ := exists_of_bind_eq_done h
    have hfirst := hp.takes c mid a hpc
    have hsecond := (hf a).takes mid next b hfm
    omega
  repeats c d next b hcd h hnext := by
    obtain ⟨a, mid, hpc, hfm⟩ := exists_of_bind_eq_done h
    have hsecond := (hf a).takes mid next b hfm
    obtain ⟨mid', hq, hmid⟩ := hp.repeats c d mid a hcd hpc (by omega)
    obtain ⟨next', hg, hplaces⟩ := (hf a).repeats mid mid' next b hmid hfm hnext
    refine ⟨next', ?_, by rwa [← Nat.add_assoc]⟩
    rw [bind_of_done hq, hg]

/-! ### Looking -/

/-- What is seen is in the part. -/
theorem look_bind {view : Cursor → α} (hview : σ.Sees taken k view) (hk : k ≤ least + spare)
    (hf : ∀ a, Repeats σ taken least spare (f a) (g a)) :
    Repeats σ taken least spare (look view >>= f) (look view >>= g) where
  takes c next b h := (hf (view c)).takes c next b h
  repeats c d next b hcd h hnext := by
    have htakes := (hf (view c)).takes c next b h
    rw [look_bind_apply, hview c d hcd (by omega)]
    exact (hf (view c)).repeats c d next b hcd h hnext

/-- A test that sees no more than what is taken where it is passed. -/
theorem test {view : Cursor → Bool} {a a' b b' : Parser β} (hview : σ.Sees taken k view)
    (hpasses : σ.Passes taken view) (hk : k ≤ m + spare) (hle : least ≤ m)
    (ha : Repeats σ taken m spare a a') (hb : Repeats σ taken least spare b b') :
    Repeats σ taken least spare (look view >>= fun yes => if yes = true then a else b)
      (look view >>= fun yes => if yes = true then a' else b') where
  takes c next x h := by
    by_cases hc : view c = true
    · rw [test_of_true hc] at h
      exact (ha.least_le hle).takes c next x h
    · rw [test_of_not hc] at h
      exact hb.takes c next x h
  repeats c d next x hcd h hnext := by
    by_cases hc : view c = true
    · rw [test_of_true hc] at h
      have htakes := ha.takes c next x h
      have hd : view d = true := (hview c d hcd (by omega)).trans hc
      rw [test_of_true hd]
      exact (ha.least_le hle).repeats c d next x hcd h hnext
    · rw [test_of_not hc] at h
      rw [test_of_not fun hd => hc (hpasses c d hcd hd)]
      exact hb.repeats c d next x hcd h hnext

/-! ### Taking -/

/-- A parser that halts is never done, so there is nothing to repeat. -/
protected theorem halt (cause : Halt) :
    Repeats σ taken least spare (halt cause : Parser α) (halt cause) where
  takes _ _ _ hp := nomatch hp
  repeats _ _ _ _ _ hp := nomatch hp

protected theorem reject (kind : Diagnostic.Kind) (detail : Option String) :
    Repeats σ taken least spare (reject kind detail : Parser α) (reject kind detail) where
  takes _ _ _ hp := nomatch hp
  repeats _ _ _ _ _ hp := nomatch hp

variable {f g : Token → Parser β}

/-- A lexeme is taken again, if enough of the part is left behind it. -/
protected theorem advance : Repeats σ taken 1 spare advance advance where
  takes c next t h := by
    cases hrest : c.rest with
    | nil => simp [advance, hrest] at h
    | cons l ls =>
      rw [advance_of_rest hrest] at h
      cases h
      exact le_rfl
  repeats c d next t hcd h hnext := by
    cases hrest : c.rest with
    | nil => simp [advance, hrest] at h
    | cons l ls =>
      rw [advance_of_rest hrest] at h
      cases h
      have hlt : σ.behind.length < c.rest.length := by
        rw [hrest, List.length_cons]
        exact Nat.lt_succ_of_le ((Nat.le_add_right _ _).trans hnext)
      obtain ⟨l', ls', hrest', htoken, hplaces⟩ := hcd.took hrest hlt
      exact ⟨_, by rw [advance_of_rest hrest', htoken], hplaces⟩

/-- What follows a lexeme has one more of them behind it. -/
theorem advance_bind (hf : ∀ t, Repeats σ (taken + 1) m spare (f t) (g t)) :
    Repeats σ taken (1 + m) spare (advance >>= f) (advance >>= g) :=
  .bind .advance hf

/-- A mark that is expected is found again; where it is not found the run in the source is not
done. -/
theorem expect_bind {kind : Token.Kind} {spelling : String}
    (hf : ∀ t, Repeats σ (taken + 1) m spare (f t) (g t)) :
    Repeats σ taken (1 + m) spare (expect kind spelling >>= f)
      (expect kind spelling >>= g) := by
  rw [Parser.expect_bind, Parser.expect_bind]
  have hrun := advance_bind hf
  refine ⟨fun c next b h => ?_, fun c d next b hcd h hnext => ?_⟩
  · by_cases hc : c.hasKind 0 kind = true
    · rw [nextIs, test_of_true hc] at h
      exact hrun.takes c next b h
    · rw [nextIs, test_of_not hc] at h
      cases h
  · by_cases hc : c.hasKind 0 kind = true
    · rw [nextIs, test_of_true hc] at h
      have htakes := hrun.takes c next b h
      have hd : d.hasKind 0 kind = true :=
        (Sees.hasKind kind Nat.zero_lt_one c d hcd (by omega)).trans hc
      rw [nextIs, test_of_true hd]
      exact hrun.repeats c d next b hcd h hnext
    · rw [nextIs, test_of_not hc] at h
      cases h

variable {f g : Bool → Parser β}

/-- An optional mark other than the stop is found alike, or has been taken from behind the part, and
then the run does not end inside it. -/
theorem eat_bind {kind : Token.Kind} (hne : kind ≠ .semicolon) (hle : least ≤ 1 + m)
    (htrue : Repeats σ (taken + 1) m spare (f true) (g true))
    (hfalse : Repeats σ taken least spare (f false) (g false)) :
    Repeats σ taken least spare (eat kind >>= f) (eat kind >>= g) := by
  rw [Parser.eat_bind, Parser.eat_bind]
  exact test (k := 1) (.hasKind kind Nat.zero_lt_one) (.hasKind 0 hne) (by omega) hle
    (advance_bind fun _ => htrue) hfalse

protected theorem eat {kind : Token.Kind} (hne : kind ≠ .semicolon) :
    Repeats σ taken 0 spare (eat kind) (eat kind) := by
  have hpure : Repeats σ taken 0 spare (eat kind >>= pure) (eat kind >>= pure) :=
    eat_bind hne (Nat.zero_le _) (.pure true) (.pure false)
  rwa [bind_pure] at hpure

protected theorem after? {kind : Token.Kind} (hne : kind ≠ .semicolon)
    (h : ∀ taken, Repeats σ taken 1 spare p q) :
    Repeats σ taken 0 spare (after? kind p) (after? kind q) :=
  eat_bind hne (Nat.zero_le _) (.bind (h _) fun a => .pure (some a)) (.pure none)

/-! ### Repeating -/

variable {ι : Type}

/-- A loop repeats if its rounds do. The rounds that are left where the part is alone are more than
the lexemes of the part that are left. -/
theorem loop_of_step {loop loop' : ℕ → ι → Parser α} (hzero : ∀ s, loop 0 s = halt .overrun)
    (hstep : ∀ n n' taken', taken ≤ taken' →
      (∀ more, taken' < more → ∀ s, Repeats σ more 0 spare (loop n s) (loop' n' s)) →
      ∀ s, Repeats σ taken' 0 spare (loop (n + 1) s) (loop' (n' + 1) s)) (n : ℕ) :
    ∀ n' taken', taken ≤ taken' → σ.size < n' + taken' →
      ∀ s, Repeats σ taken' 0 spare (loop n s) (loop' n' s) := by
  induction n with
  | zero =>
    intro n' taken' _ _ s
    rw [hzero s]
    exact ⟨nofun, nofun⟩
  | succ n ih =>
    have hrounds : ∀ n' taken', taken ≤ taken' → σ.size < n' + 1 + taken' →
        ∀ s, Repeats σ taken' 0 spare (loop (n + 1) s) (loop' (n' + 1) s) :=
      fun n' taken' htaken hsize => hstep n n' taken' htaken fun more hmore =>
        ih n' more (htaken.trans hmore.le) (by omega)
    intro n' taken' htaken hsize s
    cases n' with
    | succ n' => exact hrounds n' taken' htaken hsize s
    | zero =>
      refine ⟨(hrounds σ.size taken' htaken (by omega) s).takes, ?_⟩
      rintro c d next a ⟨ahead, ahead', hcd⟩
      exact absurd hcd.size (by omega)

/-- Loops repeat if any numbers of rounds do that are enough for what is left of the part. -/
protected theorem rounds {loop loop' : ℕ → Parser α}
    (h : ∀ n n' taken', taken ≤ taken' → σ.size < n' + taken' →
      Repeats σ taken' 0 spare (loop n) (loop' n')) :
    Repeats σ taken 0 spare (rounds loop) (rounds loop') where
  takes c next a hp :=
    (h _ (σ.size + 1) taken le_rfl (by omega)).takes c next a hp
  repeats := by
    rintro c d next a ⟨ahead, ahead', hcd⟩ hp hnext
    -- All lexemes of the part that are not ahead are behind.
    have hsize := hcd.size
    have hall : σ.Shows (σ.size - ahead.length) c d ahead ahead' := { hcd with size := by omega }
    have hlength : d.rest.length = ahead.length + σ.stop.length := by
      rw [hcd.rest', List.length_append, hcd.length_eq]
    obtain ⟨next', hq, hplaces⟩ := (h _ (d.rest.length + 1) (σ.size - ahead.length) (by omega)
      (by omega)).repeats c d next a ⟨ahead, ahead', hall⟩ hp hnext
    exact ⟨next', hq, hplaces.anti (by omega)⟩

/-- The same for a loop that carries nothing from round to round. -/
theorem rounds_of_step {loop loop' : ℕ → Parser α} (hzero : loop 0 = halt .overrun)
    (hstep : ∀ n n' taken', taken ≤ taken' →
      (∀ more, taken' < more → Repeats σ more 0 spare (loop n) (loop' n')) →
      Repeats σ taken' 0 spare (loop (n + 1)) (loop' (n' + 1))) :
    Repeats σ taken 0 spare (rounds loop) (rounds loop') := by
  let stated (n : ℕ) (_ : Unit) := loop n
  let stated' (n : ℕ) (_ : Unit) := loop' n
  have hloop := @loop_of_step _ σ taken spare Unit stated stated' (fun _ => hzero)
    fun n n' taken' htaken ih _ => hstep n n' taken' htaken fun more hmore => ih more hmore ()
  exact .rounds fun n n' taken' htaken hsize => hloop n n' taken' htaken hsize ()

/-- Operands repeat one by one, each with a sign and a lexeme at least. -/
protected theorem operands {operator : Token.Kind} (hne : operator ≠ .semicolon)
    (h : ∀ taken, Repeats σ taken 1 spare p q) :
    Repeats σ taken 0 spare (operands operator p) (operands operator q) := by
  refine .rounds_of_step rfl fun n n' taken' _ ih => ?_
  refine eat_bind (m := 1) hne (Nat.zero_le _) ?_ (.pure [])
  exact .bind (m := 0) (h _) fun first => .bind (ih (taken' + 1 + 1) (by omega)) fun more =>
    .pure (first :: more)

/-- Items are followed by something in the part. -/
protected theorem items (close : Token.Kind)
    (h : ∀ taken spare, Repeats σ taken 1 spare p q) :
    Repeats σ taken 0 (spare + 1) (items close p) (items close q) := by
  refine .rounds_of_step rfl fun n n' taken' _ ih => ?_
  refine look_bind (k := 1) (.hasKind close Nat.zero_lt_one) (by omega) fun yes => ?_
  split
  · exact .pure []
  · refine least_le (.bind (m := 0) (h _ _) fun first => ?_) (Nat.zero_le 1)
    refine eat_bind (m := 0) (by decide) (Nat.zero_le _) ?_ (.pure [first])
    exact .bind (m := 0) (ih (taken' + 1 + 1) (by omega)) fun more => .pure (first :: more)

/-! ### Nesting -/

/-- Where the part is alone any level may be opened. -/
protected theorem nesting {limit : Option ℕ} (h : Repeats σ taken least spare p q) :
    Repeats σ taken least spare (nesting limit p) (nesting none q) where
  takes c next a hp := by
    unfold nesting at hp
    split at hp
    · cases hp
    · cases hpc : p c.entered with
      | done b mid =>
        rw [hpc] at hp
        cases hp
        exact h.takes c.entered mid _ hpc
      | failed mid => simp [hpc] at hp
      | halted cause mid => simp [hpc] at hp
  repeats c d next a hcd hp hnext := by
    unfold nesting at hp
    split at hp
    · cases hp
    · cases hpc : p c.entered with
      | done b mid =>
        rw [hpc] at hp
        cases hp
        obtain ⟨ahead, ahead', hcd⟩ := hcd
        have hentered : σ.Places taken c.entered d.entered :=
          ⟨ahead, ahead', { hcd with }⟩
        obtain ⟨mid', hq, left, left', hmid⟩ :=
          h.repeats c.entered d.entered mid _ hentered hpc hnext
        refine ⟨mid'.left, ?_, left, left', { hmid with }⟩
        -- Without a limit the level is opened whatever the depth.
        rw [nesting_none_apply, hq]
      | failed mid => simp [hpc] at hp
      | halted cause mid => simp [hpc] at hp

end Repeats

/-! ### Reading a run alone -/

/-- Where the lexemes of a run stand alone, with nothing but semicolons behind them, the parser is
done with `a`, has taken the run, and has nothing to report. What stands before the first lexeme
does not matter. -/
def ReadsAlone (p : Parser α) (run : List Lexeme) (a : α) : Prop :=
  ∀ (d : Cursor) (ahead stop : List Lexeme), d.rest = ahead ++ stop →
    ahead.map Lexeme.token = run.map Lexeme.token → ahead.tail = run.tail →
    (∀ l ∈ stop, l.token.kind = .semicolon) → d.diagnostics = [] →
    ∃ next, p d = .done a next ∧ next.rest = stop ∧ next.diagnostics = []

/-- **The run that is taken in the source is read alone.** -/
theorem ReadsAlone.of_repeats {p q : Parser α} {least : ℕ} (h : ∀ σ, Repeats σ 0 least 0 p q)
    {c next : Cursor} {a : α} {run : List Lexeme} (hp : p c = .done a next)
    (hrun : c.rest = run ++ next.rest) : ReadsAlone q run a := by
  intro d ahead stop hrest htokens htail hstop hdiagnostics
  let σ : Excerpt := ⟨run.length, next.rest, stop, hstop⟩
  have hplaces : σ.Places 0 c d :=
    ⟨run, ahead, hrun, hrest, htokens, htail, le_rfl, fun hlt => absurd hlt (lt_irrefl _),
      hdiagnostics⟩
  obtain ⟨next', hq, left, left', hleft⟩ := (h σ).repeats c d next a hplaces hp le_rfl
  obtain rfl : left = [] := List.append_left_eq_self.mp hleft.rest.symm
  obtain rfl : left' = [] := List.eq_nil_of_length_eq_zero hleft.length_eq
  exact ⟨next', hq, hleft.rest', hleft.diagnostics⟩

end Parser

end Reifier
