import Reifier.Proofs.Parser.Agreement
import Reifier.Proofs.Parser.Placement

/-!
# Parsers in a text and in a longer one

`Parser.Simulates σ pre p q post` compares a run of `p` from a cursor `c` in a text that satisfies
`pre` with the run of `q` from the cursor at the same place in the longer text. Where `p` is done so
is `q`, at the same place, and the two values satisfy `post`; where `p` fails so does `q`, and
reading is still within the text. What `p` does not bring to an end is not compared.

`Parser.Follows` is the common case: the value of `q` is that of `p`, changed by a function, and as
many brackets are open afterwards as before. The rules follow the combinators that productions are
built from; taking an opening bracket leads one bracket further in.
-/

namespace Reifier

variable {α β γ δ : Type} {σ : Placement} {depth n : ℕ}

/-! ### Looking ahead -/

namespace Placement

/-- A view that is the same from both cursors when `n` lexemes ahead can be looked at. -/
def Sees (σ : Placement) (n : ℕ) (view : Cursor → Bool) : Prop :=
  ∀ c d : Cursor, σ.Places c d → σ.Within 0 c → σ.Visible n c → view d = view c

namespace Sees

variable {m : ℕ} {v w : Cursor → Bool}

/-- From within the text the next lexeme can be looked at. -/
theorem within (h : σ.Sees 0 v) (c d : Cursor) (hcd : σ.Places c d) (hc : σ.Within depth c) :
    v d = v c :=
  h c d hcd hc.zero hc.visible

protected theorem hasKind (n : ℕ) (kind : Token.Kind) : σ.Sees n (·.hasKind n kind) :=
  fun _ _ hcd _ hn => hcd.hasKind hn kind

protected theorem isWord (n : ℕ) (word : String) : σ.Sees n (·.isWord n word) :=
  fun _ _ hcd _ hn => hcd.isWord hn word

protected theorem lineBreakAhead : σ.Sees 0 (·.lineBreakAhead) :=
  fun _ _ hcd _ hn => hcd.lineBreakAhead hn

protected theorem atEnd : σ.Sees 0 (·.rest.isEmpty) :=
  fun _ _ hcd _ hn => hcd.isEmpty hn

protected theorem not (h : σ.Sees n v) : σ.Sees n fun c => !v c := by
  intro c d hcd hc hn
  dsimp only
  rw [h c d hcd hc hn]

protected theorem and (hv : σ.Sees n v) (hw : σ.Sees n w) : σ.Sees n fun c => v c && w c := by
  intro c d hcd hc hn
  dsimp only
  rw [hv c d hcd hc hn, hw c d hcd hc hn]

protected theorem or (hv : σ.Sees n v) (hw : σ.Sees n w) : σ.Sees n fun c => v c || w c := by
  intro c d hcd hc hn
  dsimp only
  rw [hv c d hcd hc hn, hw c d hcd hc hn]

/-- What is only looked at where another one is seen may lie behind a lexeme that is then known to
be no semicolon. -/
theorem guard {kind : Token.Kind} (hv : σ.Sees n v)
    (hguard : ∀ c, v c = true → c.hasKind m kind = true) (hw : σ.Sees (m + 1) w)
    (hne : kind ≠ .semicolon) : σ.Sees n fun c => v c && w c := by
  intro c d hcd hc hn
  dsimp only
  rw [hv c d hcd hc hn]
  cases hvc : v c with
  | false => rfl
  | true => rw [hw c d hcd hc (hc.visible_succ (hguard c hvc) hne)]

/-- What is only looked at behind a lexeme that is no semicolon is seen alike. -/
theorem guard_hasKind {kind : Token.Kind} (hw : σ.Sees (n + 1) w) (hne : kind ≠ .semicolon) :
    σ.Sees n fun c => c.hasKind n kind && w c :=
  guard (.hasKind n kind) (fun _ h => h) hw hne

/-- What is only looked at behind a word is seen alike. -/
theorem guard_isWord {word : String} (hw : σ.Sees (n + 1) w) :
    σ.Sees n fun c => c.isWord n word && w c :=
  guard (.isWord n word) (fun _ => hasKind_of_isWord) hw (by decide)

end Sees

end Placement

/-! ### Simulation -/

/-- How an outcome in a text compares with one in a longer text: both are done at the same place,
with values that satisfy `post`, or both fail there, unless the first is halted. -/
def Outcome.Simulated (σ : Placement) (post : α → β → Cursor → Prop) :
    Outcome α → Outcome β → Prop
  | .done a next, other =>
    ∃ b next', other = .done b next' ∧ σ.Places next next' ∧ post a b next
  | .failed next, other => ∃ next', other = .failed next' ∧ σ.Places next next' ∧ σ.Within 0 next
  | .halted _ _, _ => True

namespace Parser

/-- The outcomes compare from all cursors at the same place of which the one in the text satisfies
`pre`. -/
def Simulates (σ : Placement) (pre : Cursor → Prop) (p : Parser α) (q : Parser β)
    (post : α → β → Cursor → Prop) : Prop :=
  ∀ c d : Cursor, σ.Places c d → pre c → (p c).Simulated σ post (q d)

/-- From within the text both are done within the text, as many brackets being open as before, and
the value of the second is that of the first, changed by `move`. -/
def Follows (σ : Placement) (depth : ℕ) (p : Parser α) (q : Parser β) (move : α → β) : Prop :=
  Simulates σ (σ.Within depth) p q fun a b next => b = move a ∧ σ.Within depth next

namespace Simulates

variable {pre pre' : Cursor → Prop} {p : Parser α} {q : Parser β} {between : α → β → Cursor → Prop}
  {post : γ → δ → Cursor → Prop} {f : α → Parser γ} {g : β → Parser δ}

theorem anti {p : Parser γ} {q : Parser δ} (h : Simulates σ pre p q post)
    (hpre : ∀ c, pre' c → pre c) : Simulates σ pre' p q post :=
  fun c d hcd hc => h c d hcd (hpre c hc)

/-- The rule of consequence. -/
theorem mono {post' : γ → δ → Cursor → Prop} {p : Parser γ} {q : Parser δ}
    (h : Simulates σ pre p q post) (hpost : ∀ a b c, post a b c → post' a b c) :
    Simulates σ pre p q post' := by
  intro c d hcd hc
  have hrun := h c d hcd hc
  cases hp : p c with
  | done a next =>
    rw [hp] at hrun
    obtain ⟨b, next', hq, hnext, hab⟩ := hrun
    exact ⟨b, next', hq, hnext, hpost a b next hab⟩
  | failed next =>
    rw [hp] at hrun
    exact hrun
  | halted cause next => trivial

/-! ### Sequence -/

protected theorem pure {a : γ} {b : δ} (h : ∀ c, pre c → post a b c) :
    Simulates σ pre (pure a) (pure b) post :=
  fun c d hcd hc => ⟨b, d, rfl, hcd, h c hc⟩

/-- Within the text, with the value as it has to be. -/
theorem done {move : γ → δ} {a : γ} {b : δ} (h : b = move a) :
    Simulates σ (σ.Within depth) (pure a) (pure b) fun a b next =>
      b = move a ∧ σ.Within depth next :=
  .pure fun _ hc => ⟨h, hc⟩

/-- A sequence simulates another one part by part; what holds between the parts of the first is
where the second ones start. -/
protected theorem bind (hp : Simulates σ pre p q between)
    (hf : ∀ a b, Simulates σ (between a b) (f a) (g b) post) :
    Simulates σ pre (p >>= f) (q >>= g) post := by
  intro c d hcd hc
  have hrun := hp c d hcd hc
  cases hpc : p c with
  | done a next =>
    rw [hpc] at hrun
    obtain ⟨b, next', hq, hnext, hab⟩ := hrun
    rw [bind_of_done hpc, bind_of_done hq]
    exact hf a b next next' hnext hab
  | failed next =>
    rw [hpc] at hrun
    obtain ⟨next', hq, hnext⟩ := hrun
    rw [bind_of_failed hpc, bind_of_failed hq]
    exact ⟨next', rfl, hnext⟩
  | halted cause next =>
    rw [bind_of_halted hpc]
    trivial

/-- What follows a parser whose value is changed by `move`. -/
theorem bind_moved {move : α → β} {after : Cursor → Prop}
    (hp : Simulates σ pre p q fun a b next => b = move a ∧ after next)
    (hf : ∀ a, Simulates σ after (f a) (g (move a)) post) :
    Simulates σ pre (p >>= f) (q >>= g) post := by
  refine Simulates.bind hp fun a b => ?_
  rintro c d hcd ⟨rfl, hc⟩
  exact hf a c d hcd hc

/-! ### Looking -/

/-- What has been seen is known afterwards. -/
theorem look_bind {view : Cursor → α} {view' : Cursor → β} (move : α → β)
    (hview : ∀ c d, σ.Places c d → pre c → view' d = move (view c))
    (hf : ∀ a, Simulates σ (fun c => pre c ∧ view c = a) (f a) (g (move a)) post) :
    Simulates σ pre (look view >>= f) (look view' >>= g) post := by
  intro c d hcd hc
  rw [look_bind_apply, look_bind_apply, hview c d hcd hc]
  exact hf (view c) c d hcd ⟨hc, rfl⟩

/-- The parser that runs is chosen by the same test. -/
theorem test_iff {view : Cursor → Bool} {a b : Parser γ} {a' b' : Parser δ}
    (hview : ∀ c d, σ.Places c d → pre c → view d = view c)
    (htrue : Simulates σ (fun c => pre c ∧ view c = true) a a' post)
    (hfalse : Simulates σ (fun c => pre c ∧ view c = false) b b' post) :
    Simulates σ pre (look view >>= fun yes => if yes = true then a else b)
      (look view >>= fun yes => if yes = true then a' else b') post := by
  refine look_bind id hview fun yes => ?_
  cases yes with
  | true => exact htrue
  | false => exact hfalse

/-- A test that is seen alike chooses the same branch; the first one may use that it holds. -/
theorem test {view : Cursor → Bool} {a b : Parser γ} {a' b' : Parser δ}
    (hview : ∀ c d, σ.Places c d → pre c → view d = view c)
    (htrue : Simulates σ (fun c => pre c ∧ view c = true) a a' post)
    (hfalse : Simulates σ pre b b' post) :
    Simulates σ pre (look view >>= fun yes => if yes = true then a else b)
      (look view >>= fun yes => if yes = true then a' else b') post :=
  test_iff hview htrue (hfalse.anti fun _ hc => hc.1)

/-- A test of which nothing needs to be known afterwards. -/
theorem choose {view : Cursor → Bool} {a b : Parser γ} {a' b' : Parser δ} (hview : σ.Sees 0 view)
    (htrue : Simulates σ (σ.Within depth) a a' post)
    (hfalse : Simulates σ (σ.Within depth) b b' post) :
    Simulates σ (σ.Within depth) (look view >>= fun yes => if yes = true then a else b)
      (look view >>= fun yes => if yes = true then a' else b') post :=
  test hview.within (htrue.anti fun _ hc => hc.1) hfalse

/-- Something may be read first, after a test, before what is read in any case. -/
theorem sometimes {view : Cursor → Bool} {rest : Parser γ} {rest' : Parser δ}
    (hview : σ.Sees 0 view)
    (hp : Simulates σ (fun c => σ.Within depth c ∧ view c = true) p q fun _ _ => σ.Within depth)
    (hrest : Simulates σ (σ.Within depth) rest rest' post) :
    Simulates σ (σ.Within depth)
      (look view >>= fun yes => if yes = true then p >>= fun _ => rest else rest)
      (look view >>= fun yes => if yes = true then q >>= fun _ => rest' else rest') post :=
  test hview.within (.bind hp fun _ _ => hrest) hrest

/-- What two tests have in common where one of them succeeds. -/
theorem either {v w : Cursor → Bool} {p : Parser γ} {q : Parser δ}
    (hv : Simulates σ (fun c => pre c ∧ v c = true) p q post)
    (hw : Simulates σ (fun c => pre c ∧ w c = true) p q post) :
    Simulates σ (fun c => pre c ∧ (v c || w c) = true) p q post := by
  rintro c d hcd ⟨hc, hvw⟩
  rcases Bool.or_eq_true_iff.mp hvw with h | h
  · exact hv c d hcd ⟨hc, h⟩
  · exact hw c d hcd ⟨hc, h⟩

/-- What the kind of the next token decides. -/
theorem nextKind_bind {f : Option Token.Kind → Parser γ} {g : Option Token.Kind → Parser δ}
    (hnone : Simulates σ (σ.Within depth) (f none) (g none) post)
    (hsome : ∀ kind, Simulates σ (fun c => σ.Within depth c ∧ c.hasKind 0 kind = true)
      (f (some kind)) (g (some kind)) post) :
    Simulates σ (σ.Within depth) (nextKind >>= f) (nextKind >>= g) post := by
  refine look_bind id (fun c d hcd hc => ?_) fun kind => ?_
  · rw [hcd.head? hc.visible, Option.map_map]
    rfl
  · cases kind with
    | none => exact hnone.anti fun c hc => hc.1
    | some kind =>
      refine (hsome kind).anti fun c hc => ⟨hc.1, ?_⟩
      obtain ⟨l, hl, hkind⟩ := Option.map_eq_some_iff.mp hc.2
      obtain ⟨ls, hrest⟩ := List.head?_eq_some_iff.mp hl
      exact Cursor.hasKind_zero_iff.mpr ⟨l, ls, hrest, decide_eq_true hkind⟩

/-- The text of the next token. -/
theorem nextText_bind {f : String → Parser γ} {g : String → Parser δ}
    (hpre : ∀ c, pre c → σ.Visible 0 c) (hf : ∀ text, Simulates σ pre (f text) (g text) post) :
    Simulates σ pre (nextText >>= f) (nextText >>= g) post := by
  refine look_bind id (fun c d hcd hc => ?_) fun text => (hf text).anti fun c hc => hc.1
  rw [hcd.head? (hpre c hc), Option.map_map]
  rfl

/-- Where the next token begins. -/
theorem nextStart_bind {f : ℕ → Parser γ} {g : ℕ → Parser δ}
    (hpre : ∀ c, pre c → σ.Visible 0 c)
    (hf : ∀ start, Simulates σ pre (f start) (g (start + σ.offset)) post) :
    Simulates σ pre (nextStart >>= f) (nextStart >>= g) post := by
  refine look_bind (· + σ.offset) (fun c d hcd hc => hcd.nextStart (hpre c hc)) ?_
  exact fun start => (hf start).anti fun c hc => hc.1

/-- Ranges that end with the last token taken. -/
theorem spanFrom_bind {f : Span → Parser γ} {g : Span → Parser δ} {start : ℕ}
    (hf : ∀ span, Simulates σ pre (f span) (g (span.moved σ.offset)) post) :
    Simulates σ pre (spanFrom start >>= f) (spanFrom (start + σ.offset) >>= g) post := by
  refine look_bind (Span.moved σ.offset) (fun c d hcd _ => hcd.spanFrom start) ?_
  exact fun span => (hf span).anti fun c hc => hc.1

/-! ### Taking and reporting -/

/-- Within the text both parsers reject at the same place. -/
protected theorem reject (hpre : ∀ c, pre c → σ.Within depth c) (kind : Diagnostic.Kind)
    (detail : Option String) :
    Simulates σ pre (Parser.reject kind detail : Parser γ)
      (Parser.reject kind detail : Parser δ) post := by
  intro c d hcd hc
  have hwithin := hpre c hc
  refine ⟨_, rfl, hcd.report hwithin.visible kind detail, ?_⟩
  unfold Placement.Within
  rw [Cursor.report_rest]
  exact hwithin.zero

variable {f : Token → Parser γ} {g : Token → Parser δ}

/-- The token taken in the longer text is the one taken in the text, further on. -/
theorem advance_bind (between : Token → Cursor → Prop) (hpre : ∀ c, pre c → σ.Visible 0 c)
    (htook : ∀ c l ls, pre c → c.rest = l :: ls → between l.token (c.took l ls))
    (hf : ∀ t, Simulates σ (between t) (f t) (g (t.moved σ.offset)) post) :
    Simulates σ pre (advance >>= f) (advance >>= g) post := by
  intro c d hcd hc
  rcases hcd.cases_rest (hpre c hc) with ⟨hrest, -⟩ | ⟨l, ls, hrest, hrest'⟩
  · have hhalt : advance c = .halted .overrun c := by rw [advance, hrest]
    rw [bind_of_halted hhalt]
    trivial
  · rw [bind_of_done (advance_of_rest hrest), bind_of_done (advance_of_rest hrest')]
    exact hf l.token _ _ (hcd.took hrest) (htook c l ls hc hrest)

/-- Behind a token that is known to be no semicolon the text goes on. -/
theorem take_bind {view : Cursor → Bool} {kind : Token.Kind}
    (hview : ∀ c, view c = true → c.hasKind 0 kind = true) (hne : kind ≠ .semicolon)
    (hf : ∀ t, t.kind = kind →
      Simulates σ (σ.Within (kind.depthAfter depth)) (f t) (g (t.moved σ.offset)) post) :
    Simulates σ (fun c => σ.Within depth c ∧ view c = true)
      (advance >>= f) (advance >>= g) post := by
  refine advance_bind (fun t c => t.kind = kind ∧ σ.Within (kind.depthAfter depth) c)
    (fun c hc => hc.1.visible) (fun c l ls hc hrest => ?_)
    fun t c d hcd ht => hf t ht.1 c d hcd ht.2
  have hkind := hview c hc.2
  exact ⟨Placement.kind_of_hasKind hkind hrest, hc.1.took_of_ne hkind hne hrest⟩

/-- A lexeme that is no semicolon is taken within the text, and leaves it so. Brackets change the
depth. -/
theorem take {view : Cursor → Bool} {kind : Token.Kind}
    (hview : ∀ c, view c = true → c.hasKind 0 kind = true) (hne : kind ≠ .semicolon) :
    Simulates σ (fun c => σ.Within depth c ∧ view c = true) advance advance fun t t' next =>
      t' = t.moved σ.offset ∧ σ.Within (kind.depthAfter depth) next := by
  have hpure : Simulates σ (fun c => σ.Within depth c ∧ view c = true) (advance >>= pure)
      (advance >>= pure) fun t t' next =>
        t' = t.moved σ.offset ∧ σ.Within (kind.depthAfter depth) next :=
    take_bind hview hne fun _ _ => .done rfl
  rwa [bind_pure] at hpure

/-- A semicolon may be the last lexeme of the text. -/
theorem take_semicolon_bind
    (hf : ∀ t, Simulates σ (σ.Past depth) (f t) (g (t.moved σ.offset)) post) :
    Simulates σ (fun c => σ.Within depth c ∧ c.hasKind 0 .semicolon = true)
      (advance >>= f) (advance >>= g) post := by
  exact advance_bind (fun _ => σ.Past depth) (fun c hc => hc.1.visible)
    (fun c l ls hc hrest => hc.1.took_semicolon hc.2 hrest) hf

/-- A mark that is no semicolon leaves what follows within the text. -/
theorem expect_bind {kind : Token.Kind} {spelling : String} (hne : kind ≠ .semicolon)
    (hf : ∀ t, t.kind = kind →
      Simulates σ (σ.Within (kind.depthAfter depth)) (f t) (g (t.moved σ.offset)) post) :
    Simulates σ (σ.Within depth) (expect kind spelling >>= f) (expect kind spelling >>= g)
      post := by
  rw [Parser.expect_bind, Parser.expect_bind]
  exact test (Placement.Sees.hasKind 0 kind).within (take_bind (fun _ h => h) hne hf)
    (.reject (fun _ hc => hc) _ _)

theorem expectWord_bind {word : String}
    (hf : ∀ t, Simulates σ (σ.Within depth) (f t) (g (t.moved σ.offset)) post) :
    Simulates σ (σ.Within depth) (expectWord word >>= f) (expectWord word >>= g) post := by
  rw [Parser.expectWord_bind, Parser.expectWord_bind]
  refine test (Placement.Sees.isWord 0 word).within ?_ (.reject (fun _ hc => hc) _ _)
  exact take_bind (fun _ => Placement.hasKind_of_isWord) (by decide) fun t _ => hf t

variable {f : Bool → Parser γ} {g : Bool → Parser δ}

theorem eat_bind {kind : Token.Kind} (hne : kind ≠ .semicolon)
    (htrue : Simulates σ (σ.Within (kind.depthAfter depth)) (f true) (g true) post)
    (hfalse : Simulates σ (σ.Within depth) (f false) (g false) post) :
    Simulates σ (σ.Within depth) (eat kind >>= f) (eat kind >>= g) post := by
  rw [Parser.eat_bind, Parser.eat_bind]
  exact test (Placement.Sees.hasKind 0 kind).within
    (take_bind (fun _ h => h) hne fun _ _ => htrue) hfalse

theorem eatWord_bind {word : String}
    (htrue : Simulates σ (σ.Within depth) (f true) (g true) post)
    (hfalse : Simulates σ (σ.Within depth) (f false) (g false) post) :
    Simulates σ (σ.Within depth) (eatWord word >>= f) (eatWord word >>= g) post := by
  rw [Parser.eatWord_bind, Parser.eatWord_bind]
  refine test (Placement.Sees.isWord 0 word).within ?_ hfalse
  exact take_bind (fun _ => Placement.hasKind_of_isWord) (by decide) fun _ _ => htrue

/-- A semicolon may be the last lexeme of the text, so behind it one may be past the text. -/
theorem eat_semicolon_bind (hf : ∀ yes, Simulates σ (σ.Past depth) (f yes) (g yes) post) :
    Simulates σ (σ.Within depth) (eat .semicolon >>= f) (eat .semicolon >>= g) post := by
  rw [Parser.eat_bind, Parser.eat_bind]
  exact test (Placement.Sees.hasKind 0 .semicolon).within (take_semicolon_bind fun _ => hf true)
    ((hf false).anti fun c hc => hc.past)

/-! ### Recording comments -/

/-- The comments of the text come behind those before it. -/
theorem settle_bind {f : List CommentId → Parser γ} {g : List CommentId → Parser δ}
    (hf : ∀ ids, Simulates σ (σ.Within depth) (f ids)
      (g (ids.map (σ.comments.length + ·))) post) :
    Simulates σ (σ.Within depth) (settle >>= f) (settle >>= g) post := by
  intro c d hcd hc
  have hrun : ∀ {ε : Type} (f : List CommentId → Parser ε) (c : Cursor), (settle >>= f) c =
      f (List.range' c.comments.length c.commentsAhead.length) c.settled := fun _ _ => rfl
  rw [hrun, hrun, hcd.commentIds hc.visible]
  exact hf _ _ _ (hcd.settled hc.visible) hc.settled

/-! ### Repeating -/

/-- A loop that has no fewer rounds in the longer text does there what it does in the text if one
round does. -/
theorem loop_of_step {ι κ : Type} {loop : ℕ → ι → Parser γ} {loop' : ℕ → κ → Parser δ}
    (move : ι → κ) {pre : ι → Cursor → Prop} (hzero : ∀ s, loop 0 s = halt .overrun)
    (hstep : ∀ n n', (∀ s, Simulates σ (pre s) (loop n s) (loop' n' (move s)) post) →
      ∀ s, Simulates σ (pre s) (loop (n + 1) s) (loop' (n' + 1) (move s)) post) :
    ∀ {n n' : ℕ}, n ≤ n' → ∀ s, Simulates σ (pre s) (loop n s) (loop' n' (move s)) post := by
  intro n
  induction n with
  | zero =>
    intro n' _ s c d _ _
    rw [hzero s]
    trivial
  | succ n ih =>
    intro n' hle
    obtain ⟨k, rfl⟩ := Nat.exists_eq_add_of_le' hle
    exact hstep n (k + n) (ih (Nat.le_add_left n k))

/-- The longer text may allow more rounds, so rounds are compared with any larger number of them. -/
protected theorem rounds {loop : ℕ → Parser γ} {loop' : ℕ → Parser δ}
    (h : ∀ {n n' : ℕ}, n ≤ n' → Simulates σ pre (loop n) (loop' n') post) :
    Simulates σ pre (rounds loop) (rounds loop') post := by
  intro c d hcd hc
  refine h ?_ c d hcd hc
  rw [hcd.length_eq]
  omega

/-- The same for a loop that carries nothing from round to round. -/
theorem rounds_of_step {loop : ℕ → Parser γ} {loop' : ℕ → Parser δ}
    (hzero : loop 0 = halt .overrun)
    (hstep : ∀ n n', Simulates σ pre (loop n) (loop' n') post →
      Simulates σ pre (loop (n + 1)) (loop' (n' + 1)) post) :
    Simulates σ pre (rounds loop) (rounds loop') post := by
  let stays (_ : Unit) := pre
  let stated (n : ℕ) (_ : Unit) := loop n
  let stated' (n : ℕ) (_ : Unit) := loop' n
  have hloop : ∀ {n n' : ℕ}, n ≤ n' → ∀ s, Simulates σ (stays s) (stated n s) (stated' n' s) post :=
    loop_of_step id (fun _ => hzero) fun n n' ih s => hstep n n' (ih s)
  exact .rounds fun hle => hloop hle ()

/-! ### Trying -/

variable {f : Option α → Parser γ} {g : Option β → Parser δ}

/-- After a failure one goes back to the lexemes before the attempt. -/
theorem attempt_bind {move : α → β} {after : Cursor → Prop}
    (hpre : ∀ c, pre c → σ.Within depth c)
    (hp : Simulates σ pre p q fun a b next => b = move a ∧ after next)
    (hsome : ∀ a, Simulates σ after (f (some a)) (g (some (move a))) post)
    (hnone : Simulates σ (σ.Within depth) (f none) (g none) post) :
    Simulates σ pre (attempt p >>= f) (attempt q >>= g) post := by
  intro c d hcd hc
  have hrun := hp c d hcd hc
  rw [bind_apply, bind_apply, attempt, attempt]
  cases hpc : p c with
  | done a next =>
    rw [hpc] at hrun
    obtain ⟨b, next', hq, hnext, rfl, hafter⟩ := hrun
    rw [hq]
    exact hsome a next next' hnext hafter
  | failed next =>
    rw [hpc] at hrun
    obtain ⟨next', hq, hnext, -⟩ := hrun
    rw [hq]
    exact hnone _ _ (hcd.rewind hnext) (hpre c hc)
  | halted cause next => trivial

end Simulates

/-- Without a limit every level may be opened. -/
theorem nesting_none_apply (p : Parser α) (c : Cursor) :
    nesting none p c = match p c.entered with
      | .done a next => .done a next.left
      | .failed next => .failed next.left
      | .halted cause next => .halted cause next.left := rfl

namespace Follows

variable {p : Parser α} {q : Parser β} {move : α → β}

/-! ### Parsers that stay at one depth of brackets -/

/-- What follows starts within the text again, with a result that has been moved. -/
protected theorem bind {post : γ → δ → Cursor → Prop} {f : α → Parser γ} {g : β → Parser δ}
    (hp : Follows σ depth p q move)
    (hf : ∀ a, Simulates σ (σ.Within depth) (f a) (g (move a)) post) :
    Simulates σ (σ.Within depth) (p >>= f) (q >>= g) post :=
  Simulates.bind_moved hp hf

/-- One level further in nothing is different. -/
protected theorem nesting (h : Follows σ depth p q move) :
    Follows σ depth (nesting none p) (nesting none q) move := by
  intro c d hcd hc
  have hentered : σ.Places c.entered d.entered :=
    ⟨⟨hcd.endOffset, hcd.lastEnd, hcd.comments, hcd.diagnostics, hcd.lastReport⟩, hcd.rest⟩
  have hleft : ∀ {next next' : Cursor}, σ.Places next next' → σ.Places next.left next'.left :=
    fun h => ⟨⟨h.endOffset, h.lastEnd, h.comments, h.diagnostics, h.lastReport⟩, h.rest⟩
  have hrun := h c.entered d.entered hentered hc
  rw [nesting_none_apply, nesting_none_apply]
  cases hpc : p c.entered with
  | done a next =>
    rw [hpc] at hrun
    obtain ⟨b, next', hq, hnext, hab⟩ := hrun
    rw [hq]
    exact ⟨b, _, rfl, hleft hnext, hab⟩
  | failed next =>
    rw [hpc] at hrun
    obtain ⟨next', hq, hnext, hwithin⟩ := hrun
    rw [hq]
    exact ⟨_, rfl, hleft hnext, hwithin⟩
  | halted cause next => trivial

protected theorem eat {kind : Token.Kind} (hne : kind ≠ .semicolon)
    (hdepth : kind.depthAfter depth = depth) : Follows σ depth (eat kind) (eat kind) id := by
  refine .test (Placement.Sees.hasKind 0 kind).within ?_ (.done rfl)
  refine .take_bind (fun _ h => h) hne fun _ _ => ?_
  rw [hdepth]
  exact .done rfl

protected theorem after? {kind : Token.Kind} (hne : kind ≠ .semicolon)
    (hdepth : kind.depthAfter depth = depth) (h : Follows σ depth p q move) :
    Follows σ depth (after? kind p) (after? kind q) (Option.map move) := by
  refine .eat_bind hne ?_ (.done rfl)
  rw [hdepth]
  exact h.bind fun _ => .done rfl

/-- Operands follow each other with moved results. -/
protected theorem operands {operator : Token.Kind} (hne : operator ≠ .semicolon)
    (hdepth : operator.depthAfter depth = depth) (h : Follows σ depth p q move) :
    Follows σ depth (operands operator p) (operands operator q) (List.map move) := by
  refine .rounds_of_step rfl fun n n' ih => .eat_bind hne ?_ (.done rfl)
  rw [hdepth]
  exact h.bind fun _ => Follows.bind ih fun _ => .done rfl

/-- Items follow each other with moved results. -/
protected theorem items {close : Token.Kind} (h : Follows σ depth p q move) :
    Follows σ depth (items close p) (items close q) (List.map move) := by
  refine .rounds_of_step rfl fun n n' ih => ?_
  refine .choose (.hasKind 0 close) (.done rfl) ?_
  refine h.bind fun _ => .eat_bind (by decide) ?_ (.done rfl)
  exact Follows.bind ih fun _ => .done rfl

protected theorem commaSeparated (h : Follows σ depth p q move) :
    Follows σ depth (commaSeparated p) (commaSeparated q) (List.map move) :=
  h.bind fun _ => (h.operands (by decide) rfl).bind fun _ => .done rfl

end Follows

end Parser

end Reifier
