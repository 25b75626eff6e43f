import Reifier.Proofs.Parser.Forward
import Reifier.Proofs.Token.Patterns

/-!
# What parsers have taken

`p.Takes post` says that whenever the parser `p` is done with a value, it has taken a run of lexemes
whose words satisfy `post` together with this value. A production takes no words but those of its
form, so such a statement gives back what has been read, where a value does not say all of it.

The rules follow the combinators. A token that has been looked at before it is taken is known to be
this word; of a sign the kind is enough, since in a source it has one spelling only
(`Cursor.SignsAhead`).
-/

namespace Reifier

open Token (Word)

variable {α β : Type}

/-- Of the kind of a sign there is nothing ahead but this sign. -/
def Cursor.SignsAhead (c : Cursor) : Prop :=
  ∀ l ∈ c.rest, l.token.kind ∈ Token.punctuation.map (·.1) → l.token.word = .sign l.token.kind

/-- The kind that is seen next is that of the next lexeme. -/
theorem Cursor.kind_of_hasKind {c : Cursor} {l : Lexeme} {ls : List Lexeme} {kind : Token.Kind}
    (h : c.hasKind 0 kind = true) (hrest : c.rest = l :: ls) : l.token.kind = kind := by
  rw [Cursor.hasKind, hrest] at h
  exact of_decide_eq_true h

/-- The word that is seen next is that of the next lexeme. -/
theorem Cursor.word_of_isWord {c : Cursor} {l : Lexeme} {ls : List Lexeme} {word : String}
    (h : c.isWord 0 word = true) (hrest : c.rest = l :: ls) :
    l.token.word = ⟨.identifier, word⟩ := by
  rw [Cursor.isWord, hrest] at h
  obtain ⟨hkind, htext⟩ := Bool.and_eq_true_iff.mp h
  exact Word.ext_iff.mpr ⟨of_decide_eq_true hkind, of_decide_eq_true htext⟩

/-- Behind a run the signs ahead are as the table has them, as they were before it. -/
private theorem Cursor.SignsAhead.over {c d : Cursor} {run : List Lexeme} (h : c.SignsAhead)
    (hover : c.Over run d) : d.SignsAhead := by
  intro l hl
  exact h l (by rw [hover.rest]; exact List.mem_append_right _ hl)

namespace Parser

/-- When the parser is done, the words that it has taken satisfy `post` with its value. -/
def Takes (p : Parser α) (post : List Word → α → Prop) : Prop :=
  ∀ c a next, c.SignsAhead → p c = .done a next →
    ∃ run, c.Over run next ∧ post (run.map (·.token.word)) a

namespace Takes

variable {post : List Word → α → Prop} {post' : List Word → β → Prop} {p : Parser α}

/-! ### Sequence -/

protected theorem pure {a : α} (h : post [] a) : Takes (pure a) post := by
  rintro c _ _ - ⟨⟩
  exact ⟨[], .refl c, h⟩

/-- A sequence takes the words of its parts one after the other. -/
protected theorem bind {f : α → Parser β} (hp : Takes p post)
    (hf : ∀ ws a, post ws a → Takes (f a) fun vs => post' (ws ++ vs)) :
    Takes (p >>= f) post' := by
  intro c b next hc hrun
  cases hpc : p c with
  | done a mid =>
    rw [bind_of_done hpc] at hrun
    obtain ⟨run, hover, ha⟩ := hp c a mid hc hpc
    obtain ⟨more, hover', hb⟩ := hf _ a ha mid b next (hc.over hover) hrun
    refine ⟨run ++ more, hover.trans hover', ?_⟩
    rwa [List.map_append]
  | failed mid =>
    rw [bind_of_failed hpc] at hrun
    cases hrun
  | halted cause mid =>
    rw [bind_of_halted hpc] at hrun
    cases hrun

/-- The words that are taken satisfy what follows from the postcondition. -/
theorem mono {post' : List Word → α → Prop} (hp : Takes p post)
    (hpost : ∀ ws a, post ws a → post' ws a) : Takes p post' := by
  intro c a next hc hrun
  obtain ⟨run, hover, ha⟩ := hp c a next hc hrun
  exact ⟨run, hover, hpost _ a ha⟩

protected theorem reject (kind : Diagnostic.Kind) (detail : Option String) :
    Takes (reject kind detail : Parser α) post := by
  rintro c a next - ⟨⟩

protected theorem halt (cause : Halt) : Takes (halt cause : Parser α) post := by
  rintro c a next - ⟨⟩

/-! ### Looking -/

theorem look_bind {view : Cursor → α} {f : α → Parser β} (hf : ∀ a, Takes (f a) post') :
    Takes (look view >>= f) post' :=
  fun c => hf (view c) c

/-- A test takes nothing, and each way on takes what it does. -/
theorem test {view : Cursor → Bool} {a b : Parser β} (ha : Takes a post') (hb : Takes b post') :
    Takes (look view >>= fun yes => if yes = true then a else b) post' := by
  refine look_bind fun yes => ?_
  cases yes with
  | true => exact ha
  | false => exact hb

/-! ### Taking -/

/-- There has been a token to be taken. -/
theorem exists_took {f : Token → Parser β} {c next : Cursor} {b : β}
    (hrun : (advance >>= f) c = .done b next) :
    ∃ l ls, c.rest = l :: ls ∧ f l.token (c.took l ls) = .done b next := by
  cases hrest : c.rest with
  | nil =>
    have hhalt : advance c = .halted .overrun c := by rw [Parser.advance, hrest]
    rw [bind_of_halted hhalt] at hrun
    cases hrun
  | cons l ls =>
    rw [bind_of_done (advance_of_rest hrest)] at hrun
    exact ⟨l, ls, rfl, hrun⟩

/-- Whatever token stands ahead is taken. -/
theorem advance_bind {f : Token → Parser β}
    (hf : ∀ t : Token, Takes (f t) fun vs => post' (t.word :: vs)) :
    Takes (advance >>= f) post' := by
  intro c b next hc hrun
  obtain ⟨l, ls, hrest, hrun⟩ := exists_took hrun
  have htake : c.Over [l] (c.took l ls) := .take hrest
  obtain ⟨run, hover, hb⟩ := hf l.token _ b next (hc.over htake) hrun
  exact ⟨l :: run, htake.trans hover, hb⟩

/-- The token that is taken has been looked at. -/
theorem test_advance {view : Cursor → Bool} (found : Word → Prop) {f : Token → Parser β}
    {q : Parser β}
    (hview : ∀ c l ls, c.SignsAhead → view c = true → c.rest = l :: ls → found l.token.word)
    (hf : ∀ t : Token, found t.word → Takes (f t) fun vs => post' (t.word :: vs))
    (hq : Takes q post') :
    Takes (look view >>= fun yes => if yes = true then advance >>= f else q) post' := by
  intro c b next hc hrun
  by_cases hyes : view c = true
  · rw [test_of_true hyes] at hrun
    obtain ⟨l, ls, hrest, hrun⟩ := exists_took hrun
    have htake : c.Over [l] (c.took l ls) := .take hrest
    obtain ⟨run, hover, hb⟩ := hf l.token (hview c l ls hc hyes hrest) _ b next (hc.over htake) hrun
    exact ⟨l :: run, htake.trans hover, hb⟩
  · rw [test_of_not hyes] at hrun
    exact hq c b next hc hrun

section Kinds

variable {kind : Token.Kind} {word : String}

/-- A lexeme of the kind that is seen gives a word of that kind. -/
theorem nextIs_advance {f : Token → Parser β} {q : Parser β}
    (hf : ∀ t : Token, t.kind = kind → Takes (f t) fun vs => post' (t.word :: vs))
    (hq : Takes q post') :
    Takes (nextIs kind >>= fun yes => if yes = true then advance >>= f else q) post' :=
  test_advance (·.kind = kind) (fun _ _ _ _ hyes hrest => Cursor.kind_of_hasKind hyes hrest) hf hq

/-- Only the sign is of its kind. -/
private theorem sign_advance (hkind : kind ∈ Token.punctuation.map (·.1)) {f : Token → Parser β}
    {q : Parser β} (hf : ∀ t : Token, Takes (f t) fun vs => post' (.sign kind :: vs))
    (hq : Takes q post') :
    Takes (nextIs kind >>= fun yes => if yes = true then advance >>= f else q) post' := by
  refine test_advance (· = .sign kind) (fun c l ls hc hyes hrest => ?_) (fun t ht => ht ▸ hf t) hq
  obtain rfl := Cursor.kind_of_hasKind hyes hrest
  exact hc l (by rw [hrest]; exact List.mem_cons_self) hkind

/-- The word that is seen is taken. -/
private theorem word_advance {f : Token → Parser β} {q : Parser β}
    (hf : ∀ t : Token, Takes (f t) fun vs => post' (⟨.identifier, word⟩ :: vs))
    (hq : Takes q post') :
    Takes (nextIsWord word >>= fun yes => if yes = true then advance >>= f else q) post' :=
  test_advance (· = ⟨.identifier, word⟩)
    (fun _ _ _ _ hyes hrest => Cursor.word_of_isWord hyes hrest) (fun t ht => ht ▸ hf t) hq

variable {f : Bool → Parser β} {g : Token → Parser β}

/-- An optional sign is taken as the table has it, or not at all. -/
protected theorem eat_bind (hkind : kind ∈ Token.punctuation.map (·.1))
    (htrue : Takes (f true) fun vs => post' (.sign kind :: vs)) (hfalse : Takes (f false) post') :
    Takes (eat kind >>= f) post' := by
  rw [Parser.eat_bind]
  exact sign_advance hkind (fun _ => htrue) hfalse

protected theorem eatWord_bind (htrue : Takes (f true) fun vs => post' (⟨.identifier, word⟩ :: vs))
    (hfalse : Takes (f false) post') : Takes (eatWord word >>= f) post' := by
  rw [Parser.eatWord_bind]
  exact word_advance (fun _ => htrue) hfalse

protected theorem expect_bind {spelling : String} (hkind : kind ∈ Token.punctuation.map (·.1))
    (hg : ∀ t, Takes (g t) fun vs => post' (.sign kind :: vs)) :
    Takes (expect kind spelling >>= g) post' := by
  rw [Parser.expect_bind]
  exact sign_advance hkind hg (.reject _ _)

protected theorem expectWord_bind
    (hg : ∀ t, Takes (g t) fun vs => post' (⟨.identifier, word⟩ :: vs)) :
    Takes (expectWord word >>= g) post' := by
  rw [Parser.expectWord_bind]
  exact word_advance hg (.reject _ _)

end Kinds

/-! ### Repeating -/

protected theorem rounds {loop : ℕ → Parser α} (h : ∀ n, Takes (loop n) post) :
    Takes (rounds loop) post :=
  fun c => h (c.rest.length + 1) c

/-- The words of items: those of each item, with commas between them and perhaps one behind the
last. -/
def IsItems (post : List Word → α → Prop) (ws : List Word) (as : List α) : Prop :=
  ∃ parts comma, List.Forall₂ post parts as ∧ (as = [] → comma = false) ∧
    ws = Word.separated .comma parts ++ if comma then [.sign .comma] else []

/-- An item in front, with a comma behind it. -/
theorem IsItems.cons {ws vs : List Word} {a : α} {as : List α} (ha : post ws a)
    (h : IsItems post vs as) : IsItems post (ws ++ .sign .comma :: vs) (a :: as) := by
  obtain ⟨parts, comma, hparts, hcomma, rfl⟩ := h
  cases hparts with
  | nil =>
    rw [hcomma rfl]
    exact ⟨[ws], true, .cons ha .nil, nofun, by rw [Word.separated_singleton]; rfl⟩
  | cons hv hparts =>
    refine ⟨_, comma, .cons ha (.cons hv hparts), nofun, ?_⟩
    rw [Word.separated_cons_cons, List.append_assoc, List.cons_append]

/-- Items take their words with commas between them; by induction on the rounds. -/
protected theorem items {close : Token.Kind} (hp : Takes p post) :
    Takes (items close p) (IsItems post) := by
  refine .rounds fun n => ?_
  induction n with
  | zero => exact .halt _
  | succ n ih =>
    refine .test (.pure ⟨[], false, .nil, fun _ => rfl, rfl⟩) (.bind hp fun ws a ha => ?_)
    refine .eat_bind (by decide) (.bind ih fun vs as hmore => .pure ?_) (.pure ?_)
    · rw [List.append_nil]
      exact hmore.cons ha
    · exact ⟨[ws], false, .cons ha .nil, nofun, by rw [Word.separated_singleton]; rfl⟩

end Takes

end Parser

end Reifier
