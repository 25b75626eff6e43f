import Reifier.Parser.Basic
import Reifier.Proofs.Token.Words

/-!
# Parsers that read words

`c.Ahead ws` says that the lexemes left at a cursor show the words `ws`, and `p.Reads ws rest post`
that wherever the words `ws` stand ahead, and the words `rest` behind them, the parser `p` is done
with a value that satisfies `post`, having taken `ws` and reported nothing. What stands behind
matters, since parsers look further ahead than they take.

The rules follow the combinators. The words of a sequence are the words of its parts, and a test is
decided by the words ahead.
-/

namespace Reifier

open Token (Word)

/-! ### Words ahead of a cursor -/

namespace Cursor

/-- The lexemes that are left show given words. -/
def Ahead (c : Cursor) (ws : List Word) : Prop := List.Forall₂ Lexeme.Shows c.rest ws

/-- Nothing has been recorded or reported between two cursors. -/
structure Passes (c next : Cursor) : Prop where
  comments : next.comments = c.comments
  diagnostics : next.diagnostics = c.diagnostics
  lastReport : next.lastReport = c.lastReport

theorem Passes.refl (c : Cursor) : c.Passes c := ⟨rfl, rfl, rfl⟩

theorem Passes.trans {a b c : Cursor} (h : a.Passes b) (h' : b.Passes c) : a.Passes c :=
  ⟨h'.comments.trans h.comments, h'.diagnostics.trans h.diagnostics,
    h'.lastReport.trans h.lastReport⟩

variable {c : Cursor} {w : Word} {ws : List Word}

theorem Ahead.length_eq (h : c.Ahead ws) : c.rest.length = ws.length := List.Forall₂.length_eq h

/-- Lexemes that show words do so place by place. -/
private theorem rel_getElem? {ls : List Lexeme} (h : List.Forall₂ Lexeme.Shows ls ws) (n : ℕ) :
    Option.Rel Lexeme.Shows ls[n]? ws[n]? := by
  induction h generalizing n with
  | nil => exact .none
  | cons hshow hshows ih =>
    cases n with
    | zero => exact .some hshow
    | succ n => exact ih n

/-- The kinds of the lexemes ahead are those of the words. -/
theorem Ahead.hasKind_eq (h : c.Ahead ws) (n : ℕ) (kind : Token.Kind) :
    c.hasKind n kind = ws[n]?.any (·.kind = kind) := by
  have hrel := rel_getElem? h n
  unfold hasKind
  generalize c.rest[n]? = l?, ws[n]? = w? at hrel ⊢
  cases hrel with
  | none => rfl
  | some hshow => simp only [Option.any_some, Lexeme.hasKind, hshow.kind]

/-- No kind is seen that the first word does not have. -/
theorem Ahead.hasKind_zero_eq_false (h : c.Ahead ws) {kind : Token.Kind}
    (hkind : ∀ w ∈ ws.head?, w.kind ≠ kind) : c.hasKind 0 kind = false := by
  rw [h.hasKind_eq, ← List.head?_eq_getElem?, Option.any_eq_false_iff_get]
  exact fun hsome => decide_eq_false (hkind _ (Option.get_mem hsome))

/-- Words are seen ahead where they are. -/
theorem Ahead.isWord_eq (h : c.Ahead ws) (n : ℕ) (word : String) :
    c.isWord n word = ws[n]?.any fun w => w.kind = .identifier && w.text = word := by
  have hrel := rel_getElem? h n
  unfold isWord
  generalize c.rest[n]? = l?, ws[n]? = w? at hrel ⊢
  cases hrel with
  | none => rfl
  | some hshow => simp only [Option.any_some, Lexeme.isWord, hshow.kind, hshow.text]

theorem Ahead.isWord_zero {word : String} (h : c.Ahead (⟨.identifier, word⟩ :: ws)) :
    c.isWord 0 word = true := by
  rw [h.isWord_eq]
  exact Bool.and_eq_true_iff.mpr ⟨rfl, decide_eq_true rfl⟩

/-- No word is seen that is not the first one. -/
theorem Ahead.isWord_zero_eq_false (h : c.Ahead ws) {word : String}
    (hword : ∀ w ∈ ws.head?, w ≠ ⟨.identifier, word⟩) : c.isWord 0 word = false := by
  rw [h.isWord_eq, ← List.head?_eq_getElem?, Option.any_eq_false_iff_get]
  refine fun hsome => Bool.eq_false_iff.mpr fun heq => hword _ (Option.get_mem hsome) ?_
  exact Word.ext_iff.mpr (by simpa using heq)

/-- Words that are shown stand on one line. -/
theorem Ahead.lineBreakAhead_eq (h : c.Ahead ws) : c.lineBreakAhead = false := by
  have hrel := rel_getElem? h 0
  unfold lineBreakAhead
  rw [List.head?_eq_getElem?]
  generalize c.rest[0]? = l?, ws[0]? = w? at hrel ⊢
  cases hrel with
  | none => rfl
  | some hshow => exact hshow.lineBreak

private theorem Ahead.nextKind_eq (h : c.Ahead ws) :
    c.rest.head?.map (·.token.kind) = ws.head?.map (·.kind) := by
  have hrel := rel_getElem? h 0
  rw [List.head?_eq_getElem?, List.head?_eq_getElem?]
  generalize c.rest[0]? = l?, ws[0]? = w? at hrel ⊢
  cases hrel with
  | none => rfl
  | some hshow => exact congrArg some hshow.kind

theorem Ahead.isEmpty_eq (h : c.Ahead ws) : c.rest.isEmpty = ws.isEmpty := by
  unfold Ahead at h
  generalize c.rest = ls at h ⊢
  cases h with
  | nil => rfl
  | cons _ _ => rfl

/-- A word ahead is shown by a lexeme. -/
private theorem Ahead.exists_cons (h : c.Ahead (w :: ws)) :
    ∃ l ls, c.rest = l :: ls ∧ l.Shows w ∧ List.Forall₂ Lexeme.Shows ls ws := by
  obtain ⟨l, ls, hshow, hshows, hrest⟩ := List.forall₂_cons_right_iff.mp h
  exact ⟨l, ls, hrest, hshow, hshows⟩

private theorem Ahead.nextText_eq (h : c.Ahead (w :: ws)) :
    (c.rest.head?.map (·.token.text)).getD "" = w.text := by
  obtain ⟨l, ls, hrest, hshow, -⟩ := h.exists_cons
  rw [hrest]
  exact hshow.text

/-- Taking the lexeme of the first word leaves the others ahead. -/
theorem Ahead.exists_took (h : c.Ahead (w :: ws)) :
    ∃ l ls, c.rest = l :: ls ∧ l.token.kind = w.kind ∧ l.token.text = w.text ∧
      c.Passes (c.took l ls) ∧ (c.took l ls).Ahead ws := by
  obtain ⟨l, ls, hrest, hshow, hshows⟩ := h.exists_cons
  refine ⟨l, ls, hrest, hshow.kind, hshow.text, ⟨?_, rfl, rfl⟩, hshows⟩
  rw [took, hshow.comments, List.append_nil]

/-- There is no comment to be recorded. -/
theorem Ahead.settled (h : c.Ahead (w :: ws)) :
    c.commentsAhead = [] ∧ c.Passes c.settled ∧ c.settled.Ahead (w :: ws) := by
  obtain ⟨l, ls, hrest, hshow, hshows⟩ := h.exists_cons
  unfold commentsAhead Cursor.settled
  rw [hrest]
  refine ⟨hshow.comments, ⟨?_, rfl, rfl⟩, .cons ⟨hshow.kind, hshow.text, rfl, rfl⟩ hshows⟩
  exact (congrArg _ hshow.comments).trans (List.append_nil _)

end Cursor

namespace Parser

variable {α β : Type} {ws ws' rest : List Word} {post : α → Prop} {post' : β → Prop}

/-- The parser takes the words `ws`, behind which `rest` stands, and is done with a value that
satisfies `post`. -/
def Reads (p : Parser α) (ws rest : List Word) (post : α → Prop) : Prop :=
  ∀ c : Cursor, c.Ahead (ws ++ rest) →
    ∃ a next, p c = .done a next ∧ post a ∧ c.Passes next ∧ next.Ahead rest

/-- Behind an item of a list stands a comma, or what closes the list. -/
def EndsItem (close : Token.Kind) (rest : List Word) : Prop :=
  ∀ w ∈ rest.head?, w.kind = .comma ∨ w.kind = close

theorem endsItem_comma (close : Token.Kind) (ws : List Word) :
    EndsItem close (.sign .comma :: ws) := by
  rintro w ⟨⟩
  exact .inl rfl

/-- What closes a list stands behind its last item. -/
theorem endsItem_close {close : Token.Kind} {w : Word} (hw : w.kind = close) (ws : List Word) :
    EndsItem close (w :: ws) := by
  rintro w ⟨⟩
  exact .inr hw

namespace Reads

/-! ### Sequence -/

protected theorem pure {a : α} (h : post a) : Reads (pure a) [] rest post :=
  fun c hc => ⟨a, c, rfl, h, .refl c, hc⟩

/-- A sequence reads the words of its parts one after the other; the first part has those of the
second one ahead of it. -/
protected theorem bind {p : Parser α} {f : α → Parser β} (hp : Reads p ws (ws' ++ rest) post)
    (hf : ∀ a, post a → Reads (f a) ws' rest post') : Reads (p >>= f) (ws ++ ws') rest post' := by
  intro c hc
  rw [List.append_assoc] at hc
  obtain ⟨a, mid, hrun, ha, hmid, hahead⟩ := hp c hc
  obtain ⟨b, next, hrun', hb, hnext, hahead'⟩ := hf a ha mid hahead
  exact ⟨b, next, (bind_of_done hrun f).trans hrun', hb, hmid.trans hnext, hahead'⟩

/-- A result may be built from what has been read. -/
theorem bind_pure {p : Parser α} {g : α → β} (hp : Reads p ws rest post)
    (hg : ∀ a, post a → post' (g a)) : Reads (p >>= fun a => pure (g a)) ws rest post' := by
  intro c hc
  obtain ⟨a, next, hrun, ha, hnext, hahead⟩ := hp c hc
  exact ⟨g a, next, bind_of_done hrun _, hg a ha, hnext, hahead⟩

/-- A look ahead at the end takes no word. -/
theorem bind_look_pure {γ : Type} {p : Parser α} {view : Cursor → γ} {g : α → γ → β}
    (hp : Reads p ws rest post) (hg : ∀ a v, post a → post' (g a v)) :
    Reads (p >>= fun a => look view >>= fun v => pure (g a v)) ws rest post' := by
  intro c hc
  obtain ⟨a, next, hrun, ha, hnext, hahead⟩ := hp c hc
  exact ⟨g a (view next), next, bind_of_done hrun _, hg a _ ha, hnext, hahead⟩

/-- A weaker postcondition is met as well. -/
theorem mono {p : Parser α} {post' : α → Prop} (hp : Reads p ws rest post)
    (hpost : ∀ a, post a → post' a) : Reads p ws rest post' := by
  intro c hc
  obtain ⟨a, next, hrun, ha, hnext, hahead⟩ := hp c hc
  exact ⟨a, next, hrun, hpost a ha, hnext, hahead⟩

/-! ### Looking -/

/-- What is seen ahead does not matter if each way on reads the words. -/
theorem look_bind {view : Cursor → α} {f : α → Parser β} (hf : ∀ a, Reads (f a) ws rest post') :
    Reads (look view >>= f) ws rest post' :=
  fun c hc => hf (view c) c hc

/-- What is seen may depend on the words ahead only. -/
private theorem look_bind_eq {view : Cursor → α} {f : α → Parser β} (v : α)
    (hview : ∀ c : Cursor, c.Ahead (ws ++ rest) → view c = v) (hf : Reads (f v) ws rest post') :
    Reads (look view >>= f) ws rest post' := by
  intro c hc
  rw [look_bind_apply, hview c hc]
  exact hf c hc

theorem nextKind_bind {w : Word} {f : Option Token.Kind → Parser β}
    (hf : Reads (f (some w.kind)) (w :: ws) rest post') :
    Reads (nextKind >>= f) (w :: ws) rest post' :=
  look_bind_eq _ (fun _ hc => hc.nextKind_eq) hf

theorem nextText_bind {w : Word} {f : String → Parser β}
    (hf : Reads (f w.text) (w :: ws) rest post') : Reads (nextText >>= f) (w :: ws) rest post' :=
  look_bind_eq _ (fun _ hc => hc.nextText_eq) hf

/-- A test that the words ahead pass. -/
theorem test_true {view : Cursor → Bool} {p q : Parser β}
    (hview : ∀ c : Cursor, c.Ahead (ws ++ rest) → view c = true) (hp : Reads p ws rest post') :
    Reads (look view >>= fun yes => if yes = true then p else q) ws rest post' :=
  look_bind_eq true hview hp

/-- A test that the words ahead do not pass. -/
theorem test_false {view : Cursor → Bool} {p q : Parser β}
    (hview : ∀ c : Cursor, c.Ahead (ws ++ rest) → view c = false) (hq : Reads q ws rest post') :
    Reads (look view >>= fun yes => if yes = true then p else q) ws rest post' :=
  look_bind_eq false hview hq

section Kinds

variable {w : Word} {kind : Token.Kind}

/-- The next word is of a given kind. -/
theorem nextIs_true {p q : Parser β} (hw : w.kind = kind) (hp : Reads p (w :: ws) rest post') :
    Reads (nextIs kind >>= fun yes => if yes = true then p else q) (w :: ws) rest post' :=
  test_true (fun _ hc => (hc.hasKind_eq 0 kind).trans (decide_eq_true hw)) hp

/-- The next word, if there is one, is not of a given kind. -/
theorem nextIs_false {p q : Parser β} (hkind : ∀ w ∈ (ws ++ rest).head?, w.kind ≠ kind)
    (hq : Reads q ws rest post') :
    Reads (nextIs kind >>= fun yes => if yes = true then p else q) ws rest post' :=
  test_false (fun _ hc => hc.hasKind_zero_eq_false hkind) hq

/-! ### Taking -/

/-- The next lexeme has the kind and the text of the first word. -/
theorem advance_bind {f : Token → Parser β}
    (hf : ∀ t : Token, t.kind = w.kind → t.text = w.text → Reads (f t) ws rest post') :
    Reads (advance >>= f) (w :: ws) rest post' := by
  intro c hc
  obtain ⟨l, ls, hrest, hkind, htext, hpass, hahead⟩ := Cursor.Ahead.exists_took hc
  obtain ⟨b, next, hrun, hb, hnext, hahead'⟩ := hf l.token hkind htext (c.took l ls) hahead
  rw [bind_of_done (advance_of_rest hrest)]
  exact ⟨b, next, hrun, hb, hpass.trans hnext, hahead'⟩

/-- A mark that is the first word is taken. -/
theorem eat_true {f : Bool → Parser β} (hw : w.kind = kind) (hf : Reads (f true) ws rest post') :
    Reads (eat kind >>= f) (w :: ws) rest post' := by
  rw [Parser.eat_bind]
  exact nextIs_true hw (advance_bind fun _ _ _ => hf)

/-- A mark that is not the first word is left alone. -/
theorem eat_false {f : Bool → Parser β} (hkind : ∀ w ∈ (ws ++ rest).head?, w.kind ≠ kind)
    (hf : Reads (f false) ws rest post') : Reads (eat kind >>= f) ws rest post' := by
  rw [Parser.eat_bind]
  exact nextIs_false hkind hf

protected theorem expect_bind {spelling : String} {f : Token → Parser β} (hw : w.kind = kind)
    (hf : ∀ t, Reads (f t) ws rest post') :
    Reads (expect kind spelling >>= f) (w :: ws) rest post' := by
  rw [Parser.expect_bind]
  exact nextIs_true hw (advance_bind fun t _ _ => hf t)

end Kinds

section Words

variable {word : String}

theorem eatWord_true {f : Bool → Parser β} (hf : Reads (f true) ws rest post') :
    Reads (eatWord word >>= f) (⟨.identifier, word⟩ :: ws) rest post' := by
  rw [Parser.eatWord_bind]
  exact test_true (fun _ hc => hc.isWord_zero) (advance_bind fun _ _ _ => hf)

theorem eatWord_false {f : Bool → Parser β}
    (hword : ∀ w ∈ (ws ++ rest).head?, w ≠ ⟨.identifier, word⟩)
    (hf : Reads (f false) ws rest post') : Reads (eatWord word >>= f) ws rest post' := by
  rw [Parser.eatWord_bind]
  exact test_false (fun _ hc => hc.isWord_zero_eq_false hword) hf

protected theorem expectWord_bind {f : Token → Parser β} (hf : ∀ t, Reads (f t) ws rest post') :
    Reads (expectWord word >>= f) (⟨.identifier, word⟩ :: ws) rest post' := by
  rw [Parser.expectWord_bind]
  exact test_true (fun _ hc => hc.isWord_zero) (advance_bind fun t _ _ => hf t)

end Words

/-- Without a limit a level more changes nothing. -/
protected theorem nesting {p : Parser α} (hp : Reads p ws rest post) :
    Reads (nesting none p) ws rest post := by
  intro c hc
  obtain ⟨a, next, hrun, ha, hpass, hahead⟩ := hp c.entered hc
  refine ⟨a, next.left, ?_, ha, ⟨hpass.comments, hpass.diagnostics, hpass.lastReport⟩, hahead⟩
  unfold Parser.nesting
  rw [hrun]
  rfl

/-- Recording comments changes nothing ahead. -/
theorem settle_bind {w : Word} {f : List CommentId → Parser β}
    (hf : Reads (f []) (w :: ws) rest post') : Reads (settle >>= f) (w :: ws) rest post' := by
  intro c hc
  obtain ⟨hnone, hpass, hahead⟩ := Cursor.Ahead.settled hc
  obtain ⟨b, next, hrun, hb, hnext, hahead'⟩ := hf c.settled hahead
  rw [bind_apply, settle, hnone]
  exact ⟨b, next, hrun, hb, hpass.trans hnext, hahead'⟩

/-- There is no failure to go on after. -/
protected theorem recover {p : Parser α} (hp : Reads p ws rest post) :
    Reads (recover p) ws rest fun a? => ∃ a, a? = some a ∧ post a := by
  intro c hc
  obtain ⟨a, next, hrun, ha, hpass, hahead⟩ := hp c hc
  refine ⟨some a, next, ?_, ⟨a, rfl, ha⟩, hpass, hahead⟩
  rw [Parser.recover, hrun]

/-! ### Repeating -/

/-- There are more rounds than words ahead. -/
protected theorem rounds {loop : ℕ → Parser α}
    (h : ∀ n, (ws ++ rest).length < n → Reads (loop n) ws rest post) :
    Reads (rounds loop) ws rest post :=
  fun c hc => h (c.rest.length + 1) (hc.length_eq ▸ Nat.lt_succ_self _) c hc

/-- A loop that needs more rounds than it takes words. -/
theorem rounds_of_lt {loop : ℕ → Parser α}
    (h : ∀ n, ws.length < n → Reads (loop n) ws rest post) : Reads (rounds loop) ws rest post := by
  refine .rounds fun n hn => h n ?_
  rw [List.length_append] at hn
  omega

section Loops

variable {γ : Type} {word : γ → List Word} {read : γ → α → Prop} {p : Parser α} {xs : List γ}

/-- No operator stands ahead. -/
theorem operands_bind_nil {operator : Token.Kind} {f : List α → Parser β}
    (hws : ∀ w ∈ (ws ++ rest).head?, w.kind ≠ operator) (hf : Reads (f []) ws rest post') :
    Reads (operands operator p >>= f) ws rest post' := by
  have hnone : Reads (operands operator p) [] (ws ++ rest) (· = []) := by
    refine .rounds_of_lt fun n hn => ?_
    obtain ⟨n, rfl⟩ := Nat.exists_eq_add_one_of_ne_zero (Nat.ne_zero_of_lt hn)
    exact eat_false hws (.pure rfl)
  refine hnone.bind ?_
  rintro _ rfl
  exact hf

/-- Behind an operand stands the operator, or what stands behind all operands. -/
theorem operator_or_rest {operator : Token.Kind} :
    ∀ w ∈ ((xs.flatMap fun x => Word.sign operator :: word x) ++ rest).head?,
      w.kind = operator ∨ w ∈ rest.head? := by
  cases xs with
  | nil => exact fun w hw => .inr hw
  | cons x xs =>
    rintro w ⟨⟩
    exact .inl rfl

/-- Operands behind operators are read one after another, if each is read wherever an operator or
what stands behind all of them follows. -/
protected theorem operands {operator : Token.Kind}
    (hp : ∀ x ∈ xs, ∀ behind, (∀ w ∈ behind.head?, w.kind = operator ∨ w ∈ rest.head?) →
      Reads p (word x) behind (read x))
    (hrest : ∀ w ∈ rest.head?, w.kind ≠ operator) :
    Reads (operands operator p) (xs.flatMap fun x => Word.sign operator :: word x) rest
      fun as => List.Forall₂ read xs as := by
  refine .rounds_of_lt fun n hn => ?_
  induction xs generalizing n with
  | nil =>
    obtain ⟨n, rfl⟩ := Nat.exists_eq_add_one_of_ne_zero (Nat.ne_zero_of_lt hn)
    exact eat_false hrest (.pure .nil)
  | cons x xs ih =>
    obtain ⟨n, rfl⟩ := Nat.exists_eq_add_one_of_ne_zero (Nat.ne_zero_of_lt hn)
    obtain ⟨hx, hxs⟩ := List.forall_mem_cons.mp hp
    rw [List.flatMap_cons, List.cons_append] at hn ⊢
    refine eat_true rfl (.bind (hx _ operator_or_rest) fun first hfirst => ?_)
    refine .bind_pure (ih hxs n ?_) fun more hmore => .cons hfirst hmore
    rw [List.length_cons, List.length_append] at hn
    omega

/-- Items with commas between them are read one after another up to the closing token, which none of
them begins with. -/
protected theorem items {close : Token.Kind} (hclose : close ≠ .comma)
    (hrest : ∃ w ws, rest = w :: ws ∧ w.kind = close)
    (hword : ∀ x ∈ xs, ∃ w ws, word x = w :: ws ∧ w.kind ≠ close)
    (hp : ∀ x ∈ xs, ∀ behind, EndsItem close behind → Reads p (word x) behind (read x)) :
    Reads (items close p) (Word.separated .comma (xs.map word)) rest
      fun as => List.Forall₂ read xs as := by
  obtain ⟨v, rest, rfl, hv⟩ := hrest
  -- The last item has no comma behind it, so the induction looks at the item after the first one.
  refine .rounds_of_lt fun n hn => ?_
  induction xs generalizing n with
  | nil =>
    obtain ⟨n, rfl⟩ := Nat.exists_eq_add_one_of_ne_zero (Nat.ne_zero_of_lt hn)
    exact test_true (fun c hc => (hc.hasKind_eq 0 close).trans (decide_eq_true hv)) (.pure .nil)
  | cons x xs ih =>
    obtain ⟨n, rfl⟩ := Nat.exists_eq_add_one_of_ne_zero (Nat.ne_zero_of_lt hn)
    obtain ⟨⟨w, ws, hw, hne⟩, hwords⟩ := List.forall_mem_cons.mp hword
    obtain ⟨hx, hxs⟩ := List.forall_mem_cons.mp hp
    have hhead : ∀ tail, ∀ u ∈ (word x ++ tail).head?, u.kind ≠ close := by
      rw [hw]
      rintro tail u ⟨⟩
      exact hne
    cases xs with
    | nil =>
      rw [List.map_singleton, Word.separated_singleton]
      refine nextIs_false (hhead _) ?_
      rw [← List.append_nil (word x)]
      refine .bind (hx _ (endsItem_close hv rest)) fun first hfirst => eat_false ?_ ?_
      · rintro u ⟨⟩
        exact hv.trans_ne hclose
      · exact .pure (.cons hfirst .nil)
    | cons y ys =>
      rw [List.map_cons, List.map_cons, Word.separated_cons_cons, ← List.map_cons] at hn ⊢
      refine nextIs_false (by rw [List.append_assoc]; exact hhead _) ?_
      refine .bind (hx _ (endsItem_comma close _)) fun first hfirst => eat_true rfl ?_
      refine .bind_pure (ih hwords hxs n ?_) fun more hmore => .cons hfirst hmore
      rw [List.length_append, List.length_cons] at hn
      omega

end Loops

end Reads

end Parser

end Reifier
