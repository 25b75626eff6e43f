import Reifier.Proofs.Parser.Agreement
import Reifier.Proofs.Parser.Reading

/-!
# Parsers that reject words

`p.Rejects ws rest kind detail` says that wherever the words `ws` stand ahead, and the words `rest`
behind them, the parser `p` takes `ws`, and then reports at the word behind them what is wrong, and
fails. The rules follow the combinators like those for parsers that read words: a sequence rejects
what its first part rejects, or what another part does behind words that were read.
-/

namespace Reifier

open Token (Word)

namespace Parser

variable {α β : Type} {ws ws' rest : List Word} {post : α → Prop}
  {kind : Diagnostic.Kind} {detail : Option String}

/-- The parser takes the words `ws` and fails, with a report at the word behind them. -/
def Rejects (p : Parser α) (ws rest : List Word) (kind : Diagnostic.Kind)
    (detail : Option String) : Prop :=
  ∀ c : Cursor, c.Ahead (ws ++ rest) →
    ∃ mid, p c = .failed (mid.report kind detail) ∧ c.Passes mid ∧ mid.Ahead rest

namespace Rejects

/-! ### Sequence -/

protected theorem reject : Rejects (reject kind detail : Parser α) [] rest kind detail :=
  fun c hc => ⟨c, rfl, .refl c, hc⟩

/-- What the first part rejects. -/
protected theorem bind {p : Parser α} (hp : Rejects p ws rest kind detail) (f : α → Parser β) :
    Rejects (p >>= f) ws rest kind detail := by
  intro c hc
  obtain ⟨mid, hrun, hpass, hahead⟩ := hp c hc
  exact ⟨mid, bind_of_failed hrun f, hpass, hahead⟩

/-- What is rejected behind words that were read. -/
theorem behind {p : Parser α} {f : α → Parser β} (hp : Reads p ws (ws' ++ rest) post)
    (hf : ∀ a, post a → Rejects (f a) ws' rest kind detail) :
    Rejects (p >>= f) (ws ++ ws') rest kind detail := by
  intro c hc
  rw [List.append_assoc] at hc
  obtain ⟨a, next, hrun, ha, hnext, hahead⟩ := hp c hc
  obtain ⟨mid, hrun', hmid, hahead'⟩ := hf a ha next hahead
  exact ⟨mid, (bind_of_done hrun f).trans hrun', hnext.trans hmid, hahead'⟩

/-! ### Looking -/

/-- What is seen ahead does not matter if each way on rejects. -/
theorem look_bind {view : Cursor → α} {f : α → Parser β}
    (hf : ∀ a, Rejects (f a) ws rest kind detail) :
    Rejects (look view >>= f) ws rest kind detail :=
  fun c hc => hf (view c) c hc

/-- A test that the words ahead pass. -/
theorem test_true {view : Cursor → Bool} {p q : Parser β}
    (hview : ∀ c : Cursor, c.Ahead (ws ++ rest) → view c = true)
    (hp : Rejects p ws rest kind detail) :
    Rejects (look view >>= fun yes => if yes = true then p else q) ws rest kind detail := by
  intro c hc
  rw [test_of_true (hview c hc)]
  exact hp c hc

/-- A test that the words ahead do not pass. -/
theorem test_false {view : Cursor → Bool} {p q : Parser β}
    (hview : ∀ c : Cursor, c.Ahead (ws ++ rest) → view c = false)
    (hq : Rejects q ws rest kind detail) :
    Rejects (look view >>= fun yes => if yes = true then p else q) ws rest kind detail := by
  intro c hc
  rw [test_of_not (ne_true_of_eq_false (hview c hc))]
  exact hq c hc

section Kinds

variable {w : Word} {k : Token.Kind}

theorem nextIs_true {p q : Parser β} (hw : w.kind = k) (hp : Rejects p (w :: ws) rest kind detail) :
    Rejects (nextIs k >>= fun yes => if yes = true then p else q) (w :: ws) rest kind detail :=
  test_true (fun _ hc => (hc.hasKind_eq 0 k).trans (decide_eq_true hw)) hp

theorem nextIs_false {p q : Parser β} (hkind : ∀ w ∈ (ws ++ rest).head?, w.kind ≠ k)
    (hq : Rejects q ws rest kind detail) :
    Rejects (nextIs k >>= fun yes => if yes = true then p else q) ws rest kind detail :=
  test_false (fun _ hc => hc.hasKind_zero_eq_false hkind) hq

/-! ### Taking -/

/-- A word is taken before the rejection. -/
theorem advance_bind {f : Token → Parser β} (hf : ∀ t, Rejects (f t) ws rest kind detail) :
    Rejects (advance >>= f) (w :: ws) rest kind detail := by
  intro c hc
  obtain ⟨l, ls, hrest, -, -, hpass, hahead⟩ := Cursor.Ahead.exists_took hc
  obtain ⟨mid, hrun, hmid, hahead'⟩ := hf l.token (c.took l ls) hahead
  exact ⟨mid, (bind_of_done (advance_of_rest hrest) f).trans hrun, hpass.trans hmid, hahead'⟩

/-- A mark that is not the first word is left alone. -/
theorem eat_false {f : Bool → Parser β} (hkind : ∀ w ∈ (ws ++ rest).head?, w.kind ≠ k)
    (hf : Rejects (f false) ws rest kind detail) : Rejects (eat k >>= f) ws rest kind detail := by
  rw [Parser.eat_bind]
  exact nextIs_false hkind hf

protected theorem expect_bind {spelling : String} {f : Token → Parser β} (hw : w.kind = k)
    (hf : ∀ t, Rejects (f t) ws rest kind detail) :
    Rejects (expect k spelling >>= f) (w :: ws) rest kind detail := by
  rw [Parser.expect_bind]
  exact nextIs_true hw (advance_bind hf)

/-- A token of another kind stands where one is expected. -/
theorem expect {spelling : String} (hkind : ∀ w ∈ rest.head?, w.kind ≠ k) :
    Rejects (expect k spelling) [] rest .expectedToken (some spelling) :=
  nextIs_false hkind .reject

end Kinds

/-- Something else stands where a word is expected. -/
theorem expectWord {word : String} (hword : ∀ w ∈ rest.head?, w ≠ ⟨.identifier, word⟩) :
    Rejects (expectWord word) [] rest .expectedToken (some word) :=
  test_false (fun _ hc => hc.isWord_zero_eq_false hword) .reject

/-- A level is closed again before the failure is passed on. -/
protected theorem nesting {p : Parser α} (hp : Rejects p ws rest kind detail) :
    Rejects (nesting none p) ws rest kind detail := by
  intro c hc
  obtain ⟨mid, hrun, hpass, hahead⟩ := hp c.entered hc
  refine ⟨mid.left, ?_, ⟨hpass.comments, hpass.diagnostics, hpass.lastReport⟩, hahead⟩
  rw [← Cursor.left_report]
  unfold Parser.nesting
  rw [hrun]
  rfl

end Rejects

end Parser

end Reifier
