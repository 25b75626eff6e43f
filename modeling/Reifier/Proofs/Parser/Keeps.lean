import Reifier.Proofs.Parser.Triple

/-!
# What holds of the cursor throughout

Some properties of a cursor outlast every move of a parser, also going back after a failed attempt
(`Cursor.Lasting`). `p.Keeps inv post` says of a parser that is run from a cursor with such a
property `inv`: if it is done, then with a value that satisfies `post`, and `inv` holds where it
stops.

The rules follow the combinators. A parser that agrees with itself makes nothing but moves, so
nothing more has to be said of those whose values do not matter (`Keeps.any`).
-/

namespace Reifier

/-- A property of a cursor that every move leaves true. -/
class Cursor.Lasting (inv : Cursor → Prop) : Prop where
  reaches {c d : Cursor} : inv c → c.Reaches d → inv d
  back {c next : Cursor} : inv c → inv next →
    inv { next with rest := c.rest, comments := c.comments }

namespace Parser

open Cursor (Lasting)

variable {α β : Type}

/-- What the parser is done with satisfies `post`, and `inv` holds of the cursor at the end if it
does at the beginning. -/
def Keeps (inv : Cursor → Prop) (post : α → Prop) (p : Parser α) : Prop :=
  Triple inv p (fun a c => post a ∧ inv c) inv

namespace Keeps

variable {inv : Cursor → Prop} {post : α → Prop} {post' : β → Prop} {p : Parser α}

/-! ### Sequence -/

protected theorem pure {a : α} (h : post a) : Keeps inv post (pure a : Parser α) :=
  Triple.pure fun _ hc => ⟨h, hc⟩

/-- A sequence keeps what both parts keep; the second part may use what holds of the result of the
first. -/
protected theorem bind {f : α → Parser β} (hp : Keeps inv post p)
    (hf : ∀ a, post a → Keeps inv post' (f a)) : Keeps inv post' (p >>= f) :=
  Triple.bind hp fun a c hc => hf a hc.1 c hc.2

theorem mono {post' : α → Prop} (h : Keeps inv post p) (hpost : ∀ a, post a → post' a) :
    Keeps inv post' p :=
  Triple.mono h (fun _ => id) (fun a _ hc => ⟨hpost a hc.1, hc.2⟩) fun _ => id

/-! ### Looking -/

theorem look_bind {view : Cursor → α} {f : α → Parser β} (hf : ∀ a, Keeps inv post' (f a)) :
    Keeps inv post' (look view >>= f) :=
  Triple.look_bind fun a c hc => hf a c hc.1

theorem test {view : Cursor → Bool} {a b : Parser β} (ha : Keeps inv post' a)
    (hb : Keeps inv post' b) :
    Keeps inv post' (look view >>= fun yes => if yes = true then a else b) :=
  Triple.test (fun c hc => ha c hc.1) hb

protected theorem halt (cause : Halt) : Keeps inv post (halt cause : Parser α) :=
  Triple.halt cause

protected theorem rounds {loop : ℕ → Parser α} (h : ∀ n, Keeps inv post (loop n)) :
    Keeps inv post (rounds loop) :=
  Triple.rounds h

/-- A recovered parser keeps the invariant on both ways on. -/
theorem recover_bind {f : Option α → Parser β} (hp : Keeps inv post p)
    (hsome : ∀ a, post a → Keeps inv post' (f (some a))) (hnone : Keeps inv post' (f none)) :
    Keeps inv post' (recover p >>= f) :=
  Triple.recover_bind hp (fun a c hc => hsome a hc.1 c hc.2) hnone

/-! ### Moving -/

variable [Lasting inv]

/-- A parser that agrees with itself only moves the cursor. -/
theorem of_agrees {may : Prop} (h : ∀ c, inv c → Agrees may 0 c.rest.length p p) :
    Keeps inv (fun _ => True) p := by
  have hmoves : Triple inv p (fun _ => inv) inv :=
    .of_agrees (fun _ _ => Lasting.reaches) (fun c hc => ⟨hc, Nat.zero_le _, h c hc⟩) fun _ => id
  exact hmoves.mono (fun _ => id) (fun _ _ hc => ⟨trivial, hc⟩) fun _ => id

/-- An invariant that lasts is kept by every parser that only moves ahead. -/
theorem any (h : ∀ most, Agrees False 0 most p p) : Keeps inv (fun _ => True) p :=
  of_agrees fun c _ => h c.rest.length

/-- The value of the first parser does not matter. -/
theorem any_bind {f : α → Parser β} (h : ∀ most, Agrees False 0 most p p)
    (hf : ∀ a, Keeps inv post' (f a)) : Keeps inv post' (p >>= f) :=
  .bind (any h) fun a _ => hf a

protected theorem reject (kind : Diagnostic.Kind) (detail : Option String) :
    Keeps inv post (reject kind detail : Parser α) :=
  Triple.reject fun c hc => Lasting.reaches hc (.report c kind detail)

theorem advance_bind {f : Token → Parser β} (hf : ∀ t, Keeps inv post' (f t)) :
    Keeps inv post' (Parser.advance >>= f) :=
  Triple.advance_bind (fun _ _ _ hc h => Lasting.reaches hc (.take h)) hf

theorem settle_bind {f : List CommentId → Parser β} (hf : ∀ ids, Keeps inv post' (f ids)) :
    Keeps inv post' (settle >>= f) :=
  Triple.settle_bind (fun c hc => Lasting.reaches hc (.settle c)) hf

protected theorem eat_bind {kind : Token.Kind} {f : Bool → Parser β}
    (htrue : Keeps inv post' (f true)) (hfalse : Keeps inv post' (f false)) :
    Keeps inv post' (eat kind >>= f) := by
  rw [Parser.eat_bind]
  exact test (advance_bind fun _ => htrue) hfalse

protected theorem eatWord_bind {word : String} {f : Bool → Parser β}
    (htrue : Keeps inv post' (f true)) (hfalse : Keeps inv post' (f false)) :
    Keeps inv post' (eatWord word >>= f) := by
  rw [Parser.eatWord_bind]
  exact test (advance_bind fun _ => htrue) hfalse

protected theorem expect_bind {kind : Token.Kind} {spelling : String} {f : Token → Parser β}
    (hf : ∀ t, Keeps inv post' (f t)) : Keeps inv post' (expect kind spelling >>= f) := by
  rw [Parser.expect_bind]
  exact test (advance_bind hf) (.reject _ _)

/-- What follows an optional mark is kept if it is there. -/
protected theorem after? {kind : Token.Kind} (hp : Keeps inv post p) :
    Keeps inv (fun a? => ∀ a ∈ a?, post a) (after? kind p) := by
  refine .eat_bind (.bind hp fun a ha => .pure ?_) (.pure ?_)
  · rintro b ⟨⟩
    exact ha
  · rintro b ⟨⟩

/-- What holds of each operand holds of all of them; by induction on the rounds. -/
protected theorem operands {operator : Token.Kind} (hp : Keeps inv post p) :
    Keeps inv (fun as => ∀ a ∈ as, post a) (operands operator p) := by
  refine .rounds fun n => ?_
  induction n with
  | zero => exact .halt _
  | succ n ih =>
    refine .eat_bind (.bind hp fun a ha => .bind ih fun as has => .pure ?_) (.pure ?_)
    · exact List.forall_mem_cons.mpr ⟨ha, has⟩
    · exact List.forall_mem_nil _

/-- What holds of each item holds of all of them; by induction on the rounds. -/
protected theorem items {close : Token.Kind} (hp : Keeps inv post p) :
    Keeps inv (fun as => ∀ a ∈ as, post a) (items close p) := by
  refine .rounds fun n => ?_
  induction n with
  | zero => exact .halt _
  | succ n ih =>
    refine .test (.pure (List.forall_mem_nil _)) (.bind hp fun a ha => .eat_bind ?_ ?_)
    · exact .bind ih fun as has => .pure (List.forall_mem_cons.mpr ⟨ha, has⟩)
    · exact .pure (List.forall_mem_singleton.mpr ha)

protected theorem commaSeparated (hp : Keeps inv post p) :
    Keeps inv (fun as => ∀ a ∈ as, post a) (commaSeparated p) :=
  .bind hp fun _ ha => .bind (.operands hp) fun _ has =>
    .pure (List.forall_mem_cons.mpr ⟨ha, has⟩)

/-- An attempt keeps the invariant, whether it is done or goes back. -/
theorem attempt_bind {f : Option α → Parser β} (hp : Keeps inv post p)
    (hsome : ∀ a, post a → Keeps inv post' (f (some a))) (hnone : Keeps inv post' (f none)) :
    Keeps inv post' (attempt p >>= f) :=
  Triple.attempt_bind hp (fun _ _ hc hnext => Lasting.back hc hnext)
    (fun a c hc => hsome a hc.1 c hc.2) hnone

end Keeps

end Parser

end Reifier
