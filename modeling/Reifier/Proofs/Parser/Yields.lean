import Reifier.Proofs.Parser.Keeps

/-!
# What parsers come to

`p.Yields depth post` says of a parser that is run with `depth` levels open: if it is done, then
with a value that satisfies `post`, and whether it is done or has failed, as many levels are open as
before. So what holds of a value may depend on how many levels were left to it.

A run closes every level that it opens, so that `depth` levels are open is a property that lasts,
and the rules are those of `Keeps`. Only reading one level further in is special.
-/

namespace Reifier.Parser

variable {α : Type}

/-- Every move leaves as many levels open as there were. -/
instance lasting_depth (depth : ℕ) : Cursor.Lasting fun c => c.depth = depth where
  reaches hc h := h.depth_eq.trans hc
  back _ hnext := hnext

/-- What the parser is done with satisfies `post`, if `depth` levels are open when it begins. -/
def Yields (depth : ℕ) (post : α → Prop) (p : Parser α) : Prop :=
  Keeps (fun c => c.depth = depth) post p

namespace Yields

variable {depth : ℕ} {post : α → Prop} {p : Parser α}

protected theorem rounds {loop : ℕ → Parser α} (h : ∀ n, Yields depth post (loop n)) :
    Yields depth post (rounds loop) :=
  Keeps.rounds h

/-- One level further in, unless there is none left. -/
protected theorem nesting {limit : Option ℕ}
    (hp : limit.any (· ≤ depth) = false → Yields (depth + 1) post p) :
    Yields depth post (nesting limit p) := by
  cases hlimit : limit.any (· ≤ depth) with
  | true =>
    intro c hc
    have hhalt : Parser.nesting limit p c = .halted .tooDeep c := by
      rw [Parser.nesting, hc, hlimit]
      rfl
    rw [hhalt]
    trivial
  | false =>
    have hinside : ∀ c : Cursor, c.depth = depth → c.entered.depth = depth + 1 := fun c hc =>
      congrArg (· + 1) hc
    have hleft : ∀ c : Cursor, c.depth = depth + 1 → c.left.depth = depth := fun c hc =>
      (congrArg (· - 1) hc).trans (Nat.add_sub_cancel depth 1)
    have hrun : Triple (fun c => c.depth = depth + 1) p
        (fun a c => post a ∧ c.left.depth = depth) fun c => c.left.depth = depth :=
      Triple.mono (hp hlimit) (fun _ => id) (fun a c hc => ⟨hc.1, hleft c hc.2⟩) hleft
    exact Triple.nesting (fun c hc _ => hinside c hc) hrun

end Yields

end Reifier.Parser
