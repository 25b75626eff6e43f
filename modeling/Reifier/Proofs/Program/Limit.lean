import Reifier.Proofs.Program.Agreement

/-!
# The limit on nesting

Limits are ordered like the numbers they are, and no limit is above all of them. A limit only
decides whether a program is read to its end. If it is, what is read and what is reported are the
same under every higher limit (`parse_of_limitLe`); without a limit every source is read
(`exists_parse_none`).

The levels of nesting that are open are counted per type expression: whatever becomes of one, as
many are open after it as before it. So no declaration is charged for the ones before it.
-/

namespace Reifier

/-! ### Reading on after failures -/

/-- A parser that is done or halted, but never fails. -/
def Parser.NeverFails {α : Type} (p : Parser α) : Prop := ∀ c next : Cursor, p c ≠ .failed next

namespace Parser.NeverFails

variable {α β : Type}

protected theorem pure (a : α) : NeverFails (pure a : Parser α) := by
  intro c next h
  cases h

protected theorem halt (cause : Halt) : NeverFails (halt cause : Parser α) := by
  intro c next h
  cases h

protected theorem advance : NeverFails advance := by
  intro c next h
  unfold Parser.advance at h
  split at h <;> cases h

protected theorem recover (p : Parser α) : NeverFails (recover p) := by
  intro c next h
  unfold Parser.recover at h
  split at h <;> cases h

protected theorem attempt (p : Parser α) : NeverFails (attempt p) := by
  intro c next h
  unfold Parser.attempt at h
  split at h <;> cases h

/-- A parser and what follows on it do not fail if neither does. -/
protected theorem bind {p : Parser α} {f : α → Parser β} (hp : NeverFails p)
    (hf : ∀ a, NeverFails (f a)) : NeverFails (p >>= f) := by
  intro c next h
  cases hpc : p c with
  | done a mid =>
    rw [bind_of_done hpc] at h
    exact hf a mid next h
  | failed mid => exact hp c mid hpc
  | halted cause mid =>
    rw [bind_of_halted hpc] at h
    cases h

theorem look_bind {view : Cursor → α} {f : α → Parser β} (hf : ∀ a, NeverFails (f a)) :
    NeverFails (look view >>= f) :=
  fun c next => hf (view c) c next

theorem settle_bind {f : List CommentId → Parser β} (hf : ∀ ids, NeverFails (f ids)) :
    NeverFails (settle >>= f) :=
  fun c next => hf _ c.settled next

end Parser.NeverFails

namespace Program

open Reifier.TypeExpr
open Reifier.Parser (Agrees NeverFails)

/-- Skipping never fails. The induction is on the rounds; it halts when these are used up. -/
private theorem neverFails_skipLoop (n depth : ℕ) : NeverFails (skipLoop n depth) := by
  induction n generalizing depth with
  | zero => exact .halt _
  | succ n ih =>
    refine .look_bind fun ended => ?_
    cases ended with
    | true => exact .pure _
    | false =>
      refine .bind .advance fun token => .look_bind fun last => ?_
      cases last with
      | true => exact .pure _
      | false => exact ih _

/-- What is wrong with a statement does not keep the rest from being read. -/
theorem neverFails_bodyLoop (type : Parser TypeExpr) (n : ℕ) : NeverFails (bodyLoop type n) := by
  induction n with
  | zero => exact .halt _
  | succ n ih =>
    refine .look_bind fun ended => ?_
    cases ended with
    | true => exact .pure _
    | false =>
      refine .settle_bind fun comments => .bind (.recover _) fun read => ?_
      cases read with
      | some stmt => exact .bind ih fun _ => .pure _
      | none => exact .bind (fun c next => neverFails_skipLoop _ _ c next) fun _ => ih

/-! ### Limits -/

/-- A limit allows no more than another one; no limit allows the most. -/
def LimitLe : Option ℕ → Option ℕ → Prop
  | _, none => True
  | none, some _ => False
  | some m, some n => m ≤ n

protected theorem LimitLe.refl (limit : Option ℕ) : LimitLe limit limit := by
  cases limit with
  | none => trivial
  | some n => exact le_refl n

/-- What is too deep for the higher limit is too deep for the lower one. -/
private theorem LimitLe.any_of_any {m n : Option ℕ} (h : LimitLe m n) (d : ℕ)
    (hd : n.any (· ≤ d) = true) : m.any (· ≤ d) = true := by
  match m, n, h with
  | _, none, _ => exact absurd hd (by simp)
  | some m, some n, h =>
    rw [Option.any_some, decide_eq_true_eq] at hd ⊢
    exact le_trans h hd

section Source

variable {limit : Option ℕ} {source : String} {lexemes : List Lexeme} {after : Trivia} {c : Cursor}

/-- What a source is parsed to when its statements have been read. -/
theorem parse_of_done {stmts : List (Item Statement)}
    (hlexemes : Lexeme.ofTokens (Token.scan source) = (lexemes, after))
    (hread : statements limit lexemes (startCursor (Text.byteLength source.toList) lexemes) =
      .done stmts c) :
    parse limit source = .ok
      { program :=
          { comments := c.comments ++ after.comments
            body := stmts
            trailing := List.range' c.comments.length after.comments.length
            names := NameSet.ofList
              (((Token.scan source).filter (·.kind = .identifier)).map Token.text) }
        diagnostics := c.diagnostics } := by
  unfold parse
  simp only [hlexemes, hread]

theorem parse_of_halted {cause : Halt}
    (hlexemes : Lexeme.ofTokens (Token.scan source) = (lexemes, after))
    (hread : statements limit lexemes (startCursor (Text.byteLength source.toList) lexemes) =
      .halted cause c) :
    parse limit source = .error cause := by
  unfold parse
  simp only [hlexemes, hread]

end Source

/-- What reading a source comes to, if it comes to an end. -/
theorem exists_program_of_parse {limit : Option ℕ} {source : String} {reading : Reading}
    (h : parse limit source = .ok reading) :
    ∃ lexemes after body next, Lexeme.ofTokens (Token.scan source) = (lexemes, after) ∧
      statements limit lexemes (startCursor (Text.byteLength source.toList) lexemes) =
        .done body next ∧
      reading.program =
        { comments := next.comments ++ after.comments
          body := body
          trailing := List.range' next.comments.length after.comments.length
          names := NameSet.ofList
            (((Token.scan source).filter (·.kind = .identifier)).map Token.text) } := by
  obtain ⟨⟨lexemes, after⟩, hlexemes⟩ : ∃ all, Lexeme.ofTokens (Token.scan source) = all := ⟨_, rfl⟩
  unfold parse at h
  simp only [hlexemes] at h
  split at h
  · rename_i body next hread
    cases h
    exact ⟨lexemes, after, body, next, hlexemes, hread, rfl⟩
  · cases h
  · cases h

theorem exists_done_of_parse {limit : Option ℕ} {source : String} {reading : Reading}
    (h : parse limit source = .ok reading) :
    ∃ lexemes after body next, Lexeme.ofTokens (Token.scan source) = (lexemes, after) ∧
      statements limit lexemes (startCursor (Text.byteLength source.toList) lexemes) =
        .done body next ∧ reading.program.body = body := by
  obtain ⟨lexemes, after, body, next, hlexemes, hread, hprogram⟩ := exists_program_of_parse h
  exact ⟨lexemes, after, body, next, hlexemes, hread, by rw [hprogram]⟩

/-- The statements of a source agree under two limits. -/
theorem agrees_statements {m n : Option ℕ} (h : LimitLe m n) (lexemes : List Lexeme) :
    Agrees (m ≠ none) 0 lexemes.length (statements m lexemes) (statements n lexemes) :=
  agrees_body fun _ hk => by
    have hknots := hk.trans (Nat.lt_succ_self _)
    exact (agrees_nested id h.any_of_any hknots hknots).1

/-- A limit that stops reading is the only reason for reading to stop, and what is read otherwise
does not depend on it. -/
theorem parse_cases {m n : Option ℕ} (h : LimitLe m n) (source : String) :
    (m ≠ none ∧ parse m source = .error .tooDeep) ∨
      ∃ reading, parse m source = .ok reading ∧ parse n source = .ok reading := by
  obtain ⟨⟨lexemes, after⟩, hlexemes⟩ : ∃ all, Lexeme.ofTokens (Token.scan source) = all := ⟨_, rfl⟩
  -- Both runs begin at the same cursor, and neither of them fails.
  let start := startCursor (Text.byteLength source.toList) lexemes
  have hagrees := agrees_statements h lexemes start (Nat.zero_le _) le_rfl
  cases hread : statements m lexemes start with
  | done stmts c =>
    rw [hread] at hagrees
    exact .inr ⟨_, parse_of_done hlexemes hread, parse_of_done hlexemes hagrees.1⟩
  | failed c => exact absurd hread (neverFails_bodyLoop _ _ start c)
  | halted cause c =>
    rw [hread] at hagrees
    obtain ⟨⟨rfl, hm⟩, -⟩ := hagrees
    exact .inl ⟨hm, parse_of_halted hlexemes hread⟩

/-- Without a limit every source is read. -/
theorem exists_parse_none (source : String) : ∃ reading, parse none source = .ok reading := by
  have hle : LimitLe none none := trivial
  rcases parse_cases hle source with ⟨hnone, -⟩ | ⟨reading, hreading, -⟩
  · exact absurd rfl hnone
  · exact ⟨reading, hreading⟩

/-! ### Levels that are open -/

/-- Recovery touches no level. -/
private theorem reaches_recover {α : Type} {p : Parser α} {c : Cursor}
    (h : c.Reaches (p c).cursor) : c.Reaches (Parser.recover p c).cursor := by
  unfold Parser.recover
  cases hp : p c with
  | _ =>
    rw [hp] at h
    exact h

/-- Going back touches no level, and none is left to be closed. -/
private theorem reaches_attempt {α : Type} {p : Parser α} {c : Cursor}
    (h : c.Reaches (p c).cursor) : c.Reaches (Parser.attempt p c).cursor := by
  unfold Parser.attempt
  cases hp : p c with
  | failed next =>
    rw [hp] at h
    exact .rewind h
  | _ =>
    rw [hp] at h
    exact h

/-- What reads with `inside` leaves as many levels open as there were. -/
structure KeepsDepth (inside : Nested) (c : Cursor) : Prop where
  whole : (inside.whole c).cursor.depth = c.depth
  nullable : (inside.operand c).cursor.depth = c.depth
  operand : (operand inside c).cursor.depth = c.depth
  nestedDeclaration : 0 < c.rest.length →
    (Parser.attempt (declaration inside.whole) c).cursor.depth = c.depth
  statement : 0 < c.rest.length →
    (Parser.recover (statement inside.whole) c).cursor.depth = c.depth

/-- **Every production leaves as many levels open as there were,** also where it fails, and whatever
the limit. This follows from its agreement with itself, by which it reaches where it stops. -/
private theorem keepsDepth_nested (limit : Option ℕ) {knots : ℕ} (c : Cursor)
    (hc : c.rest.length < knots) : KeepsDepth (nested limit knots) c := by
  have hwhole := fun k (hk : k < knots) =>
    (agrees_nested (fun hlimit : limit ≠ none => hlimit) (fun _ => id) hk hk).1
  have hoperand := fun k (hk : k < knots) =>
    (agrees_nested (fun hlimit : limit ≠ none => hlimit) (fun _ => id) hk hk).2
  have hbelow := fun k (hk : k < c.rest.length) => hwhole k (hk.trans hc)
  constructor
  · exact (hwhole _ hc c (Nat.zero_le _) le_rfl).reaches.depth_eq
  · exact (hoperand _ hc c (Nat.zero_le _) le_rfl).reaches.depth_eq
  · have hagrees := agrees_operand hbelow fun k hk => hoperand k (hk.trans hc)
    exact (hagrees c (Nat.zero_le _) le_rfl).reaches.depth_eq
  · intro hpos
    exact (reaches_attempt ((agrees_declaration hbelow).agrees c hpos le_rfl).reaches).depth_eq
  · intro hpos
    exact (reaches_recover ((agrees_statement hbelow).agrees c hpos le_rfl).reaches).depth_eq

/-- **The limit decides whether a source is read, and nothing else.** What is read under a limit is
read under every higher one; what a limit stops is stopped by every lower one. Levels are counted
apart for each type expression and each statement, also for declarations that are only tried. -/
theorem parse_of_limitLe {m n : Option ℕ} (h : LimitLe m n) (source : String) :
    (parse m source = .error .tooDeep ∨
      ∃ reading, parse m source = .ok reading ∧ parse n source = .ok reading) ∧
    (parse n source = .error .tooDeep → parse m source = .error .tooDeep) ∧
    ∀ (knots : ℕ) (c : Cursor), c.rest.length < knots → KeepsDepth (nested m knots) c := by
  have hcases := parse_cases h source
  refine ⟨?_, fun hdeep => ?_, fun _ c hc => keepsDepth_nested m c hc⟩
  · exact hcases.imp_left And.right
  · rcases hcases with ⟨-, hstop⟩ | ⟨reading, -, hreading⟩
    · exact hstop
    · rw [hreading] at hdeep
      cases hdeep

/-- A question mark opens a second level, so neither one level nor none is enough here. -/
theorem parse_of_limitLe_zero_one :
    LimitLe (some 0) (some 1) ∧ parse (some 1) "type A = ?B;" = .error .tooDeep ∧
      parse (some 0) "type A = ?B;" = .error .tooDeep ∧
      KeepsDepth (nested (some 0) 1) (startCursor 0 []) := by
  have hle : LimitLe (some 0) (some 1) := Nat.le_succ 0
  have hone : parse (some 1) "type A = ?B;" = .error .tooDeep := by rfl
  obtain ⟨-, hzero, hdepth⟩ := parse_of_limitLe hle "type A = ?B;"
  exact ⟨hle, hone, hzero hone, hdepth 1 (startCursor 0 []) Nat.zero_lt_one⟩

end Program

end Reifier
