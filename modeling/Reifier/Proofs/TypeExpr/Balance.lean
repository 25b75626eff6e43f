import Reifier.Proofs.Parser.Balance
import Reifier.Proofs.TypeExpr.Simulation

/-!
# The brackets of a type expression

Each production leaves the same brackets open when the parsers for the type expressions inside it
do: those that it opens it also closes, each with the one that fits it (`TypeExpr.turns_nested`).
What an angle bracket or a bar stands for is no bracket.

In a type expression no identifier stands directly behind another one, except behind `typeof`. So
none stands behind one of some words, if `typeof` is not among them.
-/

namespace Reifier.TypeExpr

open Reifier.Parser (Triple Turns TurnsWhere)

variable {α : Type} {words : List String} {opened left : List Token.Kind} {behindWord : Bool}
  {type : Parser TypeExpr}

/-! ### Names and arguments -/

theorem turns_identifier : Turns words ⟨opened, false⟩ ⟨opened, true⟩ identifier :=
  .test (.take_name_bind (fun _ => id) fun _ => .pure _) (.reject _ _)

/-- What is read as an identifier is the next token. -/
theorem identifier_eq_done {c next : Cursor} {id : Identifier} (h : identifier c = .done id next) :
    ∃ l ls, c.rest = l :: ls ∧ id = ⟨l.token.text, l.token.span⟩ ∧ next = c.took l ls := by
  rw [identifier, Parser.nextIs] at h
  by_cases hkind : c.hasKind 0 .identifier = true
  · rw [Parser.test_of_true hkind] at h
    obtain ⟨l, ls, hrest, hdone⟩ := Parser.Takes.exists_took h
    cases hdone
    exact ⟨l, ls, hrest, rfl, rfl⟩
  · rw [Parser.test_of_not hkind] at h
    cases h

/-- An identifier, behind which something is known to stand ahead. -/
private theorem triple_identifier {c₀ : Cursor} {view ahead : Cursor → Prop}
    (hahead : ∀ c l ls, view c → c.rest = l :: ls → ahead (c.took l ls)) :
    Triple (fun c => c₀.Walked words ⟨opened, false⟩ c ∧ view c) identifier
      (fun _ c => c₀.Walked words ⟨opened, true⟩ c ∧ ahead c) (c₀.Stopped words) := by
  intro c hc
  have hname := turns_identifier c₀ c hc.1
  cases hread : identifier c with
  | done id next =>
    rw [hread] at hname
    obtain ⟨l, ls, hrest, -, rfl⟩ := identifier_eq_done hread
    exact ⟨hname, hahead c l ls hc.2 hrest⟩
  | failed next =>
    rw [hread] at hname
    exact hname
  | halted cause next => trivial

/-- A qualified name is taken word by word, each with a mark in front of it. -/
private theorem turns_qualifiedName : Turns words ⟨opened, false⟩ ⟨opened, true⟩ qualifiedName := by
  have hsegments : ∀ n, Turns words ⟨opened, true⟩ ⟨opened, true⟩ (segmentsLoop n) := by
    intro n
    induction n with
    | zero => exact .halt _
    | succ n ih =>
      refine .test (.take_mark_bind .dot (fun c hc => (Bool.and_eq_true_iff.mp hc).1) (by decide)
        fun _ => ?_) (.pure _)
      exact turns_identifier.bind fun _ => ih.bind fun _ => .pure _
  exact turns_identifier.bind fun _ => (Turns.rounds hsegments).bind fun _ => .pure _

section

variable (h : ∀ opened, Turns words ⟨opened, false⟩ ⟨opened, true⟩ type)
include h

private theorem turns_typeArgs : Turns words ⟨opened, behindWord⟩ ⟨opened, false⟩ (typeArgs type) :=
  .expect_mark_bind (by decide) fun _ => (Turns.items h).bind fun _ =>
    .expect_mark_bind (by decide) fun _ => .pure _

theorem turns_generic : Turns words ⟨opened, false⟩ ⟨opened, true⟩ (generic type) :=
  turns_qualifiedName.bind fun _ =>
    .choose ((turns_typeArgs h).loosen.bind fun _ => .pure _) (.pure _)

omit h in
/-- A sign of variance is taken if it stands ahead. -/
private theorem turns_variance : Turns words ⟨opened, false⟩ ⟨opened, false⟩ variance := by
  refine .test (fun c₀ => ?_) (.pure _)
  have htake : ∀ c l ls, c₀.Walked words ⟨opened, false⟩ c ∧
      (c.hasKind 0 .plus || c.hasKind 0 .minus) = true → c.rest = l :: ls →
      c₀.Walked words ⟨opened, false⟩ (c.took l ls) := by
    intro c l ls hc hrest
    refine hc.1.took_mark hrest ?_
    rcases Cursor.kind_of_hasKind_or hc.2 hrest with hkind | hkind <;> rw [hkind] <;> decide
  exact .advance_bind htake fun _ => .pure fun _ => id

private theorem turns_typeParam : Turns words ⟨opened, false⟩ ⟨opened, true⟩ (typeParam type) :=
  .look_bind fun _ => turns_variance.bind fun _ => turns_identifier.bind fun _ =>
    (Turns.after? h (by decide)).bind fun _ => (Turns.after? h (by decide)).bind fun _ =>
      .look_bind fun _ => .pure _

theorem turns_typeParams : Turns words ⟨opened, behindWord⟩ ⟨opened, false⟩ (typeParams type) :=
  .expect_mark_bind (by decide) fun _ => (Turns.items fun _ => turns_typeParam h).bind fun _ =>
    .expect_mark_bind (by decide) fun _ => .pure _

/-! ### Functions -/

omit h in
/-- Between a parameter's name and its colon stands at most a question mark. -/
theorem triple_eat_question (c₀ : Cursor) :
    Triple (fun c => c₀.Walked words ⟨opened, true⟩ c ∧ ColonAhead c) (Parser.eat .question)
      (fun _ c => c₀.Walked words ⟨opened, true⟩ c ∧ c.hasKind 0 .colon = true)
      (c₀.Stopped words) := by
  intro c hc
  rcases hc.2 with hcolon | ⟨hquestion, hcolon⟩
  · have hno : ¬ c.hasKind 0 .question = true := fun hquestion =>
      absurd (Cursor.hasKind_inj hcolon hquestion) (by decide)
    rw [Parser.eat_of_not hno]
    exact ⟨hc.1, hcolon⟩
  · obtain ⟨l, ls, hrest, -⟩ := Cursor.hasKind_zero_iff.mp hquestion
    rw [Parser.eat_of_hasKind hquestion hrest]
    have hmark : l.token.kind.IsMark := by
      rw [Cursor.kind_of_hasKind hquestion hrest]
      decide
    exact ⟨(hc.1.took_mark hrest hmark).loosen true, by rwa [Cursor.hasKind_took hrest]⟩

/-- A parameter leaves the brackets as they are and ends where its type does. -/
private theorem turns_param : Turns words ⟨opened, false⟩ ⟨opened, true⟩ (param type) := by
  refine .test (fun c₀ => ?_) ((h _).bind fun _ => .pure _)
  have hname : Triple
      (fun c => c₀.Walked words ⟨opened, false⟩ c ∧ namedParamAhead c 0 = true) identifier
      (fun _ c => c₀.Walked words ⟨opened, true⟩ c ∧ ColonAhead c) (c₀.Stopped words) := by
    refine triple_identifier fun c l ls hnamed hrest => ?_
    rw [namedParamAhead, Bool.and_eq_true, Bool.or_eq_true, Bool.and_eq_true] at hnamed
    simp only [ColonAhead, Cursor.hasKind_took hrest]
    exact hnamed.2
  refine .bind hname fun _ => .bind (triple_eat_question c₀) fun _ => ?_
  exact TurnsWhere.take_mark_bind .colon (fun _ => id) (by decide)
    (fun _ => (h _).bind fun _ => .pure _) c₀

/-- Parameters are taken with their parentheses, which are closed when they are done. -/
private theorem turns_params : Turns words ⟨opened, behindWord⟩ ⟨opened, false⟩ (params type) := by
  have hloop : ∀ opened n,
      Turns words ⟨opened, false⟩ ⟨opened, true⟩ (paramsLoop type n) := by
    intro opened n
    induction n with
    | zero => exact .halt _
    | succ n ih =>
      have hparam : Turns words ⟨opened, false⟩ ⟨opened, true⟩ (param type) := turns_param h
      refine .choose (.loosen (.pure _)) (.eat_mark_bind (by decide) ?_ ?_)
      · exact hparam.bind fun _ => .eat_any_bind (by decide) fun _ => .pure _
      · exact hparam.bind fun _ =>
          .eat_mark_bind (by decide) (ih.bind fun _ => .pure _) (.pure _)
  exact .expect_open_bind rfl fun _ => (Turns.rounds (hloop _)).bind fun _ =>
    .expect_close_bind (by decide) fun _ => .pure _

private theorem turns_function {separator : Token.Kind} (hmark : separator.IsMark)
    (spelling : String) :
    Turns words ⟨opened, behindWord⟩ ⟨opened, true⟩ (function type separator spelling) :=
  (turns_params h).bind fun _ => .expect_mark_bind hmark fun _ => (h _).bind fun _ => .pure _

/-- What stands in parentheses is taken with them, be it the parameters of a function or a group. -/
private theorem turns_parenthesized :
    TurnsWhere words (·.hasKind 0 .parenOpen = true) ⟨opened, behindWord⟩ ⟨opened, true⟩
      (parenthesized type) := by
  have hfunction : ∀ start, Turns words ⟨opened, behindWord⟩ ⟨opened, true⟩ (do
      let shape ← function type .arrow "=>"
      return (⟨shape, ← Parser.spanFrom start⟩ : TypeExpr)) := fun _ =>
    (turns_function h (by decide) _).bind fun _ => .look_bind fun _ => .pure _
  refine .look_bind fun start => .look_bind fun yes => ?_
  cases yes with
  | true => exact (hfunction start).toWhere _
  | false =>
    refine .take_open_bind .parenOpen (fun c hc => hc.1.1) rfl fun _ => (h _).bind fun inner => ?_
    refine .expect_close_bind (by decide) fun _ => .eat_mark_bind (by decide) ?_ ?_
    · exact (h _).bind fun _ => .look_bind fun _ => .pure _
    · exact .loosen (.look_bind fun _ => .pure _)

/-! ### Object types -/

omit h in
/-- The name of an indexer is taken with its colon, or nothing is. -/
private theorem turns_indexerName : Turns words ⟨opened, false⟩ ⟨opened, false⟩ indexerName := by
  refine .test (fun c₀ => ?_) (.pure _)
  have hname : Triple
      (fun c => c₀.Walked words ⟨opened, false⟩ c ∧
        (c.hasKind 0 .identifier && c.hasKind 1 .colon) = true) identifier
      (fun _ c => c₀.Walked words ⟨opened, true⟩ c ∧ c.hasKind 0 .colon = true)
      (c₀.Stopped words) := by
    refine triple_identifier fun c l ls hnamed hrest => ?_
    rw [Cursor.hasKind_took hrest]
    exact (Bool.and_eq_true_iff.mp hnamed).2
  refine .bind hname fun _ => ?_
  exact TurnsWhere.take_mark_bind .colon (fun _ => id) (by decide) (fun _ => .pure _) c₀

private theorem turns_indexer (start : ℕ) :
    TurnsWhere words (·.hasKind 0 .bracketOpen = true) ⟨opened, behindWord⟩ ⟨opened, true⟩
      (indexer type start) :=
  .take_open_bind .bracketOpen (fun _ => id) rfl fun _ =>
    turns_indexerName.bind fun _ => (h _).bind fun _ => .expect_close_bind (by decide) fun _ =>
      .expect_mark_bind (by decide) fun _ => (h _).bind fun _ => .look_bind fun _ => .pure _

omit h in
private theorem turns_propertyKey : Turns words ⟨opened, false⟩ ⟨opened, true⟩ propertyKey := by
  refine .choose (turns_identifier.bind fun _ => .pure _) (.test ?_ (.reject _ _))
  exact .take_mark_bind .string (fun _ => id) (by decide) fun _ => .loosen (.pure _)

/-- A method is taken up to its result. -/
private theorem turns_method : Turns words ⟨opened, behindWord⟩ ⟨opened, true⟩ (method type) := by
  have hrest : ∀ behindWord start, Turns words ⟨opened, behindWord⟩ ⟨opened, true⟩ (do
      let shape ← function type .colon ":"
      return (⟨shape, ← Parser.spanFrom start⟩ : TypeExpr)) := fun _ _ =>
    (turns_function h (by decide) _).bind fun _ => .look_bind fun _ => .pure _
  exact .look_bind fun start =>
    .choose ((turns_typeParams h).bind fun _ => hrest _ start) (hrest _ start)

private theorem turns_property (start : ℕ) :
    Turns words ⟨opened, false⟩ ⟨opened, true⟩ (property type start) := by
  refine turns_propertyKey.bind fun _ => .choose ?_ ?_
  · exact (turns_method h).bind fun _ => .look_bind fun _ => .pure _
  · exact .eat_any_bind (by decide) fun _ => .expect_mark_bind (by decide) fun _ =>
      (h _).bind fun _ => .look_bind fun _ => .pure _

private theorem turns_member : Turns words ⟨opened, false⟩ ⟨opened, true⟩ (member type) := by
  refine .look_bind fun start => turns_variance.bind fun _ => .choose (.reject _ _) ?_
  refine .choose (.reject _ _) (.test ?_ ?_)
  · exact (turns_indexer h start).bind fun _ => .pure _
  · exact (turns_property h start).bind fun _ => .pure _

/-- The members of an object type are read up to its closing brace. -/
theorem triple_membersLoop (c₀ : Cursor) (exact : Bool) (close : Token.Kind) (spelling : String) :
    Triple (c₀.Walked words ⟨opened, false⟩)
      (Parser.rounds (membersLoop type exact close spelling))
      (fun _ c => c₀.Walked words ⟨opened, true⟩ c ∧ c.hasKind 0 close = true)
      (c₀.Stopped words) := by
  have hreject : ∀ (s : Standing) (kind : Diagnostic.Kind) (detail : Option String),
      Triple (c₀.Walked words s) (Parser.reject kind detail : Parser (ObjectType TypeExpr))
        (fun _ c => c₀.Walked words ⟨opened, true⟩ c ∧ c.hasKind 0 close = true)
        (c₀.Stopped words) := fun _ kind detail => .reject fun _ hc => hc.stopped kind detail
  refine .rounds fun n => ?_
  induction n with
  | zero => exact .halt _
  | succ n ih =>
    refine .test (.pure fun _ hc => ⟨hc.1.loosen true, hc.2⟩) (.test (fun c hc => ?_) ?_)
    · exact hreject _ _ _ c hc.1
    refine .bind (turns_member h c₀) fun add => .test ?_ ?_
    · have htake : ∀ c l ls, c₀.Walked words ⟨opened, true⟩ c ∧
          (c.hasKind 0 .comma || c.hasKind 0 .semicolon) = true → c.rest = l :: ls →
          c₀.Walked words ⟨opened, false⟩ (c.took l ls) := by
        intro c l ls hc hrest
        refine hc.1.took_mark hrest ?_
        rcases Cursor.kind_of_hasKind_or hc.2 hrest with hkind | hkind <;> rw [hkind] <;> decide
      exact .advance_bind htake fun _ => .bind ih fun _ => .pure fun _ => id
    · refine .test (.pure fun _ => id) (.test (fun c hc => ?_) (hreject _ _ _))
      exact hreject _ _ _ c hc.1

/-- **An object type is taken with its braces.** They are opened and closed by the same kinds of
tokens; the members between them leave the brackets as they are, as the induction on the rounds of
the loop shows. -/
theorem turns_objectType :
    TurnsWhere words (fun c => (c.hasKind 0 .braceOpen || c.hasKind 0 .braceBarOpen) = true)
      ⟨opened, behindWord⟩ ⟨opened, false⟩ (objectType type) := by
  intro c₀
  -- The brace that has been opened is the one that is closed.
  have hbody : ∀ (exact : Bool) (close : Token.Kind) (spelling : String) (start : ℕ),
      close ≠ .identifier → Triple (c₀.Walked words ⟨close :: opened, false⟩)
        (do
          let object ← Parser.rounds (membersLoop type exact close spelling)
          let _ ← Parser.advance
          return (object, ← Parser.spanFrom start))
        (fun _ => c₀.Walked words ⟨opened, false⟩) (c₀.Stopped words) :=
    fun exact close spelling start hname =>
      .bind (triple_membersLoop h c₀ exact close spelling) fun _ =>
        TurnsWhere.take_close_bind close (fun _ => id) hname
          (fun _ => .look_bind fun _ => .pure _) c₀
  have hopening : Triple (fun c => c₀.Walked words ⟨opened, behindWord⟩ c ∧
        (c.hasKind 0 .braceOpen || c.hasKind 0 .braceBarOpen) = true) Parser.advance
      (fun t => c₀.Walked words
        ⟨(if t.kind = .braceBarOpen then .barBraceClose else .braceClose) :: opened, false⟩)
      (c₀.Stopped words) := by
    intro c hc
    cases hrest : c.rest with
    | nil => simp [Cursor.hasKind, hrest] at hc
    | cons l ls =>
      rw [Parser.advance_of_rest hrest]
      refine hc.1.took hrest fun ts hts => ?_
      have hkind := Cursor.kind_of_hasKind_or hc.2 hrest
      have hname : l.token.kind ≠ .identifier := by
        rcases hkind with hkind | hkind <;> rw [hkind] <;> decide
      refine hts.take (fun kinds hkinds => ?_) (fun _ => hname)
        fun _ => Token.isOneOf_of_ne hname
      rcases hkind with hkind | hkind <;> rw [hkind] <;> exact hkinds.enter rfl
  refine .bind hopening fun t => ?_
  by_cases hbar : t.kind = .braceBarOpen
  · simp only [hbar, if_true]
    exact hbody _ _ _ _ (by decide)
  · simp only [hbar, if_false]
    exact hbody _ _ _ _ (by decide)

/-! ### Primary forms -/

private theorem turns_tuple :
    TurnsWhere words (·.hasKind 0 .bracketOpen = true) ⟨opened, behindWord⟩ ⟨opened, false⟩
      (tuple type) :=
  .take_open_bind .bracketOpen (fun _ => id) rfl fun _ => (Turns.items h).bind fun _ =>
    .expect_close_bind (by decide) fun _ => .pure _

omit h in
/-- A minus sign and the number behind it. -/
private theorem turns_negative :
    TurnsWhere words (·.hasKind 0 .minus = true) ⟨opened, behindWord⟩ ⟨opened, false⟩ (do
      if ← Parser.look (·.hasKind 1 .number) then
        let _ ← Parser.advance
        return (Shape.number ("-" ++ (← Parser.advance).text) : Shape TypeExpr)
      else Parser.reject .expectedType none) := by
  intro c₀
  have htake : ∀ c l ls, (c₀.Walked words ⟨opened, behindWord⟩ c ∧ c.hasKind 0 .minus = true) ∧
      c.hasKind 1 .number = true → c.rest = l :: ls →
      c₀.Walked words ⟨opened, false⟩ (c.took l ls) ∧ (c.took l ls).hasKind 0 .number = true := by
    refine fun c l ls hc hrest => ⟨hc.1.1.took_mark hrest ?_, ?_⟩
    · rw [Cursor.kind_of_hasKind hc.1.2 hrest]
      decide
    · rw [Cursor.hasKind_took hrest]
      exact hc.2
  have hnumber : TurnsWhere words (·.hasKind 0 .number = true) ⟨opened, false⟩ ⟨opened, false⟩
      (do return (Shape.number ("-" ++ (← Parser.advance).text) : Shape TypeExpr)) :=
    .take_mark_bind .number (fun _ => id) (by decide) fun _ => .pure _
  exact .test (.advance_bind htake fun _ => hnumber c₀) (.reject fun _ hc => hc.1.stopped _ _)

variable (hwords : "typeof" ∉ words)
include hwords

/-- A named form is taken up to its last word or bracket. -/
private theorem turns_named :
    TurnsWhere words (·.hasKind 0 .identifier = true) ⟨opened, false⟩ ⟨opened, true⟩
      (named type) := by
  have hname : ∀ shape : Shape TypeExpr,
      TurnsWhere words (·.hasKind 0 .identifier = true) ⟨opened, false⟩ ⟨opened, true⟩
        (do let _ ← Parser.advance; return shape) := fun _ =>
    .take_name_bind (fun _ => id) fun _ => .pure _
  refine .look_bind fun word => .look_bind fun typeOf => ?_
  cases typeOf with
  | true =>
    exact .take_word_bind hwords (fun c hc => (Bool.and_eq_true_iff.mp hc.2).1) fun _ =>
      turns_qualifiedName.bind fun _ => .pure _
  | false =>
    rw [if_neg Bool.false_ne_true]
    split
    · exact (hname _).anti fun c hc => hc.1.1
    · cases Keyword.ofSpelling? word with
      | some keyword => exact (hname _).anti fun c hc => hc.1.1
      | none => exact ((turns_generic h).bind fun _ => .pure _).toWhere _

/-- A primary form is taken up to its last word or bracket. The cases are the kinds of the next
token. -/
private theorem turns_primaryShape :
    Turns words ⟨opened, false⟩ ⟨opened, true⟩ (primaryShape type) := by
  have htake : ∀ (kind : Token.Kind) (make : Token → Shape TypeExpr), kind.IsMark →
      TurnsWhere words (·.hasKind 0 kind = true) ⟨opened, false⟩ ⟨opened, true⟩
        (do return make (← Parser.advance)) := fun kind _ hmark =>
    .take_mark_bind kind (fun _ => id) hmark fun _ => .loosen (.pure _)
  have hobject : ∀ kind ∈ [Token.Kind.braceOpen, .braceBarOpen],
      TurnsWhere words (·.hasKind 0 kind = true) ⟨opened, false⟩ ⟨opened, true⟩
        (do return (Shape.object (← objectType type).1 : Shape TypeExpr)) := by
    refine fun kind hkind =>
      ((turns_objectType h).anti fun c hc => ?_).bind fun _ => .loosen (.pure _)
    rcases List.mem_pair.mp hkind with rfl | rfl
    · exact Bool.or_eq_true_iff.mpr (.inl hc)
    · exact Bool.or_eq_true_iff.mpr (.inr hc)
  refine .nextKind_bind (.reject _ _) fun kind => ?_
  cases kind with
  | identifier => exact turns_named h hwords
  | string => exact htake .string (fun t => .string (Text.unquote t.text)) (by decide)
  | number => exact htake .number (fun t => .number t.text) (by decide)
  | minus => exact TurnsWhere.loosen turns_negative
  | bigInt => exact htake .bigInt (fun t => .bigInt t.text) (by decide)
  | star => exact htake .star (fun _ => .keyword .existential) (by decide)
  | braceOpen => exact hobject _ (by decide)
  | braceBarOpen => exact hobject _ (by decide)
  | bracketOpen => exact TurnsWhere.loosen (turns_tuple h)
  | less =>
    exact ((turns_typeParams h).bind fun _ => turns_function h (by decide) _).toWhere _
  | unexpected => exact (Turns.look_bind fun _ => .reject _ _).toWhere _
  | _ => exact (Turns.reject _ _).toWhere _

private theorem turns_primary : Turns words ⟨opened, false⟩ ⟨opened, true⟩ (primary type) :=
  .test (turns_parenthesized h) (.look_bind fun _ => (turns_primaryShape h hwords).bind fun _ =>
    .look_bind fun _ => .pure _)

/-! ### Operators -/

/-- Brackets behind a type expression are taken in pairs. -/
private theorem turns_bracketed : Turns words ⟨opened, false⟩ ⟨opened, true⟩ (bracketed type) := by
  have hloop : ∀ start n t,
      Turns words ⟨opened, true⟩ ⟨opened, true⟩ (bracketsLoop type start n t) := by
    intro start n
    induction n with
    | zero => exact fun _ => .halt _
    | succ n ih =>
      refine fun t => .test (.take_open_bind .bracketOpen
        (fun c hc => (Bool.and_eq_true_iff.mp hc).1) rfl fun _ => ?_) (.pure _)
      rw [Parser.eat_bind]
      refine .test (.take_close_bind .bracketClose (fun _ => id) (by decide) fun _ =>
        .look_bind fun _ => (ih _).tighten) ?_
      exact (h _).bind fun _ => .expect_close_bind (by decide) fun _ =>
        .look_bind fun _ => (ih _).tighten
  exact .look_bind fun start => (turns_primary h hwords).bind fun t =>
    .rounds fun n => hloop start n t

omit h hwords in
/-- A list with an operator is taken with the marks between its parts. -/
private theorem turns_joined {part : Parser TypeExpr}
    (hpart : ∀ opened, Turns words ⟨opened, false⟩ ⟨opened, true⟩ part)
    {operator : Token.Kind} (hmark : operator.IsMark)
    (shape : List TypeExpr → Shape TypeExpr) :
    Turns words ⟨opened, false⟩ ⟨opened, true⟩ (joined operator shape part) := by
  refine .look_bind fun _ => .eat_mark_bind hmark ?_ ?_ <;>
  · refine (hpart _).bind fun _ => (Turns.operands hpart hmark).bind fun more => ?_
    split
    · exact .pure _
    · exact .look_bind fun _ => .pure _

end

variable {inside : Nested}

private theorem turns_operand (hwords : "typeof" ∉ words)
    (hwhole : ∀ opened, Turns words ⟨opened, false⟩ ⟨opened, true⟩ inside.whole)
    (hoperand : ∀ opened, Turns words ⟨opened, false⟩ ⟨opened, true⟩ inside.operand) :
    Turns words ⟨opened, false⟩ ⟨opened, true⟩ (operand inside) := by
  refine .test (.take_mark_bind .question (fun _ => id) (by decide) fun _ => ?_)
    (turns_bracketed hwhole hwords)
  exact (hoperand _).bind fun _ => .look_bind fun _ => .pure _

/-- **A type expression leaves the brackets open that were open before**, under any limit. -/
theorem turns_nested (hwords : "typeof" ∉ words) (limit : Option ℕ) (knots : ℕ) :
    (∀ opened, Turns words ⟨opened, false⟩ ⟨opened, true⟩ (nested limit knots).whole) ∧
      ∀ opened, Turns words ⟨opened, false⟩ ⟨opened, true⟩ (nested limit knots).operand := by
  induction knots with
  | zero => exact ⟨fun _ => .halt _, fun _ => .halt _⟩
  | succ knots ih =>
    have hoperand : ∀ opened,
        Turns words ⟨opened, false⟩ ⟨opened, true⟩ (operand (nested limit knots)) := fun _ =>
      turns_operand hwords ih.1 ih.2
    have hintersection : ∀ opened, Turns words ⟨opened, false⟩ ⟨opened, true⟩
        (joined .ampersand .intersection (operand (nested limit knots))) := fun _ =>
      turns_joined hoperand (by decide) _
    have hunion : ∀ opened,
        Turns words ⟨opened, false⟩ ⟨opened, true⟩ (union (nested limit knots)) := fun _ =>
      turns_joined hintersection (by decide) _
    exact ⟨fun _ => (hunion _).nesting limit, fun _ => (hoperand _).nesting limit⟩

end Reifier.TypeExpr
