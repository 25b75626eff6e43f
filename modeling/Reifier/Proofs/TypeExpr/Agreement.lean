import Reifier.Proofs.Parser.Agreement
import Reifier.TypeExpr.Parser

/-!
# Type expressions read under two limits

Each production agrees with itself when the parsers for the type expressions inside it do. Most of
them take a lexeme before they read a type expression; these need the inner parsers only for cursors
with fewer lexemes left, which is what lets as many knots as there are lexemes suffice
(`agrees_nested`).
-/

namespace Reifier.TypeExpr

open Reifier.Parser (Agrees EndsAhead lt_length_of_hasKind le_length_of_or le_length_of_left
  le_length_of_right)

variable {may : Prop} {least most : ℕ} {type type' : Parser TypeExpr}

/-! ### Names and arguments -/

/-- Reading an identifier takes a lexeme, and so what follows needs to agree on fewer of them. -/
private theorem agrees_identifier_bind {α : Type} {f g : Identifier → Parser α}
    (hf : ∀ i, ∀ m < most, Agrees may least m (f i) (g i)) :
    Agrees may (least + 1) most (identifier >>= f) (identifier >>= g) := by
  have hbind : ∀ f : Identifier → Parser α, (identifier >>= f) =
      Parser.nextIs .identifier >>= fun yes =>
        if yes = true then Parser.advance >>= fun token => f ⟨token.text, token.span⟩
        else Parser.reject .expectedIdentifier none := by
    intro f
    simp only [identifier, bind_assoc]
    congr 1
    funext yes
    cases yes <;> simp [Parser.reject_bind]
  rw [hbind f, hbind g]
  refine .look_bind _ fun yes => ?_
  cases yes with
  | true => exact .advance_bind fun _ => hf _
  | false => exact .reject _ _

theorem agrees_identifier : Agrees may least most identifier identifier :=
  .test lt_length_of_hasKind (.bind .advance fun _ => .pure _) (.reject _ _)

theorem agrees_qualifiedName : Agrees may 0 most qualifiedName qualifiedName := by
  refine .bind agrees_identifier fun _ => .bind ?_ fun _ => .pure _
  refine .rounds_of_step' fun m _ ih => .test (le_length_of_left lt_length_of_hasKind) ?_ (.pure _)
  exact .advance_bind fun _ k hk =>
    .bind agrees_identifier fun _ => .bind (ih k hk) fun _ => .pure _

private theorem agrees_typeArgs (h : ∀ m < most, Agrees may 0 m type type') :
    Agrees may 0 most (typeArgs type) (typeArgs type') :=
  .expect_bind fun _ m hm => .bind (h m hm).items fun _ => .bind (.expect _ _) fun _ => .pure _

theorem agrees_generic (h : ∀ m < most, Agrees may 0 m type type') :
    Agrees may 0 most (generic type) (generic type') := by
  refine .bind agrees_qualifiedName fun _ => .look_bind _ fun args => ?_
  cases args with
  | true => exact .bind (agrees_typeArgs h) fun _ => .pure _
  | false => exact .pure _

theorem agrees_variance : Agrees may 0 most variance variance :=
  .test (le_length_of_or lt_length_of_hasKind lt_length_of_hasKind)
    (.bind .advance fun _ => .pure _) (.pure _)

private theorem agrees_typeParam (h : Agrees may 0 most type type') :
    Agrees may 0 most (typeParam type) (typeParam type') :=
  .look_bind _ fun _ => .bind agrees_variance fun _ => .bind agrees_identifier fun _ =>
    .bind h.after? fun _ => .bind h.after? fun _ => .look_bind _ fun _ => .pure _

theorem agrees_typeParams (h : ∀ m < most, Agrees may 0 m type type') :
    Agrees may 0 most (typeParams type) (typeParams type') :=
  .expect_bind fun _ m hm =>
    .bind (agrees_typeParam (h m hm)).items fun _ => .bind (.expect _ _) fun _ => .pure _

/-! ### Functions -/

private theorem identifier_of_hasKind {c : Cursor} (h : c.hasKind 0 .identifier = true) {l : Lexeme}
    {ls : List Lexeme} (hrest : c.rest = l :: ls) :
    identifier c = .done ⟨l.token.text, l.token.span⟩ (c.took l ls) := by
  rw [identifier, Parser.nextIs, Parser.test_of_true h,
    Parser.bind_of_done (Parser.advance_of_rest hrest)]
  rfl

/-- Between a parameter's name and its colon stands at most a question mark. -/
private theorem eat_question_of_colon {c : Cursor}
    (h : c.hasKind 0 .colon = true ∨ c.hasKind 0 .question = true ∧ c.hasKind 1 .colon = true) :
    ∃ optional next, Parser.eat .question c = .done optional next ∧ c.Reaches next ∧
      next.hasKind 0 .colon = true := by
  rcases h with hcolon | ⟨hquestion, hcolon⟩
  · refine ⟨false, c, Parser.eat_of_not fun hquestion => ?_, .refl c, hcolon⟩
    exact absurd (Cursor.hasKind_inj hcolon hquestion) (by decide)
  · obtain ⟨l, ls, hrest, -⟩ := Cursor.hasKind_zero_iff.mp hquestion
    refine ⟨true, _, Parser.eat_of_hasKind hquestion hrest, .take hrest, ?_⟩
    rwa [Cursor.hasKind_took hrest]

/-- What a parameter with a name begins with is taken without a look at its type. -/
private theorem param_of_named {c : Cursor} (h : namedParamAhead c 0 = true) :
    ∃ name optional next, c.Reaches next ∧ next.rest.length < c.rest.length ∧
      ∀ type : Parser TypeExpr,
        param type c = (type >>= fun t => pure ⟨some name, t, optional⟩) next := by
  have hview : (fun c => namedParamAhead c 0) c = true := h
  rw [namedParamAhead, Bool.and_eq_true, Bool.or_eq_true, Bool.and_eq_true] at h
  obtain ⟨hname, hafter⟩ := h
  obtain ⟨l, ls, hrest, -⟩ := Cursor.hasKind_zero_iff.mp hname
  simp only [← Cursor.hasKind_took hrest] at hafter
  obtain ⟨optional, mid, heat, hmid, hcolon⟩ := eat_question_of_colon hafter
  obtain ⟨l', ls', hrest', -⟩ := Cursor.hasKind_zero_iff.mp hcolon
  refine ⟨⟨l.token.text, l.token.span⟩, optional, mid.took l' ls',
    (Cursor.Reaches.take hrest).trans (hmid.trans (.take hrest')), ?_, fun type => ?_⟩
  · have hmid' := hmid.length_le
    rw [hrest'] at hmid'
    rw [hrest]
    exact (Nat.lt_of_succ_le hmid').trans (Nat.lt_succ_self _)
  · rw [param, Parser.test_of_true hview,
      Parser.bind_of_done (identifier_of_hasKind hname hrest), Parser.bind_of_done heat,
      Parser.bind_of_done (Parser.advance_of_rest hrest')]

/-- The limit makes no difference to a parameter if it makes none to its type. -/
private theorem agrees_param (h : Agrees may 0 most type type') :
    Agrees may 0 most (param type) (param type') := by
  intro c _ hmost
  by_cases hnamed : namedParamAhead c 0 = true
  · obtain ⟨name, optional, next, hreach, hlt, hparam⟩ := param_of_named hnamed
    rw [hparam type, hparam type']
    have hrest : Agrees may 0 most
        (type >>= fun t => pure (⟨some name, t, optional⟩ : Param TypeExpr))
        (type' >>= fun t => pure ⟨some name, t, optional⟩) := .bind h fun _ => .pure _
    exact .of_reaches hreach (hrest next (Nat.zero_le _) (hlt.le.trans hmost))
  · have hrest : Agrees may 0 most (type >>= fun t => pure (⟨none, t, false⟩ : Param TypeExpr))
        (type' >>= fun t => pure ⟨none, t, false⟩) := .bind h fun _ => .pure _
    rw [param, param, Parser.test_of_not hnamed, Parser.test_of_not hnamed]
    exact hrest c (Nat.zero_le _) hmost

/-- The parameters are read behind a parenthesis, and so their types are read from fewer lexemes. -/
private theorem agrees_params (h : ∀ m < most, Agrees may 0 m type type') :
    Agrees may 0 most (params type) (params type') := by
  refine .expect_bind fun _ n hn => .bind ?_ fun _ => .bind (.expect _ _) fun _ => .pure _
  refine .rounds_of_step' fun m hm ih => .look_bind _ fun closes => ?_
  cases closes with
  | true => exact .pure _
  | false =>
    have hparam : ∀ k ≤ m, Agrees may 0 k (param type) (param type') := fun k hk =>
      agrees_param (h k (hk.trans_lt (hm.trans_lt hn)))
    refine .eat_bind (fun k hk => ?_) ?_
    · exact .bind (hparam k hk.le) fun _ => .bind (.eat _) fun _ => .pure _
    · refine .bind (hparam m le_rfl) fun _ => .eat_bind (fun k hk => ?_) (.pure _)
      exact .bind (ih k hk) fun _ => .pure _

private theorem agrees_function (h : ∀ m < most, Agrees may 0 m type type') (separator : Token.Kind)
    (spelling : String) :
    Agrees may 0 most (function type separator spelling) (function type' separator spelling) :=
  .bind (agrees_params h) fun _ => .expect_bind fun _ m hm => .bind (h m hm) fun _ => .pure _

/-- What stands in parentheses is read from fewer lexemes than the parentheses are. -/
private theorem agrees_parenthesized (h : ∀ m < most, Agrees may 0 m type type') :
    Agrees may 1 most (parenthesized type) (parenthesized type') := by
  refine .look_bind _ fun start => .look_bind _ fun params => ?_
  cases params with
  | true =>
    exact .ahead <| .bind (agrees_function h _ _) fun _ => .look_bind _ fun _ => .pure _
  | false =>
    refine .advance_bind fun _ m hm => .bind (h m hm) fun _ => .expect_bind fun _ k hk => ?_
    refine .eat_bind (fun j hj => ?_) (.look_bind _ fun _ => .pure _)
    exact .bind (h j (hj.trans (hk.trans hm))) fun _ => .look_bind _ fun _ => .pure _

/-! ### Object types -/

theorem agrees_indexerName : Agrees may 0 most indexerName indexerName := by
  refine .test (le_length_of_right lt_length_of_hasKind) ?_ (.pure _)
  exact agrees_identifier_bind fun _ _ _ => .bind .advance fun _ => .pure _

private theorem agrees_indexer (h : ∀ m < most, Agrees may 0 m type type') (start : ℕ) :
    Agrees may 1 most (indexer type start) (indexer type' start) := by
  refine .advance_bind fun _ m hm => .bind agrees_indexerName fun _ => .bind (h m hm) fun _ => ?_
  refine .bind (.expect _ _) fun _ => .bind (.expect _ _) fun _ => .bind (h m hm) fun _ => ?_
  exact .look_bind _ fun _ => .pure _

theorem agrees_propertyKey : Agrees may 0 most propertyKey propertyKey := by
  refine .look_bind _ fun name => ?_
  cases name with
  | true => exact .bind agrees_identifier fun _ => .pure _
  | false => exact .test lt_length_of_hasKind (.bind .advance fun _ => .pure _) (.reject _ _)

private theorem agrees_method (h : ∀ m < most, Agrees may 0 m type type') :
    Agrees may 0 most (method type) (method type') := by
  refine .look_bind _ fun _ => .sometimes (agrees_typeParams h) ?_
  exact .bind (agrees_function h _ _) fun _ => .look_bind _ fun _ => .pure _

private theorem agrees_property (h : ∀ m < most, Agrees may 0 m type type') (start : ℕ) :
    Agrees may 0 most (property type start) (property type' start) := by
  refine .bind agrees_propertyKey fun _ => .look_bind _ fun isMethod => ?_
  cases isMethod with
  | true => exact .bind (agrees_method h) fun _ => .look_bind _ fun _ => .pure _
  | false =>
    refine .bind (.eat _) fun _ => .expect_bind fun _ m hm => .bind (h m hm) fun _ => ?_
    exact .look_bind _ fun _ => .pure _

private theorem agrees_member (h : ∀ m < most, Agrees may 0 m type type') :
    Agrees may 0 most (member type) (member type') := by
  refine .look_bind _ fun start => .bind agrees_variance fun _ => ?_
  refine .test lt_length_of_hasKind (.reject _ _) ?_
  refine .test (le_length_of_or lt_length_of_hasKind lt_length_of_hasKind) (.reject _ _) ?_
  refine .test lt_length_of_hasKind ?_ ?_
  · exact .bind (agrees_indexer h start) fun _ => .pure _
  · exact .bind (agrees_property h start) fun _ => .pure _

/-- The members of an object type are read up to a lexeme that closes it. -/
private theorem endsAhead_membersLoop (type : Parser TypeExpr) (exact : Bool) (close : Token.Kind)
    (spelling : String) (n : ℕ) : EndsAhead (membersLoop type exact close spelling n) := by
  induction n with
  | zero =>
    intro c next a h
    cases h
  | succ n ih =>
    refine .test_pure lt_length_of_hasKind (.bind fun ended => ?_)
    cases ended with
    | true => exact .reject _ _
    | false =>
      refine .bind fun add => .bind fun separated => ?_
      cases separated with
      | true => exact .bind fun _ => .bind_pure ih _
      | false =>
        refine .test_pure lt_length_of_hasKind (.bind fun ended => ?_)
        cases ended with
        | true => exact .reject _ _
        | false => exact .reject _ _

/-- The loop over members agrees if their types do. Each round takes a lexeme. -/
private theorem agrees_membersLoop (h : ∀ m < most, Agrees may 0 m type type') (exact : Bool)
    (close : Token.Kind) (spelling : String) :
    Agrees may 0 most (Parser.rounds (membersLoop type exact close spelling))
      (Parser.rounds (membersLoop type' exact close spelling)) := by
  refine .rounds_of_step' fun m hm ih => .test lt_length_of_hasKind (.pure _) ?_
  refine .atEnd_bind (.reject _ _) (.ahead ?_)
  refine .bind (agrees_member fun k hk => h k (hk.trans_le hm)) fun add => ?_
  refine .test (le_length_of_or lt_length_of_hasKind lt_length_of_hasKind) ?_ ?_
  · exact .advance_bind fun _ k hk => .bind (ih k hk) fun _ => .pure _
  · refine .test lt_length_of_hasKind (.pure _) ?_
    exact .atEnd_bind (.reject _ _) (.reject _ _)

/-- An object type takes a brace before its members are read. -/
theorem agrees_objectType (h : ∀ m < most, Agrees may 0 m type type') :
    Agrees may 1 most (objectType type) (objectType type') := by
  refine .advance_bind fun opening m hm => ?_
  have hlast : ∀ object : ObjectType TypeExpr, Agrees may 1 m
      (do
        let _ ← Parser.advance
        return (object, ← Parser.spanFrom opening.span.start))
      (do
        let _ ← Parser.advance
        return (object, ← Parser.spanFrom opening.span.start)) := fun _ =>
    .bind .advance fun _ => .look_bind _ fun _ => .pure _
  have hmembers := fun exact close spelling =>
    agrees_membersLoop (fun k hk => h k (hk.trans hm)) exact close spelling
  dsimp only
  split
  · exact .bind_of_le (hmembers _ _ _) (fun c => endsAhead_membersLoop _ _ _ _ _ c) hlast
  · exact .bind_of_le (hmembers _ _ _) (fun c => endsAhead_membersLoop _ _ _ _ _ c) hlast

/-! ### Primary forms -/

/-- A named form takes its name before its arguments are read. -/
private theorem agrees_named (h : ∀ m < most, Agrees may 0 m type type') :
    Agrees may 1 most (named type) (named type') := by
  refine .look_bind _ fun word => .test (le_length_of_right lt_length_of_hasKind) ?_ ?_
  · exact .advance_bind fun _ _ _ => .ahead (.bind agrees_qualifiedName fun _ => .pure _)
  · split
    · exact .bind .advance fun _ => .pure _
    · cases Keyword.ofSpelling? word with
      | some keyword => exact .bind .advance fun _ => .pure _
      | none => exact .ahead (.bind (agrees_generic h) fun _ => .pure _)

private theorem agrees_tuple (h : ∀ m < most, Agrees may 0 m type type') :
    Agrees may 1 most (tuple type) (tuple type') :=
  .advance_bind fun _ m hm => .bind (h m hm).items fun _ => .bind (.expect _ _) fun _ => .pure _

/-- **A primary form takes a lexeme before any type expression in it is read.** The cases are the
kinds of the next token. -/
private theorem agrees_primaryShape (h : ∀ m < most, Agrees may 0 m type type') :
    Agrees may 0 most (primaryShape type) (primaryShape type') := by
  refine .nextKind_bind (.reject _ _) fun kind => ?_
  cases kind with
  | identifier => exact agrees_named h
  | string => exact .bind .advance fun _ => .pure _
  | number => exact .bind .advance fun _ => .pure _
  | minus =>
    refine .test lt_length_of_hasKind ?_ (.reject _ _)
    exact .advance_bind fun _ _ _ => .bind .advance fun _ => .pure _
  | bigInt => exact .bind .advance fun _ => .pure _
  | star => exact .bind .advance fun _ => .pure _
  | braceOpen => exact .bind (agrees_objectType h) fun _ => .pure _
  | braceBarOpen => exact .bind (agrees_objectType h) fun _ => .pure _
  | bracketOpen => exact agrees_tuple h
  | less => exact .ahead (.bind (agrees_typeParams h) fun _ => agrees_function h _ _)
  | unexpected => exact .look_bind _ fun _ => .reject _ _
  | _ => exact .reject _ _

private theorem agrees_primary (h : ∀ m < most, Agrees may 0 m type type') :
    Agrees may 0 most (primary type) (primary type') := by
  refine .test lt_length_of_hasKind (agrees_parenthesized h) (.look_bind _ fun _ => ?_)
  exact .bind (agrees_primaryShape h) fun _ => .look_bind _ fun _ => .pure _

/-! ### Operators -/

/-- The brackets behind a type expression are opened before the index is read. -/
private theorem agrees_bracketed (h : ∀ m < most, Agrees may 0 m type type') :
    Agrees may 0 most (bracketed type) (bracketed type') := by
  refine .look_bind _ fun start => .bind (agrees_primary h) fun t => ?_
  refine .rounds_of_step (fun m hm ih t => ?_) t
  refine .test (le_length_of_left lt_length_of_hasKind) (.advance_bind fun _ k hk => ?_) (.pure _)
  refine .eat_bind (fun j hj => .look_bind _ fun _ => ih j (hj.trans hk) _) ?_
  refine .bind (h k (hk.trans_le hm)) fun _ => .bind (.expect _ _) fun _ => .look_bind _ fun _ => ?_
  exact ih k hk _

variable {inside inside' : Nested}

theorem agrees_operand (hwhole : ∀ m < most, Agrees may 0 m inside.whole inside'.whole)
    (hoperand : ∀ m < most, Agrees may 0 m inside.operand inside'.operand) :
    Agrees may 0 most (operand inside) (operand inside') := by
  refine .test lt_length_of_hasKind (.advance_bind fun _ m hm => ?_) (agrees_bracketed hwhole)
  exact .bind (hoperand m hm) fun _ => .look_bind _ fun _ => .pure _

/-- The limit makes no difference to a list with an operator if it makes none to the parts. -/
private theorem agrees_joined {part part' : Parser TypeExpr} (h : Agrees may 0 most part part')
    (operator : Token.Kind) (shape : List TypeExpr → Shape TypeExpr) :
    Agrees may 0 most (joined operator shape part) (joined operator shape part') := by
  refine .look_bind _ fun start => .bind (.eat _) fun _ => .bind h fun first => ?_
  refine .bind (.operands fun m hm => h.anti le_rfl hm.le) fun more => ?_
  split
  · exact .pure _
  · exact .look_bind _ fun _ => .pure _

private theorem agrees_union (hwhole : ∀ m < most, Agrees may 0 m inside.whole inside'.whole)
    (hoperand : ∀ m < most, Agrees may 0 m inside.operand inside'.operand) :
    Agrees may 0 most (union inside) (union inside') :=
  agrees_joined (agrees_joined (agrees_operand hwhole hoperand) _ _) _ _

/-- **Under a higher limit type expressions are read as under a lower one**, wherever there are
fewer lexemes left than knots are tied. How many knots there are beyond that does not matter. -/
theorem agrees_nested {limit limit' : Option ℕ} (hmay : limit ≠ none → may)
    (hle : ∀ d, limit'.any (· ≤ d) = true → limit.any (· ≤ d) = true) {n n' : ℕ} (hmost : most < n)
    (hmost' : most < n') :
    Agrees may 0 most (nested limit n).whole (nested limit' n').whole ∧
      Agrees may 0 most (nested limit n).operand (nested limit' n').operand := by
  induction n generalizing most n' with
  | zero => exact absurd hmost (Nat.not_lt_zero _)
  | succ n ih =>
    obtain ⟨n', rfl⟩ : ∃ k, n' = k + 1 :=
      Nat.exists_eq_add_one_of_ne_zero (Nat.ne_zero_of_lt hmost')
    -- A production is only asked to read further in when a lexeme has been taken, so what is
    -- inside agrees with one knot less.
    have hinside := fun m (hm : m < most) =>
      ih (hm.trans_le (Nat.le_of_lt_succ hmost)) (hm.trans_le (Nat.le_of_lt_succ hmost'))
    have hwhole := fun m hm => (hinside m hm).1
    have hoperand := fun m hm => (hinside m hm).2
    exact ⟨.nesting hmay hle (agrees_union hwhole hoperand),
      .nesting hmay hle (agrees_operand hwhole hoperand)⟩

/-! ### Without a limit -/

/-- Parsers for type expressions without a limit, with as many knots as are needed. -/
def unlimited : Nested where
  whole c := (nested none (c.rest.length + 1)).whole c
  operand c := (nested none (c.rest.length + 1)).operand c

/-- Without a limit on the nesting, as many levels as there are lexemes ahead are enough. -/
theorem agrees_unlimited {n : ℕ} (hmost : most < n) :
    Agrees False 0 most (nested none n).whole unlimited.whole ∧
      Agrees False 0 most (nested none n).operand unlimited.operand := by
  have hnested := fun m (hm : m < n) =>
    agrees_nested (fun h : (none : Option ℕ) ≠ none => h rfl) (fun _ => id) hm (Nat.lt_succ_self m)
  constructor
  · intro c hleast hc
    exact (hnested c.rest.length (hc.trans_lt hmost)).1 c hleast le_rfl
  · intro c hleast hc
    exact (hnested c.rest.length (hc.trans_lt hmost)).2 c hleast le_rfl

/-- The knot is tied: what is inside a type expression is read by the same parsers. -/
theorem unlimited_whole : unlimited.whole = Parser.nesting none (union unlimited) := by
  funext c
  have hinside := fun m (hm : m < c.rest.length) => agrees_unlimited hm
  -- The knots of `unlimited` at `c` are one more than at any cursor further on, which is as good.
  have hunion := agrees_union (fun m hm => (hinside m hm).1) fun m hm => (hinside m hm).2
  have hnesting := hunion.nesting (fun h : (none : Option ℕ) ≠ none => h rfl) (fun _ => id)
  exact ((hnesting c (Nat.zero_le _) le_rfl).eq).symm

theorem unlimited_operand : unlimited.operand = Parser.nesting none (operand unlimited) := by
  funext c
  have hinside := fun m (hm : m < c.rest.length) => agrees_unlimited hm
  have hoperand := agrees_operand (fun m hm => (hinside m hm).1) fun m hm => (hinside m hm).2
  have hnesting := hoperand.nesting (fun h : (none : Option ℕ) ≠ none => h rfl) (fun _ => id)
  exact ((hnesting c (Nat.zero_le _) le_rfl).eq).symm

end Reifier.TypeExpr
