import Reifier.Proofs.Parser.Yields
import Reifier.Proofs.TypeExpr.Agreement
import Reifier.Proofs.TypeExpr.Paths

/-!
# How deep type expressions are read

Given that the type expressions inside it are at most `n` forms deep, each production reads at most
so many forms more: a primary form and a method in it, an intersection around them, a union around
that. All this happens at one level of nesting, so a limit on levels limits the depth
(`yields_nested`). Question marks open levels of their own; brackets are not counted.
-/

namespace Reifier

/-- The type expressions directly inside a parameter of a declaration. -/
def TypeParam.typeExprs (p : TypeParam) : List TypeExpr := p.bound.toList ++ p.default.toList

namespace TypeExpr

open Reifier.Parser (Yields)

variable {depth n : ℕ} {type : Parser TypeExpr}

/-! ### Names and arguments -/

private theorem yields_typeArgs (h : Yields depth (DepthLe n) type) :
    Yields depth (fun args => ∀ t ∈ args, DepthLe n t) (typeArgs type) :=
  .expect_bind fun _ => .bind h.items fun _ hargs => .expect_bind fun _ => .pure hargs

theorem yields_generic (h : Yields depth (DepthLe n) type) :
    Yields depth (fun g => ∀ t ∈ g.args, DepthLe n t) (generic type) := by
  refine .any_bind (fun _ => agrees_qualifiedName) fun name => .test ?_ ?_
  · exact .bind (yields_typeArgs h) fun args hargs => .pure hargs
  · exact .pure (List.forall_mem_nil _)

/-- Nothing in a type parameter is deeper than the type expressions that are read for it. -/
private theorem yields_typeParam (h : Yields depth (DepthLe n) type) :
    Yields depth (fun p => ∀ t ∈ p.typeExprs, DepthLe n t) (typeParam type) := by
  refine .look_bind fun start => .any_bind (fun _ => agrees_variance) fun _ => ?_
  refine .any_bind (fun _ => agrees_identifier) fun name => ?_
  refine .bind h.after? fun bound hbound => .bind h.after? fun default hdefault => ?_
  refine .look_bind fun span => .pure ?_
  exact List.forall_mem_append.mpr ⟨by simpa using hbound, by simpa using hdefault⟩

theorem yields_typeParams (h : Yields depth (DepthLe n) type) :
    Yields depth (fun ps => ∀ p ∈ ps, ∀ t ∈ p.typeExprs, DepthLe n t) (typeParams type) :=
  .expect_bind fun _ => .bind (yields_typeParam h).items fun _ hps =>
    .expect_bind fun _ => .pure hps

/-! ### Functions -/

private theorem yields_param (h : Yields depth (DepthLe n) type) :
    Yields depth (fun p => DepthLe n p.type) (param type) := by
  refine .test ?_ (.bind h fun t ht => .pure ht)
  refine .any_bind (fun _ => agrees_identifier) fun name => ?_
  refine .eat_bind ?_ ?_
  · exact .advance_bind fun _ => .bind h fun t ht => .pure ht
  · exact .advance_bind fun _ => .bind h fun t ht => .pure ht

/-- Neither a parameter nor the rest parameter is too deep. -/
def ParamsDepthLe (n : ℕ) (all : List (Param TypeExpr) × Option (Param TypeExpr)) : Prop :=
  (∀ p ∈ all.1, DepthLe n p.type) ∧ ∀ p ∈ all.2, DepthLe n p.type

/-- Nothing in a list of parameters is deeper than the type expressions that are read for it. The
induction is on the rounds of the loop. -/
private theorem yields_params (h : Yields depth (DepthLe n) type) :
    Yields depth (ParamsDepthLe n) (params type) := by
  have hloop : ∀ rounds, Yields depth (ParamsDepthLe n) (paramsLoop type rounds) := by
    intro rounds
    induction rounds with
    | zero => exact .halt _
    | succ rounds ih =>
      have hnone : ∀ p ∈ (none : Option (Param TypeExpr)), DepthLe n p.type := by
        rintro p ⟨⟩
      refine .test (.pure ⟨List.forall_mem_nil _, hnone⟩) (.eat_bind ?_ ?_)
      · refine .bind (yields_param h) fun rest hrest => ?_
        refine .any_bind (fun _ => .eat _) fun _ => .pure ⟨List.forall_mem_nil _, ?_⟩
        rintro p ⟨⟩
        exact hrest
      · refine .bind (yields_param h) fun first hfirst => .eat_bind ?_ ?_
        · refine .bind ih fun all hall => .pure ⟨?_, hall.2⟩
          exact List.forall_mem_cons.mpr ⟨hfirst, hall.1⟩
        · exact .pure ⟨List.forall_mem_singleton.mpr hfirst, hnone⟩
  exact .expect_bind fun _ => .bind (.rounds hloop) fun _ hall => .expect_bind fun _ => .pure hall

/-- The parts of a form are at most so deep. -/
def PartsDepthLe (n : ℕ) (shape : Shape TypeExpr) : Prop := ∀ p ∈ shape.parts, DepthLe n p

theorem PartsDepthLe.mono {m : ℕ} {shape : Shape TypeExpr} (h : PartsDepthLe m shape)
    (hle : m ≤ n) : PartsDepthLe n shape := fun p hp => (h p hp).mono hle

private theorem yields_function (h : Yields depth (DepthLe n) type) (separator : Token.Kind)
    (spelling : String) :
    Yields depth (PartsDepthLe n) (function type separator spelling) := by
  refine .bind (yields_params h) fun all hall => .expect_bind fun _ => ?_
  refine .bind h fun result hresult => .pure ?_
  exact Shape.forall_parts_function.mpr ⟨hall.1, hall.2, hresult⟩

/-- Parentheses are one level around what is in them. -/
private theorem yields_parenthesized (h : Yields depth (DepthLe n) type) :
    Yields depth (DepthLe (n + 1)) (parenthesized type) := by
  refine .look_bind fun start => .test ?_ (.advance_bind fun _ => .bind h fun inner hinner => ?_)
  · exact .bind (yields_function h _ _) fun shape hshape => .look_bind fun span =>
      .pure (.form hshape)
  · refine .expect_bind fun _ => .eat_bind (.bind h fun result hresult => ?_) ?_
    · refine .look_bind fun span => .pure (.form (Shape.forall_parts_function.mpr ?_))
      refine ⟨List.forall_mem_singleton.mpr hinner, ?_, hresult⟩
      rintro p ⟨⟩
    · exact .look_bind fun span => .pure ((hinner.respan span).mono (Nat.le_succ n))

/-! ### Object types -/

private theorem yields_indexer (h : Yields depth (DepthLe n) type) (start : ℕ) :
    Yields depth (fun i => DepthLe n i.key ∧ DepthLe n i.value) (indexer type start) := by
  refine .advance_bind fun _ => .any_bind (fun _ => agrees_indexerName) fun id => ?_
  refine .bind h fun key hkey => .expect_bind fun _ => .expect_bind fun _ => ?_
  exact .bind h fun value hvalue => .look_bind fun span => .pure ⟨hkey, hvalue⟩

/-- A method puts a function around what is inside it without opening a level. -/
private theorem yields_method (h : Yields depth (DepthLe n) type) :
    Yields depth (DepthLe (n + 1)) (method type) := by
  have hrest : ∀ start, Yields depth (DepthLe (n + 1)) (do
      let shape ← function type .colon ":"
      return ⟨shape, ← Parser.spanFrom start⟩) := fun start =>
    .bind (yields_function h _ _) fun shape hshape => .look_bind fun span => .pure (.form hshape)
  refine .look_bind fun start => .look_bind fun generic => ?_
  cases generic with
  | true => exact .bind (yields_typeParams h) fun _ _ => hrest start
  | false => exact hrest start

private theorem yields_property (h : Yields depth (DepthLe n) type) (start : ℕ) :
    Yields depth (fun p => DepthLe (n + 1) p.value) (property type start) := by
  refine .any_bind (fun _ => agrees_propertyKey) fun key => .test ?_ ?_
  · exact .bind (yields_method h) fun value hvalue => .look_bind fun span => .pure hvalue
  · refine .any_bind (fun _ => .eat _) fun _ => .expect_bind fun _ => ?_
    exact .bind h fun value hvalue => .look_bind fun span => .pure (hvalue.mono (Nat.le_succ n))

/-- The members of an object type are at most so deep. -/
def MembersDepthLe (n : ℕ) (o : ObjectType TypeExpr) : Prop :=
  (∀ p ∈ o.properties, DepthLe n p.value) ∧ ∀ i ∈ o.indexers, DepthLe n i.key ∧ DepthLe n i.value

/-- A member keeps to the bound, which leaves a level for the function of a method. -/
private theorem yields_member (h : Yields depth (DepthLe n) type) :
    Yields depth (fun add => ∀ o, MembersDepthLe (n + 1) o → MembersDepthLe (n + 1) (add o))
      (member type) := by
  refine .look_bind fun start => .any_bind (fun _ => agrees_variance) fun _ => ?_
  refine .test (.reject _ _) (.test (.reject _ _) (.test ?_ ?_))
  · refine .bind (yields_indexer h start) fun i hi => .pure fun o ho => ⟨ho.1, ?_⟩
    exact List.forall_mem_cons.mpr
      ⟨⟨hi.1.mono (Nat.le_succ n), hi.2.mono (Nat.le_succ n)⟩, ho.2⟩
  · refine .bind (yields_property h start) fun p hp => .pure fun o ho => ⟨?_, ho.2⟩
    exact List.forall_mem_cons.mpr ⟨hp, ho.1⟩

/-- The members that the loop adds are not too deep. -/
private theorem yields_membersLoop (h : Yields depth (DepthLe n) type) (exact : Bool)
    (close : Token.Kind) (spelling : String) (rounds : ℕ) :
    Yields depth (MembersDepthLe (n + 1)) (membersLoop type exact close spelling rounds) := by
  have hempty : MembersDepthLe (n + 1) ⟨[], [], exact⟩ :=
    ⟨List.forall_mem_nil _, List.forall_mem_nil _⟩
  induction rounds with
  | zero => exact .halt _
  | succ rounds ih =>
    refine .test (.pure hempty) (.test (.reject _ _) (.bind (yields_member h) fun add hadd => ?_))
    refine .test (.advance_bind fun _ => .bind ih fun o ho => .pure (hadd o ho)) ?_
    exact .test (.pure (hadd _ hempty)) (.test (.reject _ _) (.reject _ _))

/-- The parts of an object type are at most one level deeper than what is read for its members: the
function of a method is a level. -/
theorem yields_objectType (h : Yields depth (DepthLe n) type) :
    Yields depth (fun o => PartsDepthLe (n + 1) (.object o.1)) (objectType type) := by
  have hlast : ∀ (start : ℕ) (o : ObjectType TypeExpr), MembersDepthLe (n + 1) o →
      Yields depth (fun o => PartsDepthLe (n + 1) (.object o.1)) (do
        let _ ← Parser.advance
        return (o, ← Parser.spanFrom start)) := fun start o ho =>
    .advance_bind fun _ => .look_bind fun span => .pure (Shape.forall_parts_object.mpr ho)
  have hmembers := fun exact close spelling =>
    Yields.rounds fun rounds => yields_membersLoop h exact close spelling rounds
  refine .advance_bind fun opening => ?_
  dsimp only
  split
  · exact .bind (hmembers _ _ _) (hlast _)
  · exact .bind (hmembers _ _ _) (hlast _)

/-! ### Primary forms -/

/-- A form without parts. -/
private theorem partsDepthLe_of_nil {shape : Shape TypeExpr} (h : shape.parts = []) :
    PartsDepthLe n shape := by
  rw [PartsDepthLe, h]
  exact List.forall_mem_nil _

/-- The arguments of a named form are not deeper than what is read for them. -/
private theorem yields_named (h : Yields depth (DepthLe n) type) :
    Yields depth (PartsDepthLe n) (named type) := by
  refine .look_bind fun word => .test (.advance_bind fun _ => ?_) ?_
  · exact .any_bind (fun _ => agrees_qualifiedName) fun _ =>
      .pure (partsDepthLe_of_nil rfl)
  · split
    · exact .advance_bind fun _ => .pure (partsDepthLe_of_nil rfl)
    · cases Keyword.ofSpelling? word with
      | some keyword => exact .advance_bind fun _ => .pure (partsDepthLe_of_nil rfl)
      | none => exact .bind (yields_generic h) fun _ hargs => .pure hargs

private theorem yields_tuple (h : Yields depth (DepthLe n) type) :
    Yields depth (PartsDepthLe n) (tuple type) :=
  .advance_bind fun _ => .bind h.items fun _ hall => .expect_bind fun _ => .pure hall

/-- **The parts of a primary form are at most one level deeper than what is read for them.** Object
types need the level; the other forms do with less. -/
private theorem yields_primaryShape (h : Yields depth (DepthLe n) type) :
    Yields depth (PartsDepthLe (n + 1)) (primaryShape type) := by
  have hsingle : ∀ make : String → Shape TypeExpr, (∀ text, (make text).parts = []) →
      Yields depth (PartsDepthLe (n + 1)) (do return make (← Parser.advance).text) :=
    fun make hmake => .advance_bind fun _ => .pure (partsDepthLe_of_nil (hmake _))
  have hmono := fun shape (hshape : PartsDepthLe n shape) => hshape.mono (Nat.le_succ n)
  refine .look_bind fun next => ?_
  rcases next with _ | kind
  · exact .reject _ _
  cases kind with
  | identifier => exact (yields_named h).mono hmono
  | string => exact hsingle (fun text => .string (Text.unquote text)) fun _ => rfl
  | number => exact hsingle .number fun _ => rfl
  | minus =>
    exact .test (.advance_bind fun _ => hsingle (fun text => .number ("-" ++ text)) fun _ => rfl)
      (.reject _ _)
  | bigInt => exact hsingle .bigInt fun _ => rfl
  | star => exact .advance_bind fun _ => .pure (partsDepthLe_of_nil rfl)
  | braceOpen => exact .bind (yields_objectType h) fun _ ho => .pure ho
  | braceBarOpen => exact .bind (yields_objectType h) fun _ ho => .pure ho
  | bracketOpen => exact (yields_tuple h).mono hmono
  | less => exact .bind (yields_typeParams h) fun _ _ => (yields_function h _ _).mono hmono
  | unexpected => exact .look_bind fun _ => .reject _ _
  | _ => exact .reject _ _

private theorem yields_primary (h : Yields depth (DepthLe n) type) :
    Yields depth (DepthLe (n + 2)) (primary type) := by
  refine .test ?_ (.look_bind fun start => ?_)
  · exact (yields_parenthesized h).mono fun t ht => ht.mono (Nat.le_succ _)
  · exact .bind (yields_primaryShape h) fun shape hshape => .look_bind fun span =>
      .pure (.form hshape)

/-! ### Operators -/

/-- Brackets may follow one another without end. -/
private theorem yields_bracketsLoop (h : Yields depth (DepthLe n) type) (start rounds : ℕ)
    {t : TypeExpr} (ht : DepthLe (n + 2) t) :
    Yields depth (DepthLe (n + 2)) (bracketsLoop type start rounds t) := by
  induction rounds generalizing t with
  | zero => exact .halt _
  | succ rounds ih =>
    refine .test (.advance_bind fun _ => .eat_bind ?_ (.bind h fun index hindex => ?_)) (.pure ht)
    · exact .look_bind fun span => ih (.brackets rfl (List.forall_mem_singleton.mpr ht))
    · refine .expect_bind fun _ => .look_bind fun span => ih (.brackets rfl ?_)
      have hindex' : DepthLe (n + 2) index := hindex.mono (by omega)
      exact List.forall_mem_cons.mpr ⟨ht, List.forall_mem_singleton.mpr hindex'⟩

private theorem yields_bracketed (h : Yields depth (DepthLe n) type) :
    Yields depth (DepthLe (n + 2)) (bracketed type) :=
  .look_bind fun start => .bind (yields_primary h) fun _ ht =>
    .rounds fun rounds => yields_bracketsLoop h start rounds ht

variable {inside : Nested}

private theorem yields_operand (hwhole : Yields depth (DepthLe n) inside.whole)
    (hoperand : Yields depth (DepthLe n) inside.operand) :
    Yields depth (DepthLe (n + 2)) (operand inside) := by
  refine .test (.advance_bind fun token => .bind hoperand fun t ht => ?_) (yields_bracketed hwhole)
  have hnullable : ∀ span, DepthLe (n + 1) ⟨.nullable t, span⟩ := fun span =>
    .form (List.forall_mem_singleton.mpr ht)
  exact .look_bind fun span => .pure ((hnullable span).mono (Nat.le_succ _))

/-- A list with an operator is one level around its parts. -/
private theorem yields_joined {part : Parser TypeExpr} {shape : List TypeExpr → Shape TypeExpr}
    (hshape : ∀ ts, (shape ts).parts = ts) (operator : Token.Kind)
    (h : Yields depth (DepthLe n) part) :
    Yields depth (DepthLe (n + 1)) (joined operator shape part) := by
  refine .look_bind fun start => .any_bind (fun _ => .eat _) fun _ => ?_
  refine .bind h fun first hfirst => .bind h.operands fun more hmore => ?_
  split
  · exact .pure (hfirst.mono (Nat.le_succ n))
  · refine .look_bind fun span => .pure (.form ?_)
    rw [hshape]
    exact List.forall_mem_cons.mpr ⟨hfirst, hmore⟩

/-- From the operand to the union there are at most four levels. -/
private theorem yields_union (hwhole : Yields depth (DepthLe n) inside.whole)
    (hoperand : Yields depth (DepthLe n) inside.operand) :
    Yields depth (DepthLe (n + 4)) (union inside) := by
  have hintersection : Yields depth (DepthLe (n + 3))
      (joined .ampersand .intersection (operand inside)) :=
    yields_joined (fun _ => rfl) _ (yields_operand hwhole hoperand)
  exact yields_joined (fun _ => rfl) _ hintersection

/-- **A limit on levels limits the depth.** Where `depth` levels are open, each level that is left
adds at most four forms. -/
theorem yields_nested (limit knots depth : ℕ) :
    Yields depth (DepthLe (4 * (limit - depth))) (nested (some limit) knots).whole ∧
      Yields depth (DepthLe (4 * (limit - depth))) (nested (some limit) knots).operand := by
  induction knots generalizing depth with
  | zero => exact ⟨.halt _, .halt _⟩
  | succ knots ih =>
    obtain ⟨hwhole, hoperand⟩ := ih (depth + 1)
    -- A level is left if reading goes on, and the forms at this level are four at most.
    have hlevel : (some limit).any (· ≤ depth) = false →
        4 * (limit - (depth + 1)) + 4 = 4 * (limit - depth) := by
      intro hlimit
      have hlt : depth < limit := by simpa using hlimit
      omega
    constructor
    · refine .nesting fun hlimit => ?_
      rw [← hlevel hlimit]
      exact yields_union hwhole hoperand
    · refine .nesting fun hlimit => ?_
      rw [← hlevel hlimit]
      exact (yields_operand hwhole hoperand).mono fun t ht => ht.mono (by omega)

end TypeExpr

end Reifier
