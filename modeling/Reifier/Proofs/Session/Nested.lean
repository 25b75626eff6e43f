import Reifier.Proofs.Directive
import Reifier.Proofs.Program.Safety
import Reifier.Proofs.Session.Replacement
import Reifier.Proofs.TypeExpr.Plain

/-!
# What a session does inside statements

A statement without a structure keeps its text and its place; the declarations inside its brackets
become constants (`exists_of_verbatim_mem`), and these are printed as plain text
(`plainInside_of_run`), since the name of the library is plain and stays the same throughout a
session. The comments stay in place.
-/

namespace Reifier

open Token (Spelled)

/-! ### Plain constants -/

/-- A constant that is printed as plain text. -/
structure Const.Plain (decl : Const) : Prop where
  id : Spelled decl.id.name
  init : decl.init.Plain

/-- The constants inside a statement without a structure, and nothing else, are printed as plain
text. -/
def Statement.PlainInside : Statement → Prop
  | .verbatim text => ∀ inner ∈ text.nested, ∃ decl, inner.node = .const decl ∧ decl.Plain
  | _ => True

/-- The binding that stands for the library is spelled as a name. -/
private theorem Scope.spelled_library_ofNames (names : NameSet) :
    Spelled (ofNames names).library := by
  obtain ⟨digits, hname, hdigits⟩ := exists_generated_eq_append names "t"
  have hlibrary : (ofNames names).library = "_" ++ Name.generatedBase "t" ++ digits := hname
  obtain ⟨cs, hcs, hparts⟩ :=
    Name.exists_generated_eq "t" fun d hd => Name.isPart_of_isDigit (hdigits d hd)
  intro c hc
  rw [hlibrary, hcs] at hc
  rcases List.mem_cons.mp hc with rfl | hc
  · decide
  · exact Token.plain_of_isPart (hparts c hc)

/-- Only what has been a statement without a structure is replaced by one. -/
private theorem Statement.ReplacedBy.exists_verbatim {s : Statement} {names : List String}
    {ss : List Statement} (h : s.ReplacedBy names ss) {text : Verbatim}
    (hnode : .verbatim text ∈ ss) :
    ∃ nested, s = .verbatim ⟨text.text, text.span, nested⟩ ∧
      List.Forall₂ Item.DeclarationReplacedBy nested text.nested := by
  cases h with
  | verbatim h =>
    cases List.mem_singleton.mp hnode
    exact ⟨_, rfl, h⟩
  | externalTypes =>
    rcases List.mem_cons.mp hnode with hnode | hnode
    · cases hnode
    · obtain ⟨c, -, heq⟩ := List.mem_map.mp hnode
      cases heq
  | _ => cases List.mem_singleton.mp hnode

namespace Session

variable {settings : Settings} {program : Program} {source : String}

/-! ### Steps that keep an invariant -/

/-- A step that does not refuse, begun in a scope with `inv`, comes to something that satisfies
`post`, and ends in a scope with `inv`. -/
def Step.Keeps {α : Type} (inv : Scope → Prop) (post : α → Prop) (step : Step α) : Prop :=
  ∀ scope a scope', inv scope → step.run scope = (.ok a, scope') → post a ∧ inv scope'

namespace Step.Keeps

variable {α β : Type} {inv : Scope → Prop} {post : α → Prop} {post' : β → Prop} {step : Step α}

/-- A step that does nothing keeps every invariant. -/
protected theorem pure {a : α} (h : post a) : Keeps inv post (pure a) := by
  intro scope b scope' hinv hrun
  cases hrun
  exact ⟨h, hinv⟩

/-- One step after another keeps what both keep. -/
protected theorem bind {f : α → Step β} (hstep : Keeps inv post step)
    (hf : ∀ a, post a → Keeps inv post' (f a)) : Keeps inv post' (step >>= f) := by
  intro scope b scope' hinv hrun
  obtain ⟨a, mid, hfirst, hrest⟩ := Step.exists_of_run_bind hrun
  obtain ⟨ha, hmid⟩ := hstep scope a mid hinv hfirst
  exact hf a ha mid b scope' hmid hrest

protected theorem map {f : α → β} (hstep : Keeps inv post step) (hf : ∀ a, post a → post' (f a)) :
    Keeps inv post' (f <$> step) := by
  rw [map_eq_pure_bind]
  exact .bind hstep fun a ha => .pure (hf a ha)

theorem ofExcept {x : Except Refusal α} (h : TypeExpr.Gives post x) :
    Keeps inv post (Step.ofExcept x) := by
  intro scope a scope' hinv hrun
  cases hrun
  exact ⟨h a rfl, hinv⟩

theorem get : Keeps inv inv (get : Step Scope) := by
  intro scope a scope' hinv hrun
  cases hrun
  exact ⟨hinv, hinv⟩

/-- A change of the scope keeps the invariant if it does so in every scope. -/
theorem modify {change : Scope → Scope} (h : ∀ scope, inv scope → inv (change scope)) :
    Keeps inv (fun _ => True) (modify change : Step PUnit) := by
  intro scope a scope' hinv hrun
  cases hrun
  exact ⟨trivial, h scope hinv⟩

end Step.Keeps

/-! ### Declarations become plain constants -/

/-- The name of the library is plain. -/
def PlainLibrary (scope : Scope) : Prop := Spelled scope.library

/-- A constant under a spelled name is plain if what is reified is. -/
private theorem keeps_constant {id : Identifier} {span : Span} {recursive : Bool}
    {reify : Scope → Except Refusal Expr} (hid : Spelled id.name)
    (hreify : ∀ scope, PlainLibrary scope → TypeExpr.Gives Expr.Plain (reify scope)) :
    Step.Keeps PlainLibrary Const.Plain (constant id span recursive reify) := by
  have hrest : Step.Keeps PlainLibrary Const.Plain (noted id span reify) := by
    refine .bind .get fun scope hscope => ?_
    refine .bind (.ofExcept (hreify scope hscope)) fun init hinit => ?_
    exact .bind (.modify fun scope hscope => hscope) fun _ _ => .pure ⟨hid, hinit⟩
  refine .bind (@Step.Keeps.ofExcept _ _ (fun _ => True) _ fun _ _ => trivial) fun _ _ => ?_
  cases recursive with
  | true => exact .bind (.modify fun scope hscope => hscope) fun _ _ => hrest
  | false => exact hrest

/-- A declaration read from a source becomes a plain constant. -/
private theorem keeps_declaration (recursive : Bool) {decl : Declaration}
    (h : decl.OfSource source) :
    Step.Keeps PlainLibrary (fun other => ∃ c, other = .const c ∧ c.Plain)
      (declaration settings recursive decl) := by
  cases decl with
  | typeAlias decl =>
    refine .map (keeps_constant h.id.spelled fun scope hscope => ?_) fun c hc => ⟨c, rfl, hc⟩
    have hlib : Spelled (context settings scope decl.params).library.binding := hscope
    exact TypeExpr.plain_reify hlib decl.right _ h.right
  | interface decl =>
    refine .map (keeps_constant h.id.spelled fun scope hscope => ?_) fun c hc => ⟨c, rfl, hc⟩
    have hlib : Spelled (context settings scope decl.params).library.binding := hscope
    exact Interface.plain_reify hlib h
  | const decl => exact h.elim

private theorem keeps_nested {items : List (Item Declaration)}
    (h : ∀ item ∈ items, item.node.OfSource source) :
    Step.Keeps PlainLibrary
      (fun others => ∀ other ∈ others, ∃ c, other.node = .const c ∧ c.Plain)
      (nested settings program items) := by
  induction items with
  | nil => exact .pure (List.forall_mem_nil _)
  | cons item items ih =>
    obtain ⟨hitem, hitems⟩ := List.forall_mem_cons.mp h
    refine .bind (keeps_declaration _ hitem) fun node hnode => ?_
    refine .bind (ih hitems) fun more hmore => ?_
    exact .pure (List.forall_mem_cons.mpr ⟨hnode, hmore⟩)

/-- What replaces an import has no statement without a structure in it. -/
private theorem plainInside_imports (decl : Import) (scope : Scope) :
    ∀ s ∈ (imports decl scope).1, s.PlainInside := by
  intro s hs
  unfold imports at hs
  split_ifs at hs
  · obtain rfl := List.mem_singleton.mp hs
    trivial
  · obtain rfl := List.mem_singleton.mp hs
    trivial
  · rcases List.mem_cons.mp hs with rfl | hs
    · trivial
    · obtain ⟨c, -, rfl⟩ := List.mem_map.mp hs
      trivial

/-- A statement read from a source becomes statements with only plain constants inside. The cases
are the kinds of statements; only the last has anything inside. -/
private theorem keeps_statement (recursive : Bool) {s : Statement} (h : s.OfSource source) :
    Step.Keeps PlainLibrary (fun ss => ∀ t ∈ ss, t.PlainInside)
      (inside settings program s >>= statement settings recursive) := by
  cases s with
  | declaration decl =>
    rw [inside_bind (.declaration decl) rfl]
    exact .bind (keeps_declaration recursive h) fun other _ =>
      .pure (List.forall_mem_singleton.mpr trivial)
  | imports decl =>
    rw [inside_bind (.imports decl) rfl]
    intro scope ss scope' hscope hrun
    cases hrun
    refine ⟨plainInside_imports decl scope, ?_⟩
    change Spelled (imports decl scope).2.library
    rw [imports_library]
    exact hscope
  | exports decl =>
    rw [inside_bind (.exports decl) rfl]
    rcases statement_exports_cases settings recursive decl with ⟨-, -, hstatement⟩ |
      ⟨-, hstatement⟩
    · rw [hstatement]
      exact .bind (keeps_declaration recursive h.1) fun other _ =>
        .pure (List.forall_mem_singleton.mpr trivial)
    · rw [hstatement]
      exact .pure (List.forall_mem_singleton.mpr trivial)
  | verbatim text =>
    rw [inside, bind_assoc]
    exact .bind (keeps_nested h.2) fun others hothers =>
      .pure (List.forall_mem_singleton.mpr hothers)

/-- A body read from a source becomes statements with only plain constants inside. -/
private theorem keeps_body {items : List (Item Statement)}
    (h : ∀ item ∈ items, item.node.OfSource source) :
    Step.Keeps PlainLibrary (fun others => ∀ other ∈ others, other.node.PlainInside)
      (body settings program items) := by
  induction items with
  | nil => exact .pure (List.forall_mem_nil _)
  | cons item items ih =>
    obtain ⟨hitem, hitems⟩ := List.forall_mem_cons.mp h
    rw [body, ← bind_assoc]
    refine .bind (keeps_statement _ hitem) fun ss hss => .bind (ih hitems) fun more hmore => ?_
    refine .pure (List.forall_mem_append.mpr ⟨fun other hother => ?_, hmore⟩)
    cases ss with
    | nil => cases hother
    | cons first rest =>
      obtain ⟨hfirst, hrest⟩ := List.forall_mem_cons.mp hss
      rcases List.mem_cons.mp hother with rfl | hother
      · exact hfirst
      · obtain ⟨s, hs, rfl⟩ := List.mem_map.mp hother
        exact hrest s hs

/-! ### Sessions -/

variable {done : Program} (hrun : run settings program = .ok done)
  (hactive : Directive.scan settings.directive program.comments ≠ [])

include hrun hactive

/-- The comments that a run leaves are those without the directive. -/
theorem comments_of_run : done.comments = (strip settings program).comments := by
  obtain ⟨items, scope, -, rfl⟩ := exists_of_run hrun hactive
  unfold exit
  split_ifs <;> rfl

/-- **What a session makes inside statements is plain.** -/
theorem plainInside_of_run (h : ∀ item ∈ program.body, item.node.OfSource source) :
    ∀ item ∈ done.body, item.node.PlainInside := by
  obtain ⟨items, scope, hbody, rfl⟩ := exists_of_run hrun hactive
  obtain ⟨hitems, -⟩ := keeps_body h _ _ _ (Scope.spelled_library_ofNames program.names) hbody
  rcases exit_body_cases ⟨settings, scope, true⟩ { strip settings program with body := items } with
    hexit | hexit
  · rw [hexit]
    exact hitems
  · rw [hexit]
    exact List.forall_mem_cons.mpr ⟨trivial, hitems⟩

/-- A statement without a structure is what one of the program has become. -/
theorem exists_of_verbatim_mem {item : Item Statement} (hitem : item ∈ done.body) {text : Verbatim}
    (htext : item.node = .verbatim text) :
    ∃ before ∈ program.body, ∃ nested, before.node = .verbatim ⟨text.text, text.span, nested⟩ ∧
      List.Forall₂ Item.DeclarationReplacedBy nested text.nested := by
  obtain ⟨items, scope, hbody, rfl⟩ := exists_of_run hrun hactive
  obtain ⟨_, ⟨groups, hgroups, rfl, rfl⟩, -⟩ := generates_body program.body _ _ _ hbody
  have hmem : item ∈ groups.flatMap Prod.snd := by
    rcases exit_body_cases ⟨settings, scope, true⟩
      { strip settings program with body := groups.flatMap Prod.snd } with hexit | hexit
    · rwa [hexit] at hitem
    · rw [hexit] at hitem
      rcases List.mem_cons.mp hitem with rfl | hitem
      · cases htext
      · exact hitem
  obtain ⟨before, hbefore, _, ss, hreplaced, -, hnode⟩ := hgroups.exists_of_mem hmem
  exact ⟨before, hbefore, hreplaced.exists_verbatim (htext ▸ hnode)⟩

end Session

end Reifier
