import Reifier.Proofs.Program.Declarations
import Reifier.Proofs.Program.Excerpt
import Reifier.Proofs.Program.OfSource

/-!
# The nodes of a program

Whatever a program is made of and has a place in its source is a node: statements, declarations,
their parameters, type expressions, the members of object types, names and identifiers. A node has
children, and `Node.Faithful` says of a node and all below it that each lies in the one that it is a
child of, that each annotation is what its part of the source is read as, and that the text of each
identifier is its name.

Only the value of a method is no annotation: it is written with a colon where a function type has
an arrow. A method is a property in which no colon stands before the value.
-/

namespace Reifier

/-! ### Nodes -/

/-- What a program is made of. The body of an interface is a node of its own; object types are
nodes as type expressions. -/
inductive Node where
  | statement (stmt : Statement)
  | declaration (decl : Declaration)
  | typeParam (p : TypeParam)
  | type (t : TypeExpr)
  | property (p : Property TypeExpr)
  | indexer (i : Indexer TypeExpr)
  | body (o : ObjectType TypeExpr) (span : Span)
  | name (q : QualifiedName)
  | identifier (id : Identifier)
  | moduleSource (path : ModuleSource)

/-- Where a node stands. -/
def Node.span : Node → Span
  | statement stmt => stmt.span
  | declaration decl => decl.span
  | typeParam p => p.span
  | type t => t.span
  | property p => p.span
  | indexer i => i.span
  | body _ span => span
  | name q => q.span
  | identifier id => id.span
  | moduleSource path => path.span

/-- The nodes of a reference: its name and its arguments. -/
def Generic.nodes (g : Generic TypeExpr) : List Node := .name g.name :: g.args.map .type

/-- The nodes of a parameter: its name, if it has one, and its type. -/
def Param.nodes (p : Param TypeExpr) : List Node := p.name.toList.map .identifier ++ [.type p.type]

/-- The nodes of a key. A string is none. -/
def PropertyKey.nodes : PropertyKey → List Node
  | identifier id => [.identifier id]
  | string _ => []

/-- The nodes of an object type: its members. -/
def ObjectType.nodes (o : ObjectType TypeExpr) : List Node :=
  o.properties.map .property ++ o.indexers.map .indexer

/-- The nodes of a form. -/
def Shape.nodes : Shape TypeExpr → List Node
  | function params rest result =>
    params.flatMap Param.nodes ++ rest.toList.flatMap Param.nodes ++ [.type result]
  | typeOf target => [.name target]
  | array element => [.type element]
  | nullable inner => [.type inner]
  | tuple items => items.map .type
  | union members => members.map .type
  | intersection members => members.map .type
  | object type => type.nodes
  | generic ref => ref.nodes
  | indexedAccess base index => [.type base, .type index]
  | _ => []

/-- The nodes of the parameters of a declaration. -/
def TypeParam.nodesOf (params : Option (List TypeParam)) : List Node :=
  (params.getD []).map .typeParam

/-- The nodes of a declaration. -/
def Declaration.nodes : Declaration → List Node
  | typeAlias decl => .identifier decl.id :: TypeParam.nodesOf decl.params ++ [.type decl.right]
  | interface decl =>
    .identifier decl.id :: TypeParam.nodesOf decl.params ++ decl.bases.flatMap Generic.nodes ++
      [.body decl.body decl.bodySpan]
  | const decl => [.identifier decl.id]

/-- The nodes of a specifier. -/
def ImportSpecifier.nodes (s : ImportSpecifier) : List Node := s.identifiers.map .identifier

/-- The nodes of a statement. -/
def Statement.nodes : Statement → List Node
  | declaration decl => [.declaration decl]
  | imports decl => decl.specifiers.flatMap ImportSpecifier.nodes ++ [.moduleSource decl.source]
  | exports decl => [.declaration decl.declaration]
  | verbatim text => text.nested.map fun item => .declaration item.node

/-- The nodes that a node is made of. -/
def Node.children : Node → List Node
  | statement stmt => stmt.nodes
  | declaration decl => decl.nodes
  | typeParam p => .identifier p.name :: (p.bound.toList ++ p.default.toList).map .type
  | type t => t.shape.nodes
  | property p => p.key.nodes ++ [.type p.value]
  | indexer i => i.id.toList.map .identifier ++ [.type i.key, .type i.value]
  | body o _ => o.nodes
  | name q => q.segments.map .identifier
  | identifier _ => []
  | moduleSource _ => []

/-! ### Faithful nodes -/

/-- A property is a method if no colon of the source stands between where the property begins and
where its value does. -/
def Property.IsMethod (source : String) (p : Property TypeExpr) : Prop :=
  ∀ t ∈ Token.scan source, t.kind = .colon → p.span.start ≤ t.span.start →
    p.value.span.start ≤ t.span.start

instance (source : String) (p : Property TypeExpr) : Decidable (p.IsMethod source) :=
  inferInstanceAs (Decidable (∀ t ∈ Token.scan source, t.kind = .colon →
    p.span.start ≤ t.span.start → p.value.span.start ≤ t.span.start))

namespace Node

variable {source : String} {w : Span} {n m : Node} {ns ms : List Node} {t : TypeExpr}

/-- The node of a method. -/
def IsMethod (source : String) : Node → Prop
  | property p => p.IsMethod source
  | _ => False

/-- One node is a child of another. -/
def IsChild (n m : Node) : Prop := m ∈ n.children

/-- The children of a node lie in it and are faithful, its annotations are read back, and if it is
an identifier, its text is its name. -/
inductive Faithful (source : String) : Node → Prop
  | mk {n : Node} (inside : ∀ m ∈ n.children, n.span.encloses m.span = true)
      (annotations : ¬ n.IsMethod source → ∀ t, .type t ∈ n.children → t.ReadsBack source)
      (names : ∀ id, n = .identifier id →
        Text.slice? source.toList id.span = some id.name.toList)
      (children : ∀ m ∈ n.children, Faithful source m) : Faithful source n

/-- What is inside a faithful node is faithful, as the children of one are. -/
theorem Faithful.of_inside (h : n.Faithful source) (hm : Relation.ReflTransGen IsChild n m) :
    m.Faithful source := by
  induction hm with
  | refl => exact h
  | tail _ hchild ih =>
    cases ih with
    | mk _ _ _ children => exact children _ hchild

/-- Nodes that lie in a span and are faithful. Those that are type expressions are read back. -/
def Hold (source : String) (w : Span) (ns : List Node) : Prop :=
  ∀ n ∈ ns, w.encloses n.span = true ∧ n.Faithful source ∧ ∀ t, n = .type t → t.ReadsBack source

@[simp] theorem hold_nil : Hold source w [] := List.forall_mem_nil _

@[simp] theorem hold_append : Hold source w (ns ++ ms) ↔ Hold source w ns ∧ Hold source w ms :=
  List.forall_mem_append

theorem hold_cons : Hold source w (n :: ns) ↔ Hold source w [n] ∧ Hold source w ns := by
  rw [← List.singleton_append, hold_append]

theorem hold_map {α : Type} {f : α → Node} {as : List α} :
    Hold source w (as.map f) ↔ ∀ a ∈ as, Hold source w [f a] := by
  simp [Hold]

theorem hold_flatMap {α : Type} {f : α → List Node} {as : List α} :
    Hold source w (as.flatMap f) ↔ ∀ a ∈ as, Hold source w (f a) :=
  List.forall_mem_flatMap

/-- What lies in a span lies in all around it. -/
theorem Hold.mono {w' : Span} (h : Hold source w ns) (hw : w'.encloses w = true) :
    Hold source w' ns :=
  fun n hn => ⟨Span.encloses_trans hw (h n hn).1, (h n hn).2⟩

/-- A node whose children lie in it. -/
theorem faithful_of_hold {w' : Span} (hspan : n.span = w') (h : Hold source w' n.children)
    (hn : ∀ id, n ≠ .identifier id) : n.Faithful source := by
  subst hspan
  exact .mk (fun m hm => (h m hm).1) (fun _ t ht => (h _ ht).2.2 t rfl)
    (fun id hid => absurd hid (hn id)) fun m hm => (h m hm).2.1

/-- A node other than a type expression, all of whose children lie in it. -/
theorem hold_singleton {w' : Span} (hspan : n.span = w') (h : Hold source w' n.children)
    (hn : ∀ id, n ≠ .identifier id) (ht : ∀ t, n ≠ .type t) (hw : w.encloses w' = true) :
    Hold source w [n] :=
  List.forall_mem_singleton.mpr
    ⟨hspan ▸ hw, faithful_of_hold hspan h hn, fun t heq => absurd heq (ht t)⟩

/-- A type expression that is read back, and whose parts lie in it. -/
theorem hold_type {w' : Span} (hspan : t.span = w') (h : Hold source w' t.shape.nodes)
    (hread : t.ReadsBack source) (hw : w.encloses w' = true) : Hold source w [.type t] := by
  subst hspan
  refine List.forall_mem_singleton.mpr ⟨hw, faithful_of_hold rfl h nofun, ?_⟩
  rintro _ ⟨⟩
  exact hread

/-- A method, whose value is not read back. -/
theorem faithful_method {p : Property TypeExpr} (hmethod : p.IsMethod source)
    (hkey : Hold source p.span p.key.nodes) (hvalue : p.span.encloses p.value.span = true)
    (hfaithful : (Node.type p.value).Faithful source) : (Node.property p).Faithful source := by
  have hall : ∀ m ∈ (Node.property p).children,
      p.span.encloses m.span = true ∧ m.Faithful source :=
    List.forall_mem_append.mpr ⟨fun m hm => ⟨(hkey m hm).1, (hkey m hm).2.1⟩,
      List.forall_mem_singleton.mpr ⟨hvalue, hfaithful⟩⟩
  exact .mk (fun m hm => (hall m hm).1) (fun hnot => absurd hmethod hnot) nofun
    fun m hm => (hall m hm).2

/-- The parts of a type expression lie in it. -/
theorem Hold.parts (h : Hold source w [.type t]) : Hold source w t.shape.nodes := by
  obtain ⟨hw, hfaithful, -⟩ := List.forall_mem_singleton.mp h
  cases hfaithful with
  | mk inside annotations _ children =>
    intro m hm
    refine ⟨Span.encloses_trans hw (inside m hm), children m hm, ?_⟩
    rintro u rfl
    exact annotations id u hm

/-- A token of the source that is an identifier. -/
theorem hold_identifier {token : Token} (h : token ∈ Token.scan source)
    (hw : w.encloses token.span = true) :
    Hold source w [.identifier ⟨token.text, token.span⟩] := by
  refine List.forall_mem_singleton.mpr ⟨hw, ?_, nofun⟩
  refine .mk (List.forall_mem_nil _) (fun _ t ht => nomatch ht) ?_ (List.forall_mem_nil _)
  rintro _ ⟨⟩
  exact Token.slice?_of_mem_scan h

end Node

end Reifier
