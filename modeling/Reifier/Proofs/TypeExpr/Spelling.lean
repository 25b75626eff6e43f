import Reifier.Proofs.Token.Words
import Reifier.TypeExpr.Basic

/-!
# Spelling type expressions

`t.words` are the words that a type expression is written with, and `t.render` is what they look
like on a line. Forms have levels, from the loosest to the tightest, and a form stands in
parentheses where a tighter one is expected. `Spellable` says which type expressions can be written
like this at all: those whose names are identifiers and whose numbers are read as numbers, whose
unions and intersections have two members or more, and whose functions name their parameters, unless
there is only one.
-/

namespace Reifier

open Token (Word)

/-! ### Levels -/

/-- How tightly a form holds together: a function type, a union, an intersection, a question mark in
front, brackets behind, and the primary forms. -/
def Shape.level {α : Type} : Shape α → ℕ
  | function .. => 0
  | union _ => 1
  | intersection _ => 2
  | nullable _ => 3
  | array _ => 4
  | indexedAccess .. => 4
  | _ => 5

/-- The level of the production that reads a form. Function types are read with the primary forms,
and go on as far as they can. -/
def Shape.ownLevel {α : Type} : Shape α → ℕ
  | function .. => 5
  | shape => shape.level

/-- The production that reads a form is at least as tight as the level at which the form may
stand. -/
theorem Shape.level_le_ownLevel {α : Type} (shape : Shape α) : shape.level ≤ shape.ownLevel := by
  cases shape <;> exact Nat.le_of_ble_eq_true rfl

/-! ### Words -/

/-- The word that an identifier is. -/
def Identifier.word (id : Identifier) : Word := ⟨.identifier, id.name⟩

/-- The words of a dotted name. -/
def QualifiedName.words (q : QualifiedName) : List Word :=
  q.head.word :: q.tail.flatMap fun id => [.sign .dot, id.word]

/-- The word that a keyword type is. -/
def Keyword.word (keyword : Keyword) : Word :=
  match keyword.spelling? with
  | some spelling => ⟨.identifier, spelling⟩
  | none => .sign .star

/-- The word that the key of a property is. -/
def PropertyKey.word : PropertyKey → Word
  | identifier id => id.word
  | string value => ⟨.string, Text.quote value⟩

/-- A key is written as a name or as a string. -/
theorem PropertyKey.kind_word (key : PropertyKey) :
    key.word.kind = .identifier ∨ key.word.kind = .string := by
  cases key with
  | identifier id => exact .inl rfl
  | string value => exact .inr rfl

namespace TypeExpr

/-- The words of a number, of which the minus sign is one. -/
def numberWords (spelling : String) : List Word :=
  match spelling.toList with
  | '-' :: digits => [.sign .minus, ⟨.number, String.ofList digits⟩]
  | _ => [⟨.number, spelling⟩]

/-- Words between two signs. -/
def between (opening closing : Token.Kind) (ws : List Word) : List Word :=
  .sign opening :: (ws ++ [.sign closing])

/-- Words behind a key, with a question mark if what they say is optional. -/
def keyed (key : Word) (optional : Bool) (ws : List Word) : List Word :=
  key :: ((if optional then [.sign .question] else []) ++ .sign .colon :: ws)

/-- Words behind a name, if there is one. -/
def labelled (name : Option Identifier) (optional : Bool) (ws : List Word) : List Word :=
  match name with
  | some id => keyed id.word optional ws
  | none => ws

/-- Words in parentheses, if they are those of a form that is looser than level `k`. -/
def enclose (k : ℕ) (t : TypeExpr) (ws : List Word) : List Word :=
  if t.shape.level < k then between .parenOpen .parenClose ws else ws

mutual

/-- The words of a type expression. -/
def words : TypeExpr → List Word
  | ⟨shape, _⟩ => shapeWords shape
termination_by structural t => t

/-- The words of a form. -/
def shapeWords : Shape TypeExpr → List Word
  | .keyword word => [word.word]
  | .function params rest result =>
    between .parenOpen .parenClose (Word.separated .comma (paramsWords params ++ restWords rest)) ++
      .sign .arrow :: words result
  | .typeOf target => ⟨.identifier, "typeof"⟩ :: target.words
  | .array element => enclose 4 element (words element) ++ between .bracketOpen .bracketClose []
  | .nullable inner => .sign .question :: enclose 3 inner (words inner)
  | .tuple items => between .bracketOpen .bracketClose (Word.separated .comma (allWords 0 items))
  | .union members => Word.separated .pipe (allWords 2 members)
  | .intersection members => Word.separated .ampersand (allWords 3 members)
  | .object ⟨properties, indexers, exact⟩ =>
    between (if exact then .braceBarOpen else .braceOpen)
      (if exact then .barBraceClose else .braceClose)
      (Word.separated .comma (propertiesWords properties ++ indexersWords indexers))
  | .generic ⟨name, none⟩ => name.words
  | .generic ⟨name, some args⟩ =>
    name.words ++ between .less .greater (Word.separated .comma (allWords 0 args))
  | .string value => [⟨.string, Text.quote value⟩]
  | .number spelling => numberWords spelling
  | .boolean value => [⟨.identifier, if value then "true" else "false"⟩]
  | .bigInt spelling => [⟨.bigInt, spelling⟩]
  | .indexedAccess object index =>
    enclose 4 object (words object) ++ between .bracketOpen .bracketClose (words index)
termination_by structural shape => shape

/-- The words of each of some type expressions, where forms of level `k` or tighter are expected. -/
def allWords (k : ℕ) : List TypeExpr → List (List Word)
  | [] => []
  | t :: ts => enclose k t (words t) :: allWords k ts
termination_by structural ts => ts

/-- The words of each of some parameters. -/
def paramsWords : List (Param TypeExpr) → List (List Word)
  | [] => []
  | ⟨name, type, optional⟩ :: ps => labelled name optional (words type) :: paramsWords ps
termination_by structural ps => ps

/-- The words of a rest parameter, if there is one. -/
def restWords : Option (Param TypeExpr) → List (List Word)
  | none => []
  | some ⟨name, type, optional⟩ => [.sign .ellipsis :: labelled name optional (words type)]
termination_by structural rest => rest

/-- The words of each of some properties. -/
def propertiesWords : List (Property TypeExpr) → List (List Word)
  | [] => []
  | ⟨key, value, optional, _⟩ :: ps => keyed key.word optional (words value) :: propertiesWords ps
termination_by structural ps => ps

/-- The words of each of some indexers. -/
def indexersWords : List (Indexer TypeExpr) → List (List Word)
  | [] => []
  | ⟨id, key, value, _⟩ :: is =>
    (between .bracketOpen .bracketClose (labelled id false (words key)) ++
      .sign .colon :: words value) :: indexersWords is
termination_by structural is => is

end

/-- A type expression on a line, with parentheses where a looser form stands in a tighter place. -/
def render (t : TypeExpr) : String := Token.write t.words

/-- The words of a type expression where a form of level `k` or tighter is expected. -/
def wordsAt (k : ℕ) (t : TypeExpr) : List Word := enclose k t t.words

/-- Where every form may stand there are no parentheses. -/
theorem wordsAt_zero (t : TypeExpr) : wordsAt 0 t = t.words := by
  rw [wordsAt, enclose, if_neg (Nat.not_lt_zero _)]

/-- The words of a parameter. -/
def paramWords (p : Param TypeExpr) : List Word := labelled p.name p.optional p.type.words

/-- The words of a property. -/
def propertyWords (p : Property TypeExpr) : List Word := keyed p.key.word p.optional p.value.words

/-- The words of an indexer. -/
def indexerWords (i : Indexer TypeExpr) : List Word :=
  between .bracketOpen .bracketClose (labelled i.id false i.key.words) ++
    .sign .colon :: i.value.words

/-- Lists of type expressions are written one by one. -/
theorem allWords_eq_map (k : ℕ) (ts : List TypeExpr) : allWords k ts = ts.map (wordsAt k) := by
  induction ts with
  | nil => rfl
  | cons t ts ih =>
    rw [allWords, ih]
    rfl

theorem paramsWords_eq_map (ps : List (Param TypeExpr)) : paramsWords ps = ps.map paramWords := by
  induction ps with
  | nil => rfl
  | cons p ps ih =>
    rw [paramsWords, ih]
    rfl

/-- A rest parameter is written behind three dots. -/
theorem restWords_eq_map (rest : Option (Param TypeExpr)) :
    restWords rest = rest.toList.map fun p => .sign .ellipsis :: paramWords p := by
  cases rest with
  | none => rfl
  | some p => rfl

theorem propertiesWords_eq_map (ps : List (Property TypeExpr)) :
    propertiesWords ps = ps.map propertyWords := by
  induction ps with
  | nil => rfl
  | cons p ps ih =>
    rw [propertiesWords, ih]
    rfl

theorem indexersWords_eq_map (is : List (Indexer TypeExpr)) :
    indexersWords is = is.map indexerWords := by
  induction is with
  | nil => rfl
  | cons i is ih =>
    rw [indexersWords, ih]
    rfl

end TypeExpr

/-! ### Spellable type expressions -/

/-- The type expressions directly inside a form. -/
def Shape.parts {α : Type} : Shape α → List α
  | function params rest result =>
    (params ++ rest.toList).map Param.type ++ [result]
  | array element => [element]
  | nullable inner => [inner]
  | tuple items => items
  | union members => members
  | intersection members => members
  | object type => type.properties.map Property.value ++
      type.indexers.flatMap fun i => [i.key, i.value]
  | generic ref => ref.args
  | indexedAccess base index => [base, index]
  | _ => []

/-- The name is an identifier. -/
def Identifier.Spellable (id : Identifier) : Prop := Name.isIdentifier id.name = true

/-- All segments are identifiers. -/
def QualifiedName.Spellable (q : QualifiedName) : Prop := ∀ id ∈ q.segments, id.Spellable

/-- The name is an identifier if there is one, and what has no name is not optional. -/
def Param.Spellable {α : Type} (p : Param α) : Prop :=
  match p.name with
  | some id => id.Spellable
  | none => p.optional = false

/-- The key is a string or an identifier. -/
def PropertyKey.Spellable : PropertyKey → Prop
  | identifier id => id.Spellable
  | string _ => True

/-- A text is read as a number, after a minus sign or without one. -/
def IsNumberLiteral (spelling : String) : Prop :=
  Token.IsNumber .number spelling ∨
    ∃ digits, spelling = "-" ++ digits ∧ Token.IsNumber .number digits

/-- The words that no reference to a type begins with. -/
def IsReserved (word : String) : Prop :=
  (Keyword.ofSpelling? word).isSome ∨ word ∈ ["true", "false", "typeof"]

/-- A form, apart from its parts, is one that can be written: names are identifiers, numbers are
read as such, and unions and intersections have at least two members. All parameters of a function
have names, except that a single one may do without. -/
def Shape.Spellable {α : Type} : Shape α → Prop
  | function params rest _ =>
    (∀ p ∈ params, p.Spellable) ∧ (∀ p ∈ rest, p.Spellable) ∧
      ((∀ p ∈ params, p.name.isSome) ∨ params.length = 1 ∧ rest.isNone)
  | typeOf target => target.Spellable
  | union members => 2 ≤ members.length
  | intersection members => 2 ≤ members.length
  | object type =>
    (∀ p ∈ type.properties, p.key.Spellable) ∧ ∀ i ∈ type.indexers, ∀ id ∈ i.id, id.Spellable
  | generic ref => ref.name.Spellable ∧ ¬ IsReserved ref.name.head.name
  | number spelling => IsNumberLiteral spelling
  | bigInt spelling => Token.IsNumber .bigInt spelling
  | _ => True

/-- A type expression whose forms can be written. -/
inductive TypeExpr.Spellable : TypeExpr → Prop
  | mk {shape : Shape TypeExpr} {span : Span} (form : shape.Spellable)
      (parts : ∀ p ∈ shape.parts, Spellable p) : Spellable ⟨shape, span⟩

/-! ### Announced parameters

Names are more than it takes: once the first parameter has one, those behind it may do without. -/

/-- The parameters that a function type can begin with so that they are told from a group: none at
all, a first one that has a name, or a single one. -/
def Announced {α : Type} (params : List (Param α)) (rest : Option (Param α)) : Prop :=
  (∀ p ∈ params.head?, p.name.isSome) ∨ params.length = 1 ∧ rest.isNone

/-- A form that can be written, where the parameters of a function need only be announced. -/
def Shape.Writable {α : Type} : Shape α → Prop
  | function params rest _ =>
    (∀ p ∈ params, p.Spellable) ∧ (∀ p ∈ rest, p.Spellable) ∧ Announced params rest
  | shape => shape.Spellable

/-- A type expression of such forms. -/
inductive TypeExpr.Writable : TypeExpr → Prop
  | mk {shape : Shape TypeExpr} {span : Span} (form : shape.Writable)
      (parts : ∀ p ∈ shape.parts, Writable p) : Writable ⟨shape, span⟩

/-- A form that is spelled as a source spells it can be written. -/
private theorem Shape.Spellable.writable {α : Type} {shape : Shape α} (h : shape.Spellable) :
    shape.Writable := by
  cases shape with
  | function params rest result =>
    obtain ⟨hparams, hrest, hform⟩ := h
    refine ⟨hparams, hrest, hform.imp_left fun hnames p hp => ?_⟩
    exact hnames p (List.mem_of_head? hp)
  | _ => exact h

/-- A type expression that is spelled as a source spells it can be written. -/
theorem TypeExpr.Spellable.writable {t : TypeExpr} (h : t.Spellable) : t.Writable := by
  induction h with
  | mk form _ ih => exact .mk form.writable ih

namespace Shape

variable {α : Type} {P : α → Prop}

/-- The parts of a function type. -/
theorem forall_parts_function {params : List (Param α)} {rest : Option (Param α)} {result : α} :
    (∀ p ∈ (function params rest result).parts, P p) ↔
      (∀ p ∈ params, P p.type) ∧ (∀ p ∈ rest, P p.type) ∧ P result := by
  simp [parts, or_imp, forall_and]

/-- The parts of an object type. -/
theorem forall_parts_object {type : ObjectType α} :
    (∀ p ∈ (object type).parts, P p) ↔
      (∀ p ∈ type.properties, P p.value) ∧ ∀ i ∈ type.indexers, P i.key ∧ P i.value := by
  simp only [parts, List.forall_mem_append, List.forall_mem_map, List.forall_mem_flatMap,
    List.forall_mem_cons, List.not_mem_nil, false_implies, implies_true, and_true]

end Shape

end Reifier
