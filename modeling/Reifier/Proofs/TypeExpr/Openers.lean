import Reifier.Proofs.TypeExpr.Spelling

/-!
# How type expressions are written

A type expression is written with valid words, none of which ends a statement (`inner_words`), so
they can be told apart again. What it begins with depends on its level only: a form of a level that
is tight enough begins neither with the question mark nor with the operators of looser ones, and no
form begins like a name with a colon behind it (`opens_words`). This is what the parser looks ahead
for.
-/

namespace Reifier

/-! ### The words are valid -/

namespace Token

/-- Signs that end no statement. -/
def IsInnerSign (kind : Kind) : Prop := kind ∈ punctuation.map (·.1) ∧ kind ≠ .semicolon

instance (kind : Kind) : Decidable (IsInnerSign kind) := inferInstanceAs (Decidable (_ ∧ _))

/-- A valid word that ends no statement. -/
structure Word.Inner (w : Word) : Prop where
  valid : w.Valid
  ne_semicolon : w.kind ≠ .semicolon

namespace Word.Inner

private theorem sign {kind : Kind} (h : IsInnerSign kind) :
    (Word.sign kind).Inner := ⟨.sign h.1, h.2⟩

private theorem name {text : String} (h : Name.isIdentifier text = true) :
    (⟨.identifier, text⟩ : Word).Inner := ⟨.name h, Kind.noConfusion⟩

private theorem quoted (value : String) : (⟨.string, Text.quote value⟩ : Word).Inner :=
  ⟨.quoted value, Kind.noConfusion⟩

private theorem number {kind : Kind} {text : String} (hkind : kind = .number ∨ kind = .bigInt)
    (h : IsNumber kind text) : (⟨kind, text⟩ : Word).Inner := by
  refine ⟨.number hkind h, ?_⟩
  rcases hkind with rfl | rfl
  · exact Kind.noConfusion
  · exact Kind.noConfusion

end Word.Inner

end Token

namespace TypeExpr

open Token (Word)

section Inner

variable {ws : List Word}

/-- Brackets around words that end no statement end none. -/
private theorem inner_between {opening closing : Token.Kind} (hopening : Token.IsInnerSign opening)
    (hclosing : Token.IsInnerSign closing) (h : ∀ w ∈ ws, w.Inner) :
    ∀ w ∈ between opening closing ws, w.Inner := by
  refine List.forall_mem_cons.mpr ⟨.sign hopening, List.forall_mem_append.mpr ⟨h, ?_⟩⟩
  exact List.forall_mem_singleton.mpr (.sign hclosing)

/-- Separators between words that end no statement end none. -/
private theorem inner_separated {separator : Token.Kind} (hseparator : Token.IsInnerSign separator)
    {parts : List (List Word)} (h : ∀ ws ∈ parts, ∀ w ∈ ws, w.Inner) :
    ∀ w ∈ Word.separated separator parts, w.Inner :=
  Word.forall_mem_separated (.sign hseparator) h

/-- A member ends no statement if its key and its value do not. -/
private theorem inner_keyed {key : Word} (hkey : key.Inner) (optional : Bool)
    (h : ∀ w ∈ ws, w.Inner) : ∀ w ∈ keyed key optional ws, w.Inner := by
  refine List.forall_mem_cons.mpr ⟨hkey, List.forall_mem_append.mpr ⟨?_, ?_⟩⟩
  · split
    · exact List.forall_mem_singleton.mpr (.sign (by decide))
    · exact List.forall_mem_nil _
  · exact List.forall_mem_cons.mpr ⟨.sign (by decide), h⟩

/-- A parameter ends no statement if its name and its type do not. -/
private theorem inner_labelled {name : Option Identifier} (hname : ∀ id ∈ name, id.Spellable)
    (optional : Bool) (h : ∀ w ∈ ws, w.Inner) : ∀ w ∈ labelled name optional ws, w.Inner := by
  cases name with
  | none => exact h
  | some id => exact inner_keyed (.name (hname id rfl)) optional h

/-- Parentheses around a type expression end no statement. -/
private theorem inner_wordsAt {t : TypeExpr} (h : ∀ w ∈ t.words, w.Inner) (k : ℕ) :
    ∀ w ∈ wordsAt k t, w.Inner := by
  unfold wordsAt enclose
  split
  · exact inner_between (by decide) (by decide) h
  · exact h

/-- The names and the dots of a qualified name end no statement. -/
private theorem inner_qualifiedName {q : QualifiedName} (h : q.Spellable) :
    ∀ w ∈ q.words, w.Inner := by
  obtain ⟨hhead, htail⟩ := List.forall_mem_cons.mp h
  refine List.forall_mem_cons.mpr ⟨.name hhead, fun w hw => ?_⟩
  obtain ⟨id, hid, hw⟩ := List.mem_flatMap.mp hw
  rcases List.mem_cons.mp hw with rfl | hw
  · exact .sign (by decide)
  · rw [List.mem_singleton.mp hw]
    exact .name (htail id hid)

private theorem inner_keyword (keyword : Keyword) : keyword.word.Inner := by
  cases keyword <;> first | exact .name (by decide) | exact .sign (by decide)

/-- A number without a sign is one word. -/
theorem numberWords_of_isNumber {spelling : String} (h : Token.IsNumber .number spelling) :
    numberWords spelling = [⟨.number, spelling⟩] := by
  obtain ⟨c, cs, hchars, hc, -⟩ := h
  unfold numberWords
  split
  · rename_i hminus
    obtain ⟨rfl, -⟩ := List.cons.inj (hchars.symm.trans hminus)
    exact absurd hc (by decide)
  · rfl

/-- A negative number is two words. -/
theorem numberWords_minus (digits : String) :
    numberWords ("-" ++ digits) = [.sign .minus, ⟨.number, digits⟩] := by
  have hchars : ("-" ++ digits).toList = '-' :: digits.toList := by
    rw [String.toList_append]
    rfl
  unfold numberWords
  rw [hchars]
  simp only [String.ofList_toList]

/-- A number ends no statement. -/
private theorem inner_numberWords {spelling : String} (h : IsNumberLiteral spelling) :
    ∀ w ∈ numberWords spelling, w.Inner := by
  obtain hnumber | ⟨digits, rfl, hnumber⟩ := h
  · rw [numberWords_of_isNumber hnumber]
    exact List.forall_mem_singleton.mpr (.number (.inl rfl) hnumber)
  · rw [numberWords_minus]
    refine List.forall_mem_cons.mpr ⟨.sign (by decide), ?_⟩
    exact List.forall_mem_singleton.mpr (.number (.inl rfl) hnumber)

private theorem inner_allWords {ts : List TypeExpr} (h : ∀ t ∈ ts, ∀ w ∈ t.words, w.Inner) (k : ℕ) :
    ∀ ws ∈ allWords k ts, ∀ w ∈ ws, w.Inner := by
  rw [allWords_eq_map]
  exact List.forall_mem_map.mpr fun t ht => inner_wordsAt (h t ht) k

theorem inner_paramWords {p : Param TypeExpr} (hp : p.Spellable)
    (h : ∀ w ∈ p.type.words, w.Inner) : ∀ w ∈ paramWords p, w.Inner := by
  refine inner_labelled (fun id hid => ?_) p.optional h
  unfold Param.Spellable at hp
  rw [Option.mem_def.mp hid] at hp
  exact hp

/-- A function type ends no statement if its parameters and its result do not. -/
theorem inner_functionWords {params : List (Param TypeExpr)} {rest : Option (Param TypeExpr)}
    {result : TypeExpr} (hparams : ∀ p ∈ params, ∀ w ∈ paramWords p, w.Inner)
    (hrest : ∀ p ∈ rest, ∀ w ∈ paramWords p, w.Inner) (hresult : ∀ w ∈ result.words, w.Inner) :
    ∀ w ∈ shapeWords (.function params rest result), w.Inner := by
  refine List.forall_mem_append.mpr ⟨?_, List.forall_mem_cons.mpr ⟨.sign (by decide), hresult⟩⟩
  refine inner_between (by decide) (by decide) (inner_separated (by decide) ?_)
  rw [paramsWords_eq_map, restWords_eq_map]
  refine List.forall_mem_append.mpr ⟨List.forall_mem_map.mpr hparams, ?_⟩
  refine List.forall_mem_map.mpr fun p hp => List.forall_mem_cons.mpr ⟨.sign (by decide), ?_⟩
  exact hrest p (Option.mem_toList.mp hp)

/-- The members of an object type end no statement if their keys and values do not. -/
private theorem inner_objectWords {type : ObjectType TypeExpr}
    (form : (Shape.object type).Spellable)
    (hproperties : ∀ p ∈ type.properties, ∀ w ∈ p.value.words, w.Inner)
    (hindexers : ∀ i ∈ type.indexers,
      (∀ w ∈ i.key.words, w.Inner) ∧ ∀ w ∈ i.value.words, w.Inner) :
    ∀ ws ∈ propertiesWords type.properties ++ indexersWords type.indexers, ∀ w ∈ ws, w.Inner := by
  rw [propertiesWords_eq_map, indexersWords_eq_map]
  refine List.forall_mem_append.mpr ⟨?_, ?_⟩
  · refine List.forall_mem_map.mpr fun p hp => inner_keyed ?_ _ (hproperties p hp)
    have hkey := form.1 p hp
    cases hp : p.key with
    | identifier id =>
      rw [hp] at hkey
      exact .name hkey
    | string value => exact .quoted value
  · refine List.forall_mem_map.mpr fun i hi => List.forall_mem_append.mpr ⟨?_, ?_⟩
    · have hkey := inner_labelled (form.2 i hi) false (hindexers i hi).1
      exact inner_between (by decide) (by decide) hkey
    · exact List.forall_mem_cons.mpr ⟨.sign (by decide), (hindexers i hi).2⟩

/-- A type expression is written with valid words, none of which is a semicolon. -/
theorem inner_words {t : TypeExpr} (h : t.Writable) : ∀ w ∈ t.words, w.Inner := by
  induction h with
  | @mk shape span form parts ih =>
    change ∀ w ∈ shapeWords shape, w.Inner
    cases shape with
    | keyword word => exact List.forall_mem_singleton.mpr (inner_keyword word)
    -- => The words of the parts are inner ones by induction, and around them are signs.
    | function params rest result =>
      obtain ⟨hparams, hrest, -⟩ := form
      obtain ⟨ihparams, ihrest, ihresult⟩ := Shape.forall_parts_function.mp ih
      exact inner_functionWords
        (fun p hp => inner_paramWords (hparams p hp) (ihparams p hp))
        (fun p hp => inner_paramWords (hrest p hp) (ihrest p hp)) ihresult
    | typeOf target =>
      exact List.forall_mem_cons.mpr ⟨.name (by decide), inner_qualifiedName form⟩
    | array element =>
      have helement := inner_wordsAt (List.forall_mem_singleton.mp ih) 4
      refine List.forall_mem_append.mpr ⟨helement, ?_⟩
      exact inner_between (by decide) (by decide) (List.forall_mem_nil _)
    | nullable inner =>
      have hinner := inner_wordsAt (List.forall_mem_singleton.mp ih) 3
      exact List.forall_mem_cons.mpr ⟨.sign (by decide), hinner⟩
    | tuple items =>
      refine inner_between (by decide) (by decide) ?_
      exact inner_separated (by decide) (inner_allWords ih 0)
    | union members => exact inner_separated (by decide) (inner_allWords ih 2)
    | intersection members => exact inner_separated (by decide) (inner_allWords ih 3)
    | object type =>
      obtain ⟨ihproperties, ihindexers⟩ := Shape.forall_parts_object.mp ih
      have hmembers := inner_objectWords form ihproperties ihindexers
      obtain ⟨properties, indexers, bars⟩ := type
      cases bars with
      | _ => exact inner_between (by decide) (by decide) (inner_separated (by decide) hmembers)
    | generic ref =>
      obtain ⟨name, args?⟩ := ref
      have hname := inner_qualifiedName form.1
      cases args? with
      | none => exact hname
      | some args =>
        refine List.forall_mem_append.mpr ⟨hname, ?_⟩
        exact inner_between (by decide) (by decide)
          (inner_separated (by decide) (inner_allWords ih 0))
    | string value => exact List.forall_mem_singleton.mpr (.quoted value)
    | number spelling => exact inner_numberWords form
    | boolean value => cases value <;> exact List.forall_mem_singleton.mpr (.name (by decide))
    | bigInt spelling => exact List.forall_mem_singleton.mpr (.number (.inr rfl) form)
    | indexedAccess base index =>
      obtain ⟨ihbase, ihindex⟩ := List.forall_mem_cons.mp ih
      refine List.forall_mem_append.mpr ⟨inner_wordsAt ihbase 4, ?_⟩
      exact inner_between (by decide) (by decide) (List.forall_mem_singleton.mp ihindex)

end Inner

/-! ### How the words begin -/

/-- The kinds of words that a form of level `k` or tighter may begin with; those of level `6` are
the primary forms without parentheses. -/
def openers (k : ℕ) : List Token.Kind :=
  (if k ≤ 3 then [.question] else []) ++ ((if k ≤ 5 then [.parenOpen] else []) ++
    [.identifier, .string, .number, .minus, .bigInt, .star, .braceOpen, .braceBarOpen,
      .bracketOpen])

/-- A looser form may begin with whatever a tighter one begins with. -/
private theorem openers_subset {j k : ℕ} (hle : j ≤ k) : openers k ⊆ openers j := by
  have hsub : ∀ (m : ℕ) (kind : Token.Kind),
      (if k ≤ m then [kind] else []) ⊆ if j ≤ m then [kind] else [] := by
    intro m kind
    split_ifs with hk hj
    · exact List.Subset.refl _
    · exact absurd (hle.trans hk) hj
    · exact List.nil_subset _
    · exact List.Subset.refl _
  intro kind h
  rcases List.mem_append.mp h with h | h
  · exact List.mem_append_left _ (hsub 3 _ h)
  · rcases List.mem_append.mp h with h | h
    · exact List.mem_append_right _ (List.mem_append_left _ (hsub 5 _ h))
    · exact List.mem_append_right _ (List.mem_append_right _ h)

/-- The words begin as those of a form of level `k` or tighter, and not as a key does. -/
def Opens (k : ℕ) (ws : List Word) : Prop :=
  ∃ w vs, ws = w :: vs ∧ w.kind ∈ openers k ∧
    (w.kind = .identifier → ∀ v ∈ vs.head?, v.kind ≠ .colon ∧ v.kind ≠ .question)

namespace Opens

variable {j k : ℕ} {ws : List Word}

/-- What opens a tighter form opens a looser one. -/
theorem mono (h : Opens k ws) (hle : j ≤ k) : Opens j ws := by
  obtain ⟨w, vs, rfl, hw, hvs⟩ := h
  exact ⟨w, vs, rfl, openers_subset hle hw, hvs⟩

/-- What opens a form opens it whatever follows, unless that makes its first word a key. -/
theorem append (h : Opens k ws) {rest : List Word}
    (hrest : ∀ v ∈ rest.head?, v.kind ≠ .colon ∧ v.kind ≠ .question) : Opens k (ws ++ rest) := by
  obtain ⟨w, ws, rfl, hw, hws⟩ := h
  refine ⟨w, ws ++ rest, rfl, hw, fun hkind v hv => ?_⟩
  cases ws with
  | nil => exact hrest v hv
  | cons x ws => exact hws hkind v hv

theorem append_cons (h : Opens k ws) {v : Word} (hv : v.kind ≠ .colon ∧ v.kind ≠ .question)
    (vs : List Word) : Opens k (ws ++ v :: vs) := by
  refine h.append ?_
  rintro v ⟨⟩
  exact hv

/-- A form does not begin with a kind that is no opener of its level. -/
theorem ne (h : Opens k ws) (rest : List Word) {kind : Token.Kind} (hkind : kind ∉ openers k) :
    ∀ w ∈ (ws ++ rest).head?, w.kind ≠ kind := by
  obtain ⟨w, vs, rfl, hw, -⟩ := h
  rintro w ⟨⟩ rfl
  exact hkind hw

end Opens

theorem opens_between {k : ℕ} {opening : Token.Kind}
    (h : opening ∈ openers k ∧ opening ≠ .identifier) {closing : Token.Kind} (ws : List Word) :
    Opens k (between opening closing ws) :=
  ⟨.sign opening, _, rfl, h.1, fun hkind => absurd hkind h.2⟩

private theorem opens_singleton {k : ℕ} {kind : Token.Kind} (h : kind ∈ openers k) (text : String) :
    Opens k [⟨kind, text⟩] :=
  ⟨⟨kind, text⟩, [], rfl, h, fun _ _ hv => nomatch hv⟩

/-- A qualified name opens with an identifier, and a dot or nothing behind it. -/
private theorem opens_qualifiedName (q : QualifiedName) : Opens 6 q.words := by
  refine ⟨q.head.word, _, rfl, (by decide : Token.Kind.identifier ∈ openers 6), fun _ v hv => ?_⟩
  cases htail : q.tail with
  | nil =>
    rw [htail] at hv
    cases hv
  | cons id ids =>
    rw [htail] at hv
    cases hv
    exact ⟨Token.Kind.noConfusion, Token.Kind.noConfusion⟩

/-- A primary form does not begin with a parenthesis, and reads as no key. -/
theorem opens_primary {shape : Shape TypeExpr} (form : shape.Writable) (hlevel : shape.level = 5) :
    Opens 6 (shapeWords shape) := by
  cases shape with
  | keyword word => cases word <;> exact opens_singleton (by decide) _
  | typeOf target =>
    refine ⟨_, _, rfl, (by decide : Token.Kind.identifier ∈ openers 6), fun _ v hv => ?_⟩
    cases hv
    exact ⟨Token.Kind.noConfusion, Token.Kind.noConfusion⟩
  | tuple items => exact opens_between (by decide) _
  | object type =>
    obtain ⟨properties, indexers, bars⟩ := type
    cases bars <;> exact opens_between (by decide) _
  | generic ref =>
    obtain ⟨name, args?⟩ := ref
    cases args? with
    | none => exact opens_qualifiedName name
    | some args => exact (opens_qualifiedName name).append_cons (by decide) _
  | string value => exact opens_singleton (by decide) _
  | number spelling =>
    -- A number may have a sign in front, which is a word of its own.
    obtain hnumber | ⟨digits, rfl, -⟩ := form
    · rw [shapeWords, numberWords_of_isNumber hnumber]
      exact opens_singleton (by decide) _
    · rw [shapeWords, numberWords_minus]
      exact ⟨_, _, rfl, (by decide : Token.Kind.minus ∈ openers 6), nofun⟩
  | boolean value => exact opens_singleton (by decide) _
  | bigInt spelling => exact opens_singleton (by decide) _
  | _ => cases hlevel

/-- A form opens at any level at which it may stand, with its parentheses or without them. -/
theorem opens_wordsAt {t : TypeExpr} (h : Opens t.shape.ownLevel t.words) {k : ℕ} (hk : k ≤ 5) :
    Opens k (wordsAt k t) := by
  unfold wordsAt enclose
  split
  · exact (opens_between (by decide : _ ∈ openers 5 ∧ _) _).mono hk
  · rename_i hlevel
    exact h.mono ((Nat.le_of_not_lt hlevel).trans t.shape.level_le_ownLevel)

/-- Operands open with the first of them. -/
private theorem opens_separated {k : ℕ} {operator : Token.Kind}
    (hoperator : operator ≠ .colon ∧ operator ≠ .question) {ws : List Word} (h : Opens k ws)
    (parts : List (List Word)) : Opens k (Word.separated operator (ws :: parts)) := by
  cases parts with
  | nil => rwa [Word.separated_singleton]
  | cons part parts =>
    rw [Word.separated_cons_cons]
    exact h.append_cons hoperator _

/-- Unions and intersections begin with their first member. -/
private theorem opens_members {k : ℕ} (hk : k ≤ 5) (operator : Token.Kind)
    (hoperator : operator ≠ .colon ∧ operator ≠ .question) {members : List TypeExpr}
    (hlength : 2 ≤ members.length) (h : ∀ t ∈ members, Opens t.shape.ownLevel t.words) :
    Opens k (Word.separated operator (allWords k members)) := by
  obtain ⟨t, ts, rfl⟩ := List.exists_cons_of_length_pos (by omega : 0 < members.length)
  exact opens_separated hoperator (opens_wordsAt (h t List.mem_cons_self) hk) _

theorem opens_function (params : List (Param TypeExpr)) (rest : Option (Param TypeExpr))
    (result : TypeExpr) : Opens 5 (shapeWords (.function params rest result)) :=
  (opens_between (by decide : _ ∈ openers 5 ∧ _) _).append_cons (by decide) _

/-- A form begins as one of its level. -/
theorem opens_words {t : TypeExpr} (h : t.Writable) : Opens t.shape.ownLevel t.words := by
  induction h with
  | @mk shape span form parts ih =>
    -- A form that begins with a looser one begins with a parenthesis, as `opens_wordsAt` says.
    change Opens shape.ownLevel (shapeWords shape)
    cases shape with
    | function params rest result => exact opens_function params rest result
    | array element =>
      have helement := opens_wordsAt (ih element List.mem_cons_self) (by decide : 4 ≤ 5)
      exact helement.append_cons (by decide) _
    | nullable inner => exact ⟨_, _, rfl, (by decide : Token.Kind.question ∈ openers 3), nofun⟩
    | union members =>
      have hmembers := opens_members (by decide : 2 ≤ 5) .pipe (by decide) form ih
      exact hmembers.mono (by decide : 1 ≤ 2)
    | intersection members =>
      have hmembers := opens_members (by decide : 3 ≤ 5) .ampersand (by decide) form ih
      exact hmembers.mono (by decide : 2 ≤ 3)
    | indexedAccess base index =>
      have hbase := opens_wordsAt (ih base List.mem_cons_self) (by decide : 4 ≤ 5)
      exact hbase.append_cons (by decide) _
    | _ => exact (opens_primary form rfl).mono (by decide : 5 ≤ 6)

end TypeExpr

end Reifier
