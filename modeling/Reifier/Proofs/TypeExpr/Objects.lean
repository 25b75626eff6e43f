import Reifier.Proofs.TypeExpr.Functions

/-!
# Object types read back

The members of an object type are read one after another, each as an indexer if a bracket stands
ahead and as a property otherwise. The properties are written before the indexers, as an object type
does not tell how they were mixed.
-/

namespace Reifier.TypeExpr

open Token (Word)
open Reifier.Parser (EndsItem Reads endsItem_close endsItem_comma)

variable {ws rest : List Word}

/-! ### Indexers -/

/-- The name of an indexer stands before its key, if there is one. -/
private theorem reads_indexerName {k : ℕ} (id : Option Identifier) (hopens : Opens k rest) :
    Reads indexerName (labelled id false []) rest fun id' =>
      id'.map Identifier.unplaced = id.map Identifier.unplaced := by
  cases id with
  | none =>
    refine .test_false (fun c hc => ?_) (.pure rfl)
    have hnamed : namedParamAhead c 0 = false := namedParamAhead_eq_false [] hopens hc
    revert hnamed
    cases hcolon : c.hasKind 1 .colon <;> simp [namedParamAhead, hcolon]
  | some id =>
    refine .test_true (fun c hc => ?_) (reads_identifier_bind fun id' hid => ?_)
    · rw [hc.hasKind_eq, hc.hasKind_eq]
      rfl
    · refine .advance_bind fun _ _ _ => .pure ?_
      rw [Option.map_some, Option.map_some, hid]

private theorem labelled_eq_append (id : Option Identifier) (ws : List Word) :
    labelled id false ws = labelled id false [] ++ ws := by
  cases id <;> rfl

/-- The words of an indexer are read back, up to places. -/
private theorem reads_indexer {i : Indexer TypeExpr} (hkey : Legible i.key)
    (hvalue : Legible i.value) (hstop : Stops 0 rest) (start : ℕ) :
    Reads (indexer unlimited.whole start) (indexerWords i) rest fun a =>
      unplacedIndexer a = unplacedIndexer i := by
  have hclose : ∀ ws, Stops 0 (.sign .bracketClose :: ws) := Stops.cons (by decide)
  have hopens : ∀ ws, Opens i.key.shape.ownLevel
      (i.key.words ++ ([.sign .bracketClose] ++ .sign .colon :: i.value.words) ++ ws) := by
    intro ws
    rw [List.append_assoc]
    exact hkey.opens.append_cons (by decide) _
  rw [indexerWords, between, labelled_eq_append, List.cons_append, List.append_assoc,
    List.append_assoc]
  refine .advance_bind fun _ _ _ => .bind (reads_indexerName i.id (hopens _)) fun id hid => ?_
  refine .bind (hkey.whole (hclose _)) fun key hsame => ?_
  refine .expect_bind rfl fun _ => .expect_bind rfl fun _ => ?_
  refine (hvalue.whole hstop).bind_look_pure fun value _ hsame' => ?_
  rw [unplacedIndexer, unplacedIndexer, hid, hsame, hsame']

/-! ### Properties -/

/-- The word of a key is read back. The cases are names and strings. -/
private theorem reads_propertyKey (key : PropertyKey) :
    Reads propertyKey [key.word] rest fun key' => key'.unplaced = key.unplaced := by
  cases key with
  | identifier id =>
    refine .nextIs_true rfl (reads_identifier_bind fun id' hid => .pure ?_)
    rw [PropertyKey.unplaced, PropertyKey.unplaced, hid]
  | string value =>
    refine .nextIs_false ?_ (.nextIs_true rfl (.advance_bind fun token _ htext => .pure ?_))
    · rintro w ⟨⟩
      exact Token.Kind.noConfusion
    · rw [htext, PropertyKey.word, Text.unquote_quote]

/-- The words of a property are read back, up to places. -/
private theorem reads_property {p : Property TypeExpr} (hvalue : Legible p.value)
    (hstop : Stops 0 rest) (start : ℕ) :
    Reads (property unlimited.whole start) (propertyWords p) rest fun a =>
      unplacedProperty a = unplacedProperty p := by
  obtain ⟨key, value, optional, span⟩ := p
  refine .bind (reads_propertyKey key) fun key' hkey => .test_false (fun c hc => ?_) ?_
  · rw [hc.hasKind_eq, hc.hasKind_eq]
    cases optional <;> rfl
  · refine reads_optional (.expect_bind rfl fun _ => ?_)
    refine (hvalue.whole hstop).bind_look_pure fun value' _ hsame => ?_
    rw [unplacedProperty, unplacedProperty, hkey, hsame]

/-! ### Members -/

/-- No sign of variance stands ahead. -/
private theorem reads_variance (hrest : ∀ w ∈ rest.head?, w.kind ≠ .plus ∧ w.kind ≠ .minus) :
    Reads variance [] rest fun _ => True := by
  refine .test_false (fun c hc => ?_) (.pure trivial)
  rw [hc.hasKind_zero_eq_false fun w hw => (hrest w hw).1,
    hc.hasKind_zero_eq_false fun w hw => (hrest w hw).2]
  rfl

/-- What a member of an object type begins with decides how it is read. -/
private theorem reads_member {w : Word} {post : (ObjectType TypeExpr → ObjectType TypeExpr) → Prop}
    (hw : w.kind ∉ [.plus, .minus, .ellipsis, .parenOpen, .less])
    (h : ∀ start, Reads
      (do
        if ← Parser.nextIs .bracketOpen then
          let i ← indexer unlimited.whole start
          return fun o => { o with indexers := i :: o.indexers }
        else
          let p ← property unlimited.whole start
          return fun o => { o with properties := p :: o.properties })
      (w :: ws) rest post) :
    Reads (member unlimited.whole) (w :: ws) rest post := by
  have hhead : ∀ kind ∈ [Token.Kind.plus, .minus, .ellipsis, .parenOpen, .less],
      ∀ u ∈ ((w :: ws) ++ rest).head?, u.kind ≠ kind := by
    rintro kind hkind u ⟨⟩ rfl
    exact hw hkind
  have hvariance := reads_variance fun u hu =>
    ⟨hhead .plus (by decide) u hu, hhead .minus (by decide) u hu⟩
  refine .look_bind fun start => hvariance.bind fun _ _ => .nextIs_false (hhead _ (by decide)) ?_
  refine .test_false (fun c hc => ?_) (h start)
  rw [hc.hasKind_zero_eq_false (hhead _ (by decide)),
    hc.hasKind_zero_eq_false (hhead _ (by decide))]
  rfl

section Members

variable {v : Word} {bars : Bool} {spelling : String} {properties : List (Property TypeExpr)}
  {indexers : List (Indexer TypeExpr)}

/-- The words of an indexer are read as a member that puts it in front of the others. -/
private theorem reads_indexerMember {i : Indexer TypeExpr} (hkey : Legible i.key)
    (hvalue : Legible i.value) (hstop : Stops 0 rest) :
    Reads (member unlimited.whole) (indexerWords i) rest fun add =>
      ∀ type, SameObject ⟨[], indexers, bars⟩ type →
        SameObject ⟨[], i :: indexers, bars⟩ (add type) := by
  refine reads_member ?_ fun start => .nextIs_true rfl ?_
  · decide
  · refine (reads_indexer hkey hvalue hstop start).bind_pure fun a ha type htype => ?_
    simp only [SameObject, unplacedObject, ObjectType.mk.injEq, List.map_cons] at htype ⊢
    exact ⟨htype.1, congrArg₂ List.cons ha htype.2.1, htype.2.2⟩

/-- The words of a property are read as a member that puts it in front of the others. -/
private theorem reads_propertyMember {p : Property TypeExpr} (hvalue : Legible p.value)
    (hstop : Stops 0 rest) :
    Reads (member unlimited.whole) (propertyWords p) rest fun add =>
      ∀ type, SameObject ⟨properties, indexers, bars⟩ type →
        SameObject ⟨p :: properties, indexers, bars⟩ (add type) := by
  refine reads_member ?_ fun start => .nextIs_false ?_ ?_
  · rcases p.key.kind_word with h | h <;> rw [h] <;> decide
  · rintro w ⟨⟩
    rcases p.key.kind_word with h | h <;> rw [h] <;> decide
  · refine (reads_property hvalue hstop start).bind_pure fun a ha type htype => ?_
    simp only [SameObject, unplacedObject, ObjectType.mk.injEq, List.map_cons] at htype ⊢
    exact ⟨congrArg₂ List.cons ha htype.1, htype.2⟩

/-- Nothing is written for no members only. -/
private theorem sameObject_nil (h : propertiesWords properties ++ indexersWords indexers = []) :
    SameObject ⟨properties, indexers, bars⟩ ⟨[], [], bars⟩ := by
  rw [propertiesWords_eq_map, indexersWords_eq_map, List.append_eq_nil_iff, List.map_eq_nil_iff,
    List.map_eq_nil_iff] at h
  obtain ⟨rfl, rfl⟩ := h
  exact rfl

/-- The first member is read, and then those behind a comma. -/
private theorem reads_membersLoop_cons {w : Word} {post post' : ObjectType TypeExpr → Prop}
    {parts : List (List Word)} (hv : v.kind = .braceClose ∨ v.kind = .barBraceClose)
    (hw : w.kind ≠ v.kind)
    (hmember : ∀ behind, EndsItem v.kind behind →
      Reads (member unlimited.whole) (w :: ws) behind fun add =>
        ∀ type, post type → post' (add type))
    (hnil : parts = [] → post ⟨[], [], bars⟩)
    (hmore : ∀ n, (Word.separated .comma parts).length < n →
      Reads (membersLoop unlimited.whole bars v.kind spelling n) (Word.separated .comma parts)
        (v :: rest) post)
    (n : ℕ) (hn : (Word.separated .comma ((w :: ws) :: parts)).length < n) :
    Reads (membersLoop unlimited.whole bars v.kind spelling n)
      (Word.separated .comma ((w :: ws) :: parts)) (v :: rest) post' := by
  obtain ⟨n, rfl⟩ := Nat.exists_eq_add_one_of_ne_zero (Nat.ne_zero_of_lt hn)
  have hpos : 0 < (w :: ws).length := Nat.succ_pos _
  have hread := hmore n
    ((Word.length_separated_lt .comma hpos parts).trans_le (Nat.le_of_lt_succ hn))
  rw [Word.separated_cons]
  refine .nextIs_false ?_ (.test_false (fun c hc => hc.isEmpty_eq) ?_)
  · rintro u ⟨⟩
    exact hw
  · cases parts with
    -- Behind the last member there is no comma, and the closing brace ends the loop.
    | nil =>
      refine .bind (hmember _ (endsItem_close rfl rest)) fun add hadd => .test_false ?_ ?_
      · intro c hc
        rw [hc.hasKind_eq, hc.hasKind_eq]
        rcases hv with h | h <;> simp [h]
      · refine .test_true (fun c hc => ?_) (.pure (hadd _ (hnil rfl)))
        rw [hc.hasKind_eq]
        exact decide_eq_true rfl
    | cons part parts =>
      refine .bind (hmember _ (endsItem_comma _ _)) fun add hadd => .test_true ?_ ?_
      · intro c hc
        rw [hc.hasKind_eq]
        rfl
      · rw [Word.separated_cons] at hread
        exact .advance_bind fun _ _ _ => hread.bind_pure hadd

/-- **The members of an object type are read back.** The properties stand before the indexers; the
induction is on the first list and then on the second, and the rounds are enough as each member has
a word. -/
private theorem reads_membersLoop (hproperties : ∀ p ∈ properties, Legible p.value)
    (hindexers : ∀ i ∈ indexers, Legible i.key ∧ Legible i.value)
    (hv : v.kind = .braceClose ∨ v.kind = .barBraceClose) (n : ℕ)
    (hn : (Word.separated .comma
      (propertiesWords properties ++ indexersWords indexers)).length < n) :
    Reads (membersLoop unlimited.whole bars v.kind spelling n)
      (Word.separated .comma (propertiesWords properties ++ indexersWords indexers)) (v :: rest)
      (SameObject ⟨properties, indexers, bars⟩) := by
  have hclose : v.kind ∉ barred 0 := by rcases hv with h | h <;> rw [h] <;> decide
  induction properties generalizing n with
  | nil =>
    induction indexers generalizing n with
    | nil =>
      obtain ⟨n, rfl⟩ := Nat.exists_eq_add_one_of_ne_zero (Nat.ne_zero_of_lt hn)
      refine .test_true (fun c hc => ?_) (.pure rfl)
      rw [hc.hasKind_eq]
      exact decide_eq_true rfl
    | cons i indexers ih =>
      obtain ⟨⟨hkey, hvalue⟩, hindexers⟩ := List.forall_mem_cons.mp hindexers
      refine reads_membersLoop_cons hv ?_ (fun behind hbehind => ?_) sameObject_nil
        (ih hindexers) n hn
      · rcases hv with h | h <;> rw [h] <;> exact Token.Kind.noConfusion
      · exact reads_indexerMember hkey hvalue (.of_endsItem hbehind hclose)
  | cons p properties ih =>
    obtain ⟨hvalue, hproperties⟩ := List.forall_mem_cons.mp hproperties
    refine reads_membersLoop_cons hv ?_ (fun behind hbehind => ?_) sameObject_nil
      (ih hproperties) n hn
    · rcases hv with h | h <;> rcases p.key.kind_word with h' | h' <;> rw [h, h'] <;>
        exact Token.Kind.noConfusion
    · exact reads_propertyMember hvalue (.of_endsItem hbehind hclose)

end Members

/-! ### Object types -/

/-- Braces with bars inside are those of an exact object type. -/
private theorem reads_objectType {type : ObjectType TypeExpr}
    (hproperties : ∀ p ∈ type.properties, Legible p.value)
    (hindexers : ∀ i ∈ type.indexers, Legible i.key ∧ Legible i.value) :
    Reads (objectType unlimited.whole) (shapeWords (.object type)) rest fun a =>
      SameObject type a.1 := by
  obtain ⟨properties, indexers, bars⟩ := type
  have hmembers : ∀ (v : Word) (spelling : String),
      v.kind = .braceClose ∨ v.kind = .barBraceClose →
        Reads (Parser.rounds (membersLoop unlimited.whole bars v.kind spelling))
          (Word.separated .comma (propertiesWords properties ++ indexersWords indexers)) (v :: rest)
          (SameObject ⟨properties, indexers, bars⟩) := fun v spelling hv =>
    .rounds_of_lt (reads_membersLoop hproperties hindexers hv)
  refine .advance_bind fun opening hkind _ => ?_
  cases bars with
  | true =>
    have hexact : opening.kind = .braceBarOpen := hkind
    dsimp only
    rw [if_pos hexact]
    refine .bind (hmembers (.sign .barBraceClose) _ (.inr rfl)) fun object hobject => ?_
    exact .advance_bind fun _ _ _ => .look_bind fun _ => .pure hobject
  | false =>
    have hexact : opening.kind ≠ .braceBarOpen := hkind.trans_ne Token.Kind.noConfusion
    dsimp only
    rw [if_neg hexact]
    refine .bind (hmembers (.sign .braceClose) _ (.inl rfl)) fun object hobject => ?_
    exact .advance_bind fun _ _ _ => .look_bind fun _ => .pure hobject

/-- An object type is read back if its members are. -/
theorem readsShape_object {type : ObjectType TypeExpr}
    (hproperties : ∀ p ∈ type.properties, Legible p.value)
    (hindexers : ∀ i ∈ type.indexers, Legible i.key ∧ Legible i.value) :
    ReadsShape (.object type) rest := by
  have hread : Reads (objectType unlimited.whole) (shapeWords (.object type)) rest fun a =>
      SameShape (.object type) (.object a.1) :=
    (reads_objectType hproperties hindexers).mono fun _ => SameObject.shape
  obtain ⟨properties, indexers, bars⟩ := type
  cases bars with
  | true => exact .nextKind_bind (hread.bind_pure fun a ha => ha)
  | false => exact .nextKind_bind (hread.bind_pure fun a ha => ha)

end Reifier.TypeExpr
