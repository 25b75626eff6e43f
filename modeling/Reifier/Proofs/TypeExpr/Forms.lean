import Reifier.Proofs.Text.Quoted
import Reifier.Proofs.TypeExpr.Levels

/-!
# Primary forms read back

Names, references, keywords, literals and tuples are read from their words, if the type expressions
inside them are legible. A word that stands for a type as it is begins no reference, so what a word
is read as does not depend on anything else.
-/

namespace Reifier.TypeExpr

open Token (Word)
open Reifier.Parser (Reads)

variable {α : Type} {ws rest : List Word}

/-! ### Names -/

theorem reads_identifier {id : Identifier} :
    Reads identifier [id.word] rest fun id' => id'.unplaced = id.unplaced := by
  refine .nextIs_true rfl (.advance_bind fun token _ htext => .pure ?_)
  rw [Identifier.unplaced, Identifier.unplaced, htext, Identifier.word]

theorem reads_identifier_bind {id : Identifier} {f : Identifier → Parser α} {post : α → Prop}
    (hf : ∀ id' : Identifier, id'.unplaced = id.unplaced → Reads (f id') ws rest post) :
    Reads (identifier >>= f) (id.word :: ws) rest post := reads_identifier.bind hf

/-- Segments behind dots are read back. The induction is on the segments; behind the last one there
is no dot. -/
private theorem reads_segments {ids : List Identifier} (hrest : ∀ w ∈ rest.head?, w.kind ≠ .dot) :
    Reads (Parser.rounds segmentsLoop) (ids.flatMap fun id => [.sign .dot, id.word]) rest
      fun ids' => ids'.map Identifier.unplaced = ids.map Identifier.unplaced := by
  refine .rounds_of_lt fun n hn => ?_
  induction ids generalizing n with
  | nil =>
    obtain ⟨n, rfl⟩ := Nat.exists_eq_add_one_of_ne_zero (Nat.ne_zero_of_lt hn)
    refine .test_false (fun c hc => ?_) (.pure rfl)
    rw [hc.hasKind_zero_eq_false hrest, Bool.false_and]
  | cons id ids ih =>
    obtain ⟨n, rfl⟩ := Nat.exists_eq_add_one_of_ne_zero (Nat.ne_zero_of_lt hn)
    rw [List.flatMap_cons] at hn ⊢
    refine .test_true (fun c hc => ?_) (.advance_bind fun _ _ _ => ?_)
    · rw [hc.hasKind_eq, hc.hasKind_eq]
      rfl
    · refine reads_identifier_bind fun first hfirst => .bind_pure (ih n ?_) fun more hmore => ?_
      · rw [List.length_append] at hn
        exact Nat.lt_of_add_lt_add_right (hn.trans_le' (by simp))
      · rw [List.map_cons, List.map_cons, hfirst, hmore]

private theorem reads_qualifiedName {q : QualifiedName} (hrest : ∀ w ∈ rest.head?, w.kind ≠ .dot) :
    Reads qualifiedName q.words rest fun q' => q'.unplaced = q.unplaced := by
  refine reads_identifier_bind fun head hhead => ?_
  refine (reads_segments hrest).bind_pure fun tail htail => ?_
  rw [QualifiedName.unplaced, QualifiedName.unplaced, hhead, htail]

/-! ### Primary forms -/

/-- Type expressions with commas between them are read back up to a closing bracket. -/
private theorem reads_items {ts : List TypeExpr} (hts : ∀ x ∈ ts, Legible x) {w : Word}
    (hw : w.kind ≠ .comma ∧ w.kind ∉ barred 0 ∧ w.kind ∉ openers 0) :
    Reads (Parser.items w.kind unlimited.whole) (Word.separated .comma (allWords 0 ts)) (w :: rest)
      fun as => unplacedAll as = unplacedAll ts := by
  obtain ⟨hcomma, hbarred, hopener⟩ := hw
  have hitems : Reads (Parser.items w.kind unlimited.whole) (Word.separated .comma (allWords 0 ts))
      (w :: rest) fun as => List.Forall₂ Same ts as := by
    rw [allWords_eq_map]
    refine .items hcomma ⟨w, rest, rfl, rfl⟩ (fun x hx => ?_) fun x hx behind hbehind => ?_
    · obtain ⟨v, vs, hvs, hv, -⟩ := opens_wordsAt (hts x hx).opens (Nat.zero_le 5)
      exact ⟨v, vs, hvs, fun h => hopener (h ▸ hv)⟩
    · exact (hts x hx).readsAt (Nat.zero_le 5) (.of_endsItem hbehind hbarred)
  exact hitems.mono fun as => unplacedAll_eq_of_forall₂

/-- A primary form that is not in parentheses is read from its words. -/
def ReadsShape (shape : Shape TypeExpr) (rest : List Word) : Prop :=
  Reads (primaryShape unlimited.whole) (shapeWords shape) rest (SameShape shape)

theorem reads_primary {shape : Shape TypeExpr} (hopens : Opens 6 (shapeWords shape))
    (h : ReadsShape shape rest) (span : Span) :
    Reads (primary unlimited.whole) (shapeWords shape) rest (Same ⟨shape, span⟩) := by
  refine .nextIs_false (hopens.ne rest (by decide)) (.look_bind fun start => ?_)
  exact h.bind_look_pure fun s span hs => same_iff.mpr hs

/-- A tuple is read back if its items are. -/
theorem readsShape_tuple {items : List TypeExpr} (hitems : ∀ x ∈ items, Legible x) :
    ReadsShape (.tuple items) rest := by
  refine .nextKind_bind (.advance_bind fun _ _ _ => ?_)
  refine .bind (reads_items hitems ⟨?_, ?_, ?_⟩) fun all hall => ?_
  · decide
  · decide
  · decide
  · refine .expect_bind rfl fun _ => .pure ?_
    rw [SameShape, unplacedShape, unplacedShape, hall]

/-- A reference is read back, with its arguments or without any. -/
private theorem reads_generic {ref : Generic TypeExpr} (hargs : ∀ x ∈ ref.args, Legible x)
    (hstop : Stops 5 rest) :
    Reads (generic unlimited.whole) (shapeWords (.generic ref)) rest fun g =>
      SameShape (.generic ref) (.generic g) := by
  obtain ⟨name, args?⟩ := ref
  cases args? with
  | none =>
    rw [shapeWords, ← List.append_nil name.words]
    refine .bind (reads_qualifiedName (hstop.ne (by decide))) fun name' hname => ?_
    refine .nextIs_false (hstop.ne (by decide)) (.pure ?_)
    rw [SameShape, unplacedShape, unplacedShape, hname]
  | some args =>
    have hless : ∀ ws, ∀ w ∈ (between .less .greater ws ++ rest).head?, w.kind ≠ .dot := by
      rintro ws w ⟨⟩
      decide
    refine .bind (reads_qualifiedName (hless _)) fun name' hname => .nextIs_true rfl ?_
    have htypeArgs : Reads (typeArgs unlimited.whole)
        (between .less .greater (Word.separated .comma (allWords 0 args))) rest
        fun as => unplacedAll as = unplacedAll args := by
      refine .expect_bind rfl fun _ => .bind (reads_items hargs ?_) fun as has => ?_
      · decide
      · exact .expect_bind rfl fun _ => .pure has
    refine htypeArgs.bind_pure fun as has => ?_
    rw [SameShape, unplacedShape, unplacedShape, hname, has]

/-- A word is a keyword or begins a reference, if it means nothing else. -/
private theorem reads_word {w : Word} {post : Shape TypeExpr → Prop} (hw : w.kind = .identifier)
    (hwords : w.text ∉ ["true", "false", "typeof"])
    (h : Reads
      (match Keyword.ofSpelling? w.text with
        | some keyword => do
          let _ ← Parser.advance
          return .keyword keyword
        | none => return .generic (← generic unlimited.whole))
      (w :: ws) rest post) :
    Reads (primaryShape unlimited.whole) (w :: ws) rest post := by
  rw [List.mem_cons, List.mem_cons, List.mem_singleton, not_or, not_or] at hwords
  obtain ⟨htrue, hfalse, htypeof⟩ := hwords
  refine .nextKind_bind ?_
  rw [hw]
  refine .nextText_bind (.test_false (fun c hc => ?_) ?_)
  · have hword : c.isWord 0 "typeof" = false := by
      rw [hc.isWord_eq]
      simp [htypeof]
    rw [hword, Bool.false_and]
  · rw [if_neg (not_or.mpr ⟨htrue, hfalse⟩)]
    exact h

/-- A reference to a type does not begin with a word that stands for something else. -/
theorem readsShape_reference {ref : Generic TypeExpr} (hreserved : ¬ IsReserved ref.name.head.name)
    (hargs : ∀ x ∈ ref.args, Legible x) (hstop : Stops 5 rest) :
    ReadsShape (.generic ref) rest := by
  obtain ⟨ws, hws⟩ : ∃ ws, shapeWords (.generic ref) = ref.name.head.word :: ws := by
    obtain ⟨name, args?⟩ := ref
    cases args? with
    | none => exact ⟨_, rfl⟩
    | some args => exact ⟨_, rfl⟩
  obtain ⟨hkeyword, hwords⟩ := not_or.mp hreserved
  have hread := reads_generic hargs hstop
  unfold ReadsShape
  rw [hws] at hread ⊢
  refine reads_word rfl hwords ?_
  have hnone : Keyword.ofSpelling? ref.name.head.word.text = none :=
    Option.not_isSome_iff_eq_none.mp hkeyword
  rw [hnone]
  exact hread.bind_pure fun g hg => hg

theorem readsShape_keyword (keyword : Keyword) : ReadsShape (.keyword keyword) rest := by
  cases keyword with
  | existential => exact .nextKind_bind (.advance_bind fun _ _ _ => .pure rfl)
  | _ => exact reads_word rfl (by decide) (.advance_bind fun _ _ _ => .pure rfl)

/-- The two truth values are read back. -/
theorem readsShape_boolean (value : Bool) : ReadsShape (.boolean value) rest := by
  have hread : ∀ word : String, word = "true" ∨ word = "false" →
      Reads (primaryShape unlimited.whole) [⟨.identifier, word⟩] rest
        (· = .boolean (word = "true")) := by
    intro word hword
    refine .nextKind_bind (.nextText_bind (.test_false (fun c hc => ?_) ?_))
    · rw [hc.isWord_eq]
      rcases hword with rfl | rfl <;> rfl
    · rw [if_pos hword]
      exact .advance_bind fun _ _ _ => .pure rfl
  cases value with
  | true => exact (hread "true" (.inl rfl)).mono fun s hs => congrArg unplacedShape hs
  | false => exact (hread "false" (.inr rfl)).mono fun s hs => congrArg unplacedShape hs

/-- The type of a value is read back if nothing stands behind that its name goes on with. -/
theorem readsShape_typeOf {target : QualifiedName} (hstop : Stops 5 rest) :
    ReadsShape (.typeOf target) rest := by
  refine .nextKind_bind (.nextText_bind (.test_true (fun c hc => ?_) ?_))
  · rw [hc.isWord_eq, hc.hasKind_eq]
    rfl
  · refine .advance_bind fun _ _ _ => ?_
    refine (reads_qualifiedName (hstop.ne (by decide))).bind_pure fun q hq => ?_
    rw [SameShape, unplacedShape, unplacedShape, hq]

theorem readsShape_string (value : String) : ReadsShape (.string value) rest := by
  refine .nextKind_bind (.advance_bind fun token _ htext => .pure ?_)
  rw [htext, Text.unquote_quote]
  rfl

/-- A number is read as it is spelled, with its sign. -/
theorem reads_number (type : Parser TypeExpr) {spelling : String} (h : IsNumberLiteral spelling)
    (rest : List Word) :
    Reads (primaryShape type) (numberWords spelling) rest (· = .number spelling) := by
  obtain hnumber | ⟨digits, rfl, hnumber⟩ := h
  · rw [numberWords_of_isNumber hnumber]
    refine .nextKind_bind (.advance_bind fun token _ htext => .pure ?_)
    rw [htext]
  · rw [numberWords_minus]
    refine .nextKind_bind (.test_true (fun c hc => ?_) (.advance_bind fun _ _ _ => ?_))
    · rw [hc.hasKind_eq]
      rfl
    · refine .advance_bind fun token _ htext => .pure ?_
      rw [htext]

theorem readsShape_number {spelling : String} (h : IsNumberLiteral spelling) :
    ReadsShape (.number spelling) rest := by
  refine (reads_number _ h rest).mono ?_
  rintro _ rfl
  rfl

theorem readsShape_bigInt (spelling : String) : ReadsShape (.bigInt spelling) rest := by
  refine .nextKind_bind (.advance_bind fun token _ htext => .pure ?_)
  rw [htext]
  rfl

end Reifier.TypeExpr
