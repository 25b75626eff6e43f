import Reifier.Proofs.Parser.Triple
import Reifier.Proofs.Program.Agreement
import Reifier.Proofs.Program.Declarations
import Reifier.Proofs.Program.Limit

/-!
# The order of declarations

The declarations of a program that has been read are listed in the order of its source: each starts
further on than the ones before it (`pairwise_start_of_parse`). Every declaration starts at a token
that is taken for it, so the places where declarations start are some of the places where tokens
start, in the same order.
-/

namespace Reifier

/-! ### Where tokens start -/

/-- Placed tokens do not begin in front of the offset. -/
private theorem Token.le_start_of_mem_place {ps : List Piece} {offset : ℕ} {t : Token}
    (h : t ∈ place offset ps) : offset ≤ t.span.start := by
  induction ps generalizing offset with
  | nil => cases h
  | cons p ps ih =>
    rcases List.mem_cons.mp h with rfl | h
    · exact le_rfl
    · exact (Nat.le_add_right _ _).trans (ih h)

/-- Each token starts further on than the ones before it. -/
theorem Token.pairwise_place (offset : ℕ) (ps : List Piece) :
    (place offset ps).Pairwise fun t u => t.span.start < u.span.start := by
  induction ps generalizing offset with
  | nil => exact .nil
  | cons p ps ih =>
    refine List.pairwise_cons.mpr ⟨fun t ht => ?_, ih _⟩
    have hlength : 0 < Text.byteLength p.chars :=
      p.first.utf8Size_pos.trans_le (Nat.le_add_right _ _)
    exact (Nat.lt_add_of_pos_right hlength).trans_le (Token.le_start_of_mem_place ht)

/-- The tokens of lexemes are some of the tokens they come from. -/
theorem Lexeme.sublist_of_ofTokensAfter (before : Trivia) (ts : List Token) :
    ((ofTokensAfter before ts).1.map Lexeme.token).Sublist ts := by
  induction ts generalizing before with
  | nil => exact .slnil
  | cons t ts ih =>
    unfold ofTokensAfter
    split_ifs
    · exact (ih _).cons t
    · exact (ih Trivia.none).cons_cons t

/-! ### Where the lexemes ahead start -/

namespace Cursor

/-- The places where the lexemes ahead start. -/
def starts (c : Cursor) : List ℕ := c.rest.map (·.token.span.start)

/-- Moving on never brings back a lexeme. -/
private theorem Reaches.starts_sublist {c d : Cursor} (h : c.Reaches d) :
    d.starts.Sublist c.starts := by
  have hmap := h.tokens_sublist.map (·.span.start)
  rwa [tokens, tokens, List.map_map, List.map_map] at hmap

/-- What has been found starts before the lexemes ahead, and all of it at places of `all`, in the
order of these. -/
def Behind (all found : List ℕ) (c : Cursor) : Prop := (found ++ c.starts).Sublist all

theorem Behind.of_reaches {all found : List ℕ} {c d : Cursor} (h : Behind all found c)
    (hreach : c.Reaches d) : Behind all found d :=
  (hreach.starts_sublist.append_left found).trans h

private theorem Behind.length_le {all found : List ℕ} {c : Cursor} (h : Behind all found c) :
    c.rest.length ≤ all.length := by
  have hlength := List.Sublist.length_le h
  rw [List.length_append, starts, List.length_map] at hlength
  omega

/-- What is found may be forgotten again. -/
theorem Behind.of_append {all found more : List ℕ} {c : Cursor} (h : Behind all (found ++ more) c) :
    Behind all found c := by
  refine .trans ?_ h
  rw [List.append_assoc]
  exact (List.sublist_append_right more c.starts).append_left found

end Cursor

namespace Program

open Reifier.TypeExpr
open Reifier.Parser (Agrees Triple lt_length_of_hasKind lt_length_of_isWord le_length_of_or)
open Cursor (Behind)

variable {α : Type} {all found : List ℕ} {fail : Cursor → Prop}
  {type : Parser TypeExpr}

/-- A parser that moves on finds nothing by that. -/
private theorem moves_of_le {least : ℕ} {p : Parser α} (h : Agrees True least all.length p p)
    (hfail : ∀ c, Behind all found c → fail c) :
    Triple (fun c => Behind all found c ∧ least ≤ c.rest.length) p (fun _ => Behind all found)
      fail :=
  .of_agrees (fun _ _ => Behind.of_reaches)
    (fun _ hc => ⟨hc.1, hc.2, h.anti le_rfl hc.1.length_le⟩) hfail

private theorem moves {p : Parser α} (h : Agrees True 0 all.length p p)
    (hfail : ∀ c, Behind all found c → fail c) :
    Triple (Behind all found) p (fun _ => Behind all found) fail :=
  (moves_of_le h hfail).anti fun _ hc => ⟨hc, Nat.zero_le _⟩

/-- A token that is passed over is no find. -/
private theorem moves_advance_bind {β : Type} {f : Token → Parser β} {post : β → Cursor → Prop}
    (hf : ∀ t, Triple (Behind all found) (f t) post fail) :
    Triple (Behind all found) (Parser.advance >>= f) post fail :=
  .advance_bind (fun _ _ _ hc h => hc.of_reaches (.take h)) hf

/-- What is read from a token on starts where the token does. -/
private theorem finds_advance_bind {f : Token → Parser α} {start : α → ℕ}
    (hf : ∀ t, Triple (Behind all (found ++ [t.span.start])) (f t)
      (fun a c => Behind all (found ++ [t.span.start]) c ∧ start a = t.span.start) fail) :
    Triple (Behind all found) (Parser.advance >>= f) (fun a => Behind all (found ++ [start a]))
      fail := by
  have hrest : ∀ t, Triple (Behind all (found ++ [t.span.start])) (f t)
      (fun a => Behind all (found ++ [start a])) fail :=
    fun t => (hf t).mono (fun _ => id) (fun a c hc => hc.2 ▸ hc.1) fun _ => id
  refine .advance_bind (fun c l ls hc h => ?_) hrest
  unfold Behind Cursor.starts at hc ⊢
  rw [h, List.map_cons] at hc
  rwa [List.append_assoc]

/-! ### Declarations -/

section Declarations

variable (htype : ∀ m ≤ all.length, Agrees True 0 m type type)
  (hfail : ∀ c, Behind all found c → fail c)

include htype hfail

/-- An alias begins where one of the tokens does that are taken for it. -/
private theorem finds_typeAlias : Triple (Behind all found) (typeAlias type)
    (fun decl => Behind all (found ++ [decl.span.start])) fail := by
  refine finds_advance_bind fun first => ?_
  have hlater : ∀ c, Behind all (found ++ [first.span.start]) c → fail c :=
    fun c hc => hfail c hc.of_append
  refine .bind (moves agrees_identifier hlater) fun id => ?_
  refine .bind (moves (agrees_declarationParams fun m hm => htype m hm.le) hlater) fun params => ?_
  refine .bind (moves (.expect _ _) hlater) fun _ => ?_
  refine .bind (moves (htype _ le_rfl) hlater) fun right => ?_
  refine .bind (moves (.eat _) hlater) fun _ => .look_bind fun span => .pure ?_
  rintro c ⟨hc, rfl⟩
  exact ⟨hc, rfl⟩

/-- An interface begins where one of the tokens does that are taken for it. -/
private theorem finds_interface : Triple (Behind all found) (interface type)
    (fun decl => Behind all (found ++ [decl.span.start])) fail := by
  have hinside : ∀ m < all.length, Agrees True 0 m type type := fun m hm => htype m hm.le
  refine finds_advance_bind fun first => ?_
  have hlater : ∀ c, Behind all (found ++ [first.span.start]) c → fail c :=
    fun c hc => hfail c hc.of_append
  refine .bind (moves agrees_identifier hlater) fun id => ?_
  refine .bind (moves (agrees_declarationParams hinside) hlater) fun params => ?_
  refine .bind (moves (agrees_interfaceBases hinside) hlater) fun bases => .test ?_ ?_
  · refine .bind ((moves_of_le (agrees_objectType hinside) hlater).anti fun c hc => ?_)
      fun body => ?_
    · exact ⟨hc.1, le_length_of_or lt_length_of_hasKind lt_length_of_hasKind c hc.2⟩
    · refine .bind (moves (.eat _) hlater) fun _ => .look_bind fun span => .pure ?_
      rintro c ⟨hc, rfl⟩
      exact ⟨hc, rfl⟩
  · exact .reject fun c hc => hlater _ (hc.of_reaches (.report c _ _))

private theorem finds_declaration : Triple (Behind all found) (declaration type)
    (fun decl => Behind all (found ++ [decl.span.start])) fail := by
  refine .test ?_ ?_
  · exact .bind ((finds_typeAlias htype hfail).anti fun _ => And.left) fun decl =>
      .pure fun _ => id
  · exact .bind (finds_interface htype hfail) fun decl => .pure fun _ => id

/-- The declarations inside a statement begin at tokens, in order. The induction is on the rounds of
the loop; trying a declaration in vain goes back to where it was tried. -/
private theorem finds_verbatimLoop (rounds depth : ℕ) (previous : Option Token.Kind) :
    Triple (Behind all found) (verbatimLoop type rounds depth previous)
      (fun items => Behind all (found ++ items.map (·.node.span.start))) fail := by
  induction rounds generalizing found depth previous with
  | zero => exact .halt _
  | succ rounds ih =>
    have hnil : ∀ c, Behind all found c → Behind all (found ++ []) c := by
      intro c hc
      rwa [List.append_nil]
    refine .test (.pure fun c hc => hnil c hc.1) (.look_bind fun lineStart => ?_)
    refine .settle_bind (fun c hc => hc.1.of_reaches (.settle c)) fun comments => ?_
    have htext : Triple (Behind all found) (textRound type rounds depth)
        (fun items => Behind all (found ++ items.map (·.node.span.start))) fail :=
      moves_advance_bind fun token => .test (.pure fun c hc => hnil c hc.1) (ih hfail _ _)
    rw [nestedDeclaration_bind]
    refine .test ?_ htext
    have hdecl : Triple (Behind all found) (declaration type)
        (fun decl => Behind all (found ++ [decl.span.start])) fun _ => True :=
      finds_declaration htype fun _ _ => trivial
    -- Going back finds nothing either.
    refine .anti (.attempt_bind hdecl (fun c next hc _ => hc) (fun decl => ?_) htext)
      fun _ => And.left
    refine .bind (ih (fun c hc => hfail c hc.of_append) depth _) fun more => .pure fun c hc => ?_
    rwa [List.map_cons, List.append_cons]

/-- The declarations inside a statement begin at tokens, in order. -/
private theorem finds_verbatim : Triple (Behind all found) (verbatim type)
    (fun text => Behind all (found ++ text.nested.map (·.node.span.start))) fail := by
  refine .look_bind fun start => .look_bind fun ahead => ?_
  have hloop : Triple (Behind all found) (Parser.rounds (verbatimLoop type · 0 none))
      (fun items => Behind all (found ++ items.map (·.node.span.start))) fail :=
    .rounds fun rounds => finds_verbatimLoop htype hfail rounds 0 none
  refine .bind (hloop.anti fun _ hc => hc.1.1) fun nested => .look_bind fun left => ?_
  exact .look_bind fun span => .pure fun c hc => hc.1.1

/-! ### Statements -/

/-- The declarations of a statement begin at tokens, in order. The cases are the kinds of
statements. -/
private theorem finds_statement : Triple (Behind all found) (statement type)
    (fun stmt => Behind all (found ++ stmt.declarations.map (·.span.start))) fail := by
  have hnone : ∀ c, Behind all found c → Behind all (found ++ []) c := by
    intro c hc
    rwa [List.append_nil]
  refine .test ?_ (.test ?_ (.test ?_ ?_))
  · exact .anti (.bind (finds_declaration htype hfail) fun decl => .pure fun _ => id)
      fun _ => And.left
  · refine .bind ((moves_of_le agrees_importDeclaration.agrees hfail).anti fun c hc => ?_)
      fun decl => .pure hnone
    have hahead : (c.isWord 0 "import" && !(c.hasKind 1 .parenOpen || c.hasKind 1 .dot)) = true :=
      hc.2
    exact ⟨hc.1, lt_length_of_isWord c (Bool.and_eq_true_iff.mp hahead).1⟩
  · refine .anti (moves_advance_bind fun first => ?_) fun _ => And.left
    exact .bind (finds_declaration htype hfail) fun decl => .look_bind fun span =>
      .pure fun c hc => hc.1
  · refine .bind (finds_verbatim htype hfail) fun text => .pure fun c hc => ?_
    rwa [Statement.declarations, List.map_map]

/-- **The declarations of a body begin at tokens, in order.** The induction is on the rounds; what a
failed statement has taken is not looked at again. -/
private theorem finds_bodyLoop (rounds : ℕ) :
    Triple (Behind all found) (bodyLoop type rounds)
      (fun items => Behind all (found ++ (Item.declarations items).map (·.span.start))) fail := by
  induction rounds generalizing found with
  | zero => exact .halt _
  | succ rounds ih =>
    refine .test (.pure fun c hc => ?_) ?_
    · rw [Item.declarations_nil, List.map_nil, List.append_nil]
      exact hc.1
    refine .settle_bind (fun c hc => hc.of_reaches (.settle c)) fun comments => ?_
    refine .recover_bind (finds_statement htype fun _ => id) (fun stmt => ?_) ?_
    · refine .bind (ih fun c hc => hfail c hc.of_append) fun more => .pure fun c hc => ?_
      rwa [Item.declarations_cons, List.map_append, ← List.append_assoc]
    · exact .bind (moves agrees_skipStatement hfail) fun _ => ih hfail

end Declarations

/-! ### Programs -/

/-- **Declarations are listed in the order of the source.** Each of them starts further on than the
ones before it, be they statements, exported, or inside other statements. -/
theorem pairwise_start_of_parse {limit : Option ℕ} {source : String} {reading : Reading}
    (h : parse limit source = .ok reading) :
    reading.program.declarations.Pairwise fun d e => d.span.start < e.span.start := by
  obtain ⟨lexemes, after, body, next, hlexemes, hread, hbody⟩ := exists_done_of_parse h
  let all := lexemes.map (·.token.span.start)
  -- As many knots are tied as there are places in `all`, and one more.
  have hknots : all.length < lexemes.length + 1 := by
    rw [List.length_map]
    exact Nat.lt_succ_self _
  have htype : ∀ m ≤ all.length,
      Agrees True 0 m (nested limit (lexemes.length + 1)).whole
        (nested limit (lexemes.length + 1)).whole := fun m hm =>
    (agrees_nested (fun _ => trivial) (fun _ => id) (hm.trans_lt hknots) (hm.trans_lt hknots)).1
  have hloop : Triple (Behind all []) (statements limit lexemes)
      (fun items => Behind all ((Item.declarations items).map (·.span.start))) fun _ => True :=
    .rounds fun rounds => finds_bodyLoop htype (fun _ _ => trivial) rounds
  have hfound := hloop (startCursor (Text.byteLength source.toList) lexemes) (.refl _)
  rw [hread] at hfound
  have hsublist : (reading.program.declarations.map (·.span.start)).Sublist all := by
    rw [Program.declarations, hbody]
    exact (List.sublist_append_left _ _).trans hfound
  have htokens : (lexemes.map Lexeme.token).Pairwise fun t u => t.span.start < u.span.start := by
    have htaken := Lexeme.sublist_of_ofTokensAfter Trivia.none (Token.scan source)
    rw [← Lexeme.ofTokens, hlexemes] at htaken
    exact (Token.pairwise_place 0 _).sublist htaken
  have hall : all.Pairwise (· < ·) := by
    rw [List.pairwise_map] at htokens ⊢
    exact htokens
  exact List.pairwise_map.mp (hall.sublist hsublist)

end Program

end Reifier
