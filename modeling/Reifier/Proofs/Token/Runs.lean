import Reifier.Proofs.Token.Kinds
import Reifier.Proofs.Token.Words

/-!
# Identifiers that a text spells

A run of a text is a part of it that forms an identifier and cannot be made longer
(`Name.MaximalIn`). A source may be read with some of its tokens blanked out, which leaves what is
visible of it (`Token.visible`). With comments, strings, templates and unexpected text blanked out,
each run that begins with an underscore is an identifier among the tokens
(`mem_names_of_maximalIn`): no other token holds an underscore, and an identifier takes as many
characters as it can.
-/

namespace Reifier

/-- A part of a text that forms an identifier and cannot be made longer on either side. -/
def Name.MaximalIn (run text : List Char) : Prop :=
  ∃ before after, text = before ++ run ++ after ∧ isIdentifierChars run = true ∧
    ∀ left right, left <:+ before → right <+: after →
      isIdentifierChars (left ++ run ++ right) = true → left = [] ∧ right = []

/-- Every character of an identifier may stand in one. -/
theorem Name.isPart_of_mem {c : Char} {cs : List Char} (h : isIdentifierChars cs = true)
    (hc : c ∈ cs) : isPart c = true := by
  cases cs with
  | nil => cases h
  | cons d cs =>
    obtain ⟨hd, hcs⟩ := Bool.and_eq_true_iff.mp h
    rcases List.mem_cons.mp hc with rfl | hc
    · exact isPart_of_isStart hd
    · exact List.all_eq_true.mp hcs c hc

/-- What begins as an identifier does is one if it goes on as one. -/
private theorem Name.isIdentifierChars_append {cs ds : List Char}
    (hcs : isIdentifierChars cs = true)
    (hds : ∀ d ∈ ds, isPart d = true) : isIdentifierChars (cs ++ ds) = true := by
  cases cs with
  | nil => cases hcs
  | cons c cs =>
    obtain ⟨hc, hcs⟩ := Bool.and_eq_true_iff.mp hcs
    have hall : (cs ++ ds).all isPart = true := by
      rw [List.all_append, hcs, Bool.true_and, List.all_eq_true]
      exact hds
    exact Bool.and_eq_true_iff.mpr ⟨hc, hall⟩

/-- What cannot be made longer by one character cannot be made longer. -/
theorem Name.maximalIn_of_stops {before run after : List Char}
    (hrun : isIdentifierChars run = true)
    (hbefore : ∀ c ∈ before.getLast?, isPart c = false)
    (hafter : ∀ c ∈ after.head?, isPart c = false) : MaximalIn run (before ++ run ++ after) := by
  refine ⟨before, after, rfl, hrun, fun left right hleft hright hlonger => ⟨?_, ?_⟩⟩
  · cases left using List.reverseRecOn with
    | nil => rfl
    | append_singleton left c =>
      obtain ⟨front, rfl⟩ := hleft
      have hpart : isPart c = true := isPart_of_mem hlonger (by simp)
      rw [hbefore c (by simp)] at hpart
      cases hpart
  · cases right with
    | nil => rfl
    | cons c right =>
      obtain ⟨back, rfl⟩ := hright
      have hpart : isPart c = true := isPart_of_mem hlonger (by simp)
      rw [hafter c (by simp)] at hpart
      cases hpart

/-- A run that cannot be made longer, and that begins inside an identifier behind which nothing
could belong to it, is this identifier. -/
private theorem Name.eq_of_begins_inside {before left right more after back : List Char} {c : Char}
    (hwhole : isIdentifierChars (left ++ c :: right) = true)
    (hrun : isIdentifierChars (c :: more) = true)
    (hlongest : ∀ l r, l <:+ before ++ left → r <+: after →
      isIdentifierChars (l ++ c :: more ++ r) = true → l = [] ∧ r = [])
    (hrest : more ++ after = right ++ back) (hback : ∀ d ∈ back.head?, isPart d = false) :
    left ++ c :: right = c :: more := by
  -- It begins where the identifier does, since it could begin there.
  have hleft : left = [] := by
    cases left with
    | nil => rfl
    | cons d left =>
      obtain ⟨hd, hall⟩ := Bool.and_eq_true_iff.mp hwhole
      have hstart : isIdentifierChars (d :: left) = true :=
        Bool.and_eq_true_iff.mpr ⟨hd, List.all_eq_true.mpr fun e he =>
          List.all_eq_true.mp hall e (List.mem_append_left _ he)⟩
      have hlonger := isIdentifierChars_append hstart fun e he => isPart_of_mem hrun he
      rw [← List.append_nil (d :: left ++ c :: more)] at hlonger
      exact (hlongest _ [] (List.suffix_append _ _) List.nil_prefix hlonger).1
  subst hleft
  -- It ends where the identifier does, since neither can go on.
  have hafter : ∀ d ∈ after.head?, isPart d = false := by
    intro d hd
    refine Bool.eq_false_iff.mpr fun hpart => ?_
    obtain ⟨rest, rfl⟩ : ∃ rest, after = d :: rest := List.head?_eq_some_iff.mp hd
    have hlonger := isIdentifierChars_append hrun (List.forall_mem_singleton.mpr hpart)
    exact List.cons_ne_nil d [] (hlongest [] [d] List.nil_suffix ⟨rest, rfl⟩ hlonger).2
  have hmore : ∀ d ∈ more, isPart d = true := fun d hd =>
    isPart_of_mem hrun (List.mem_cons_of_mem c hd)
  have hright : ∀ d ∈ right, isPart d = true := fun d hd =>
    isPart_of_mem hwhole (List.mem_cons_of_mem c hd)
  have heq : right = more := by
    rw [← Token.takeWhile_append_eq hback hright, ← hrest, Token.takeWhile_append_eq hafter hmore]
  rw [heq, List.nil_append]

/-- What stands where a part of a concatenation begins. -/
private theorem exists_of_flatMap_eq_append_cons {α β : Type} {f : α → List β} {as : List α} {b : β}
    {before after : List β} (h : as.flatMap f = before ++ b :: after) :
    ∃ front a back bs cs, as = front ++ a :: back ∧ f a = bs ++ b :: cs ∧
      before = front.flatMap f ++ bs ∧ after = cs ++ back.flatMap f := by
  induction as generalizing before with
  | nil => simp at h
  | cons a as ih =>
    rw [List.flatMap_cons] at h
    have hlater : ∀ more, as.flatMap f = more ++ b :: after → before = f a ++ more →
        ∃ front d back bs cs, a :: as = front ++ d :: back ∧ f d = bs ++ b :: cs ∧
          before = front.flatMap f ++ bs ∧ after = cs ++ back.flatMap f := by
      rintro more hmore rfl
      obtain ⟨front, d, back, bs, cs, rfl, hd, rfl, rfl⟩ := ih hmore
      exact ⟨a :: front, d, back, bs, cs, rfl, hd, by simp, rfl⟩
    rcases List.append_eq_append_iff.mp h with ⟨more, hbefore, hmore⟩ | ⟨bs, ha, hbs⟩
    · exact hlater more hmore hbefore
    · cases bs with
      | nil => exact hlater [] hbs.symm (by rw [ha, List.append_nil, List.append_nil])
      | cons d cs =>
        obtain ⟨rfl, hafter⟩ := List.cons.inj hbs
        exact ⟨[], a, as, before, cs, rfl, ha, rfl, hafter⟩

namespace Token

/-- Tokens that may hold any text: comments, strings, templates, and what is no token. -/
def Kind.isText : Kind → Bool
  | .lineComment | .blockComment | .string | .template | .unexpected => true
  | _ => false

/-- The text of tokens, with a blank in place of each token of a hidden kind. -/
def visible (hidden : Kind → Bool) (ts : List Token) : List Char :=
  ts.flatMap fun t => if hidden t.kind then [' '] else t.text.toList

/-! ### An identifier ends where it has to -/

/-- A piece that goes on with nothing that the piece in front of it could have taken. -/
def Piece.EndsBefore (p q : Piece) : Prop := p.kind = .identifier → Name.isPart q.first = false

/-- An identifier is taken as far as it goes. -/
private theorem more_pieceAt_of_identifier {c : Char} {cs : List Char}
    (h : (pieceAt c cs).kind = .identifier) : (pieceAt c cs).more = cs.takeWhile Name.isPart := by
  have hspells := spells_pieceAt c cs
  rw [h] at hspells
  have hfirst : Name.isStart c = true := by
    rw [← (pieceAt_isPrefix c cs).1]
    exact (Bool.and_eq_true_iff.mp hspells).1
  rw [pieceAt_of_isStart hfirst]

/-- **No piece goes on as an identifier where an identifier has ended.** An identifier is taken up
to a character that stops it, so the next piece begins with that one. -/
private theorem isChain_pieces (cs : List Char) : (pieces cs).IsChain Piece.EndsBefore := by
  induction cs using pieces_induction with
  | nil => exact .nil
  | cons c cs behind hbehind hsplit ih =>
    rw [hsplit, List.isChain_cons]
    refine ⟨fun q hq hkind => ?_, ih⟩
    cases behind with
    | nil => cases hq
    | cons d ds =>
      rw [pieces_cons, List.head?_cons, Option.mem_some_iff] at hq
      rw [← hq, (pieceAt_isPrefix d ds).1]
      -- What an identifier leaves begins with no character that it could have taken.
      have hrest : d :: ds = cs.dropWhile Name.isPart := by
        have hboth := cs.takeWhile_append_dropWhile (p := Name.isPart)
        rw [more_pieceAt_of_identifier hkind] at hbehind
        exact List.append_cancel_left (hbehind.trans hboth.symm)
      have hstop := List.head?_dropWhile_not Name.isPart cs
      rw [← hrest] at hstop
      exact hstop

/-- Joining keeps the first character. -/
private theorem head?_first_joinUnexpected (ps : List Piece) :
    (joinUnexpected ps).head?.map Piece.first = ps.head?.map Piece.first := by
  cases ps with
  | nil => rfl
  | cons p ps =>
    rw [joinUnexpected]
    split
    · rfl
    · split_ifs <;> rfl

/-- Joining unexpected pieces puts no identifier next to another one. -/
private theorem isChain_joinUnexpected {ps : List Piece} (h : ps.IsChain Piece.EndsBefore) :
    (joinUnexpected ps).IsChain Piece.EndsBefore := by
  induction ps with
  | nil => exact .nil
  | cons p ps ih =>
    obtain ⟨hp, hps⟩ := List.isChain_cons.mp h
    have hjoined := ih hps
    have hfirst := head?_first_joinUnexpected ps
    rw [joinUnexpected]
    split
    · exact .singleton p
    · rename_i q qs hcons
      rw [hcons] at hjoined hfirst
      split_ifs with hboth
      · refine List.isChain_cons.mpr ⟨fun r hr hkind => ?_, (List.isChain_cons.mp hjoined).2⟩
        cases hkind
      · refine List.isChain_cons.mpr ⟨fun r hr hkind => ?_, hjoined⟩
        rw [List.head?_cons, Option.mem_some_iff] at hr
        subst hr
        obtain ⟨q', hq', heq⟩ := Option.map_eq_some_iff.mp hfirst.symm
        rw [← heq]
        exact hp q' hq' hkind

/-! ### Runs -/

/-- What is visible of a piece. -/
def Piece.shown (hidden : Kind → Bool) (p : Piece) : List Char :=
  if hidden p.kind then [' '] else p.chars

/-- What is visible of tokens is what is shown of the pieces. -/
private theorem visible_place (hidden : Kind → Bool) (offset : ℕ) (ps : List Piece) :
    visible hidden (place offset ps) = ps.flatMap (Piece.shown hidden) := by
  induction ps generalizing offset with
  | nil => rfl
  | cons p ps ih =>
    have hshown : (if hidden p.kind then [' '] else (String.ofList p.chars).toList) =
        p.shown hidden := by rw [String.toList_ofList, Piece.shown]
    rw [List.flatMap_cons, ← ih (offset + Text.byteLength p.chars), ← hshown]
    rfl

/-- Apart from texts, only identifiers are spelled with an underscore. -/
private theorem Kind.eq_identifier_of_spells {kind : Kind} {cs : List Char} (h : kind.Spells cs)
    (hmem : '_' ∈ cs) (htext : ¬ kind.isText = true) : kind = .identifier := by
  cases kind with
  | identifier => rfl
  | lineComment | blockComment | string | template | unexpected => exact absurd rfl htext
  | number | bigInt => exact absurd (h '_' hmem) (by decide)
  | _ => exact absurd hmem h

/-- Behind an identifier nothing visible could belong to it. -/
private theorem isPart_eq_false_of_isChain {hidden : Kind → Bool} {p : Piece} {ps : List Piece}
    (h : (p :: ps).IsChain Piece.EndsBefore) (hkind : p.kind = .identifier) :
    ∀ d ∈ (ps.flatMap (Piece.shown hidden)).head?, Name.isPart d = false := by
  cases ps with
  | nil => exact fun d hd => by cases hd
  | cons q ps =>
    have hq := (List.isChain_cons_cons.mp h).1 hkind
    intro d hd
    rw [List.flatMap_cons, Piece.shown] at hd
    split_ifs at hd
    · cases hd
      decide
    · cases hd
      exact hq

/-- A run that begins with an underscore is an identifier among the pieces. -/
private theorem exists_identifier_of_maximalIn {hidden : Kind → Bool} {ps : List Piece}
    (hspells : ∀ p ∈ ps, p.kind.Spells p.chars) (hchain : ps.IsChain Piece.EndsBefore)
    (hhidden : ∀ p ∈ ps, p.kind.isText = true → hidden p.kind = true) {more : List Char}
    (h : Name.MaximalIn ('_' :: more) (ps.flatMap (Piece.shown hidden))) :
    ∃ p ∈ ps, p.kind = .identifier ∧ p.chars = '_' :: more := by
  obtain ⟨before, after, htext, hrun, hlongest⟩ := h
  rw [List.append_assoc] at htext
  -- The underscore stands in one of the pieces.
  obtain ⟨front, p, back, left, right, rfl, hshown, hbefore, hafter⟩ :=
    exists_of_flatMap_eq_append_cons htext
  have hp : p ∈ front ++ p :: back := List.mem_append_right front List.mem_cons_self
  have hvisible : ¬ hidden p.kind = true := by
    intro hyes
    have hmem : '_' ∈ p.shown hidden := by
      rw [hshown]
      exact List.mem_append_right left List.mem_cons_self
    rw [Piece.shown, if_pos hyes] at hmem
    exact absurd hmem (by decide)
  rw [Piece.shown, if_neg hvisible] at hshown
  have hkind : p.kind = .identifier := by
    refine Kind.eq_identifier_of_spells (hspells p hp) ?_ (mt (hhidden p hp) hvisible)
    rw [hshown]
    exact List.mem_append_right left List.mem_cons_self
  have hidentifier := hspells p hp
  rw [hkind, hshown] at hidentifier
  have hback : ∀ d ∈ (back.flatMap (Piece.shown hidden)).head?, Name.isPart d = false :=
    isPart_eq_false_of_isChain (List.isChain_append.mp hchain).2.1 hkind
  subst hbefore
  exact ⟨p, hp, hkind, hshown.trans
    (Name.eq_of_begins_inside hidentifier hrun hlongest hafter hback)⟩

/-- **A visible run that begins with an underscore is an identifier among the tokens.** -/
theorem mem_names_of_maximalIn {hidden : Kind → Bool} {source : String}
    (hhidden : ∀ t ∈ scan source, t.kind.isText = true → hidden t.kind = true) {run : String}
    (hunderscore : run.toList.head? = some '_')
    (h : Name.MaximalIn run.toList (visible hidden (scan source))) : run ∈ names (scan source) := by
  obtain ⟨more, hmore⟩ := List.head?_eq_some_iff.mp hunderscore
  rw [hmore, scan, ofChars, visible_place] at h
  have hpieces : ∀ p ∈ joinUnexpected (pieces source.toList),
      p.kind.isText = true → hidden p.kind = true := by
    intro p hp htext
    obtain ⟨t, ht, hkind, -⟩ := exists_mem_place hp 0
    rw [← hkind] at htext ⊢
    exact hhidden t ht htext
  have hchain := isChain_joinUnexpected (isChain_pieces source.toList)
  obtain ⟨p, hp, hkind, hchars⟩ :=
    exists_identifier_of_maximalIn (fun _ => spells_of_mem_joinUnexpected) hchain hpieces h
  obtain ⟨t, ht, htkind, httext⟩ := exists_mem_place hp 0
  have hrun : t.text = run := by
    rw [httext, hchars, ← hmore, String.ofList_toList]
  exact hrun ▸ mem_names ht (htkind.trans hkind)

end Token

end Reifier
