import Reifier.Proofs.Program.Patches

/-!
# How a statement falls into patches

The lexemes of a statement are made of its tokens (`Lexeme.From`), so where the lexemes fall into
segments, the tokens fall into patches: a declaration is replaced as a whole, and every other token
stays or is a comment that may have changed (`exists_patches`). The patches stand one behind the
other, and a declaration without anything in front of it stands behind a brace or a semicolon.
-/

namespace Reifier

open Token (Contiguous)

/-! ### Tokens and lexemes -/

/-- Tokens in two parts are contiguous if each part is, where the second begins at the end of the
first. -/
theorem Token.Contiguous.append_iff {offset : ℕ} {ts us : List Token} :
    Contiguous offset (ts ++ us) ↔ Contiguous offset ts ∧
      Contiguous (offset + Text.byteLength (ts.flatMap (·.text.toList))) us := by
  induction ts generalizing offset with
  | nil => simp [Contiguous]
  | cons t ts ih =>
    rw [List.cons_append, Contiguous, Contiguous, ih, and_assoc]
    refine and_congr_right fun hspan => ?_
    rw [hspan, List.flatMap_cons, Text.byteLength_append, Nat.add_assoc]

namespace Lexeme

/-- Lexemes are made of tokens, the last of which is no trivia. -/
inductive From : List Token → List Lexeme → Prop
  | nil : From [] []
  | cons {front ts : List Token} {t : Token} {ls : List Lexeme}
      (hfront : ∀ u ∈ front, u.kind.isTrivia = true) (ht : t.kind.isTrivia = false)
      (rest : From ts ls) : From (front ++ t :: ts) (⟨front.foldl Trivia.push Trivia.none, t⟩ :: ls)

/-- The lexemes of tokens are made of them, up to the trivia behind the last one. -/
private theorem exists_from_of_ofTokensAfter {front ts : List Token} {ls : List Lexeme}
    {after : Trivia} (hfront : ∀ u ∈ front, u.kind.isTrivia = true)
    (h : ofTokensAfter (front.foldl Trivia.push Trivia.none) ts = (ls, after)) :
    ∃ us back, front ++ ts = us ++ back ∧ From us ls := by
  induction ts generalizing front ls with
  | nil =>
    cases h
    exact ⟨[], front, by simp, .nil⟩
  | cons t ts ih =>
    rw [ofTokensAfter] at h
    split_ifs at h with htrivia
    · have hnext : ∀ u ∈ front ++ [t], u.kind.isTrivia = true :=
        List.forall_mem_append.mpr ⟨hfront, List.forall_mem_singleton.mpr htrivia⟩
      obtain ⟨us, back, hus, hfrom⟩ := ih hnext (by rwa [List.foldl_append])
      exact ⟨us, back, by rwa [List.append_assoc] at hus, hfrom⟩
    · cases hrest : ofTokensAfter Trivia.none ts with
      | mk lexemes last =>
        rw [hrest] at h
        cases h
        obtain ⟨us, back, hus, hfrom⟩ := @ih [] _ (List.forall_mem_nil _) hrest
        refine ⟨front ++ t :: us, back, ?_, .cons hfront (by simpa using htrivia) hfrom⟩
        rw [List.append_assoc, List.cons_append, ← hus, List.nil_append]

theorem exists_from_of_ofTokens {ts : List Token} {ls : List Lexeme} {after : Trivia}
    (h : ofTokens ts = (ls, after)) : ∃ us back, ts = us ++ back ∧ From us ls :=
  @exists_from_of_ofTokensAfter [] _ _ _ (List.forall_mem_nil _) h

namespace From

variable {ts : List Token} {ls ms : List Lexeme} {l : Lexeme}

/-- Lexemes that follow each other are made of tokens that follow each other. -/
theorem exists_append (h : From ts (ls ++ ms)) :
    ∃ us vs, ts = us ++ vs ∧ From us ls ∧ From vs ms := by
  induction ls generalizing ts with
  | nil => exact ⟨[], ts, rfl, .nil, h⟩
  | cons l ls ih =>
    cases h with
    | @cons front ts t _ hfront ht rest =>
      obtain ⟨us, vs, rfl, hus, hvs⟩ := ih rest
      exact ⟨front ++ t :: us, vs, by simp, .cons hfront ht hus, hvs⟩

/-- Trivia in front of other tokens are recorded before these. -/
private theorem ofTokensAfter_append {front : List Token}
    (hfront : ∀ u ∈ front, u.kind.isTrivia = true) (before : Trivia) (ts : List Token) :
    ofTokensAfter before (front ++ ts) = ofTokensAfter (front.foldl Trivia.push before) ts := by
  induction front generalizing before with
  | nil => rfl
  | cons u front ih =>
    obtain ⟨hu, hfront⟩ := List.forall_mem_cons.mp hfront
    rw [List.cons_append, ofTokensAfter, if_pos hu, ih hfront, List.foldl_cons]

/-- Tokens that end in a lexeme leave no trivia behind. -/
theorem ofTokens_eq (h : From ts ls) : ofTokens ts = (ls, Trivia.none) := by
  unfold ofTokens
  induction h with
  | nil => rfl
  | cons hfront ht rest ih =>
    rw [ofTokensAfter_append hfront, ofTokensAfter, if_neg (by simp [ht]), ih]

private theorem eq_nil (h : From ts []) : ts = [] := by
  cases h
  rfl

/-- The last token is that of the last lexeme. -/
theorem getLast?_kind (h : From ts ls) :
    ts.getLast?.map Token.kind = ls.getLast?.map (·.token.kind) := by
  induction h with
  | nil => rfl
  | @cons front ts t ls hfront ht rest ih =>
    rw [List.getLast?_append, List.getLast?_cons, List.getLast?_cons]
    cases hlast : ts.getLast? with
    | none =>
      rw [hlast] at ih
      rw [Option.map_eq_none_iff.mp ih.symm]
      rfl
    | some u =>
      rw [hlast] at ih
      obtain ⟨m, hm, hkind⟩ := Option.map_eq_some_iff.mp ih.symm
      rw [hm]
      simp [hkind]

/-- The text of a run, the first lexeme of which has nothing before it, is that of its tokens, and
the run stands where they do. -/
theorem textOf (h : From ts (l :: ls)) (hbare : l.before = Trivia.none) :
    (Lexeme.textOf (l :: ls)).toList = ts.flatMap (·.text.toList) := by
  have hchars := chars_ofTokensAfter Trivia.none ts
  have hnone : Trivia.none.text.toList = [] := rfl
  rw [← ofTokens, h.ofTokens_eq, chars_cons, hbare] at hchars
  rw [toList_textOf_cons]
  simpa [hnone] using hchars

theorem spanOf (h : From ts (l :: ls)) (hbare : l.before = Trivia.none) {offset : ℕ}
    (hts : Contiguous offset ts) :
    Lexeme.spanOf (l :: ls) =
      ⟨offset, offset + Text.byteLength (ts.flatMap (·.text.toList))⟩ := by
  have hplaced : Placed offset (ofTokensAfter Trivia.none ts).1 := placed_ofTokensAfter hts
  rw [← ofTokens, h.ofTokens_eq] at hplaced
  rw [hplaced.spanOf, h.textOf hbare, hbare]
  rfl

end From

end Lexeme

/-! ### Patches -/

namespace Patch

/-- What becomes of a token that is in no declaration. -/
def ofFate : Fate → Patch
  | ⟨t, none⟩ => keep t
  | ⟨t, some comment⟩ => swap t comment

/-- What goes into the place of a declaration. -/
def constant? : Patch → Option Splice
  | const _ s => some s
  | _ => none

/-- A declaration begins with a token that is no trivia. -/
def Headed : Patch → Prop
  | const fates _ => ∃ u us, fates = u :: us ∧ u.token.kind.isTrivia = false
  | _ => True

/-- A declaration stands behind trivia, or behind what a statement in a block can begin after;
`previous` is the kind of the token in front of the patches. -/
def Begin : Option Token.Kind → List Patch → Prop
  | _, [] => True
  | _, keep t :: ps => Begin (some t.kind) ps
  | _, swap t _ :: ps => Begin (some t.kind) ps
  | previous, const _ _ :: ps =>
    (∀ kind ∈ previous, kind.isTrivia = true ∨ kind ∈ [.braceOpen, .braceClose, .semicolon]) ∧
      Begin (some .semicolon) ps

variable {ps : List Patch} {offset : ℕ}

private theorem flatMap_fates_ofFate (fs : List Fate) : (fs.map ofFate).flatMap fates = fs := by
  induction fs with
  | nil => rfl
  | cons f fs ih =>
    obtain ⟨t, _ | comment⟩ := f <;> simp [ofFate, fates, ih]

private theorem filterMap_constant?_ofFate (fs : List Fate) :
    (fs.map ofFate).filterMap constant? = [] := by
  refine List.filterMap_eq_nil_iff.mpr (List.forall_mem_map.mpr fun f _ => ?_)
  obtain ⟨t, _ | comment⟩ := f <;> rfl

private theorem headed_ofFate (f : Fate) : (ofFate f).Headed := by
  obtain ⟨t, _ | comment⟩ := f <;> trivial

/-- Whether declarations may begin behind kept tokens depends on the last of these alone. The
induction is on the kept tokens. -/
private theorem begin_ofFate_append {previous : Option Token.Kind} {fs : List Fate}
    (h : Begin ((fs.getLast?.map (·.token.kind)).or previous) ps) :
    Begin previous (fs.map ofFate ++ ps) := by
  induction fs generalizing previous with
  | nil => exact h
  | cons f fs ih =>
    have hnext : Begin (some f.token.kind) (fs.map ofFate ++ ps) := by
      refine ih ?_
      rw [List.getLast?_cons] at h
      cases hlast : fs.getLast? with
      | none => simpa [hlast] using h
      | some g => simpa [hlast] using h
    obtain ⟨t, _ | comment⟩ := f
    · exact hnext
    · exact hnext

/-- Patches of single tokens are where their tokens are. -/
private theorem placed_ofFate_append {fs : List Fate} (hfs : Contiguous offset (fs.map Fate.token))
    (h : Placed (offset + Text.byteLength ((fs.map Fate.token).flatMap (·.text.toList))) ps) :
    Placed offset (fs.map ofFate ++ ps) := by
  induction fs generalizing offset with
  | nil => exact h
  | cons f fs ih =>
    obtain ⟨hspan, hfs⟩ := hfs
    rw [List.map_cons, List.flatMap_cons, Text.byteLength_append, ← Nat.add_assoc] at h
    rw [hspan] at hfs
    obtain ⟨t, _ | comment⟩ := f
    · refine ⟨fun s hs => (nomatch hs), ?_⟩
      simpa [ofFate, old, tokens] using ih hfs h
    · refine ⟨fun s hs => ?_, ?_⟩
      · simp only [ofFate, splice?, Option.mem_def] at hs
        split_ifs at hs
        cases hs
        simpa [ofFate, old, tokens] using hspan
      · simpa [ofFate, old, tokens] using ih hfs h

/-- Patches of tokens, with what goes into the places of declarations. -/
structure Covers (ps : List Patch) (previous : Option Token.Kind) (offset : ℕ) (fs : List Fate)
    (ss : List Splice) : Prop where
  fates : ps.flatMap fates = fs
  constants : ps.filterMap constant? = ss
  begin : Begin previous ps
  placed : Placed offset ps
  headed : ∀ p ∈ ps, p.Headed

/-- Single tokens may stand in front. -/
private theorem Covers.ofFate_append {previous : Option Token.Kind} {fs gs : List Fate}
    {ss : List Splice} (hfs : Contiguous offset (fs.map Fate.token))
    (h : Covers ps ((fs.getLast?.map (·.token.kind)).or previous)
      (offset + Text.byteLength ((fs.map Fate.token).flatMap (·.text.toList))) gs ss) :
    Covers (fs.map ofFate ++ ps) previous offset (fs ++ gs) ss where
  fates := by rw [List.flatMap_append, flatMap_fates_ofFate, h.fates]
  constants := by
    rw [List.filterMap_append, filterMap_constant?_ofFate, h.constants, List.nil_append]
  begin := begin_ofFate_append h.begin
  placed := placed_ofFate_append hfs h.placed
  headed := List.forall_mem_append.mpr
    ⟨List.forall_mem_map.mpr fun f _ => headed_ofFate f, h.headed⟩

/-- A declaration may stand in front. -/
theorem Covers.const_cons {previous : Option Token.Kind} {fs gs : List Fate} {s : Splice}
    {ss : List Splice} (hhead : Headed (.const fs s))
    (hspan : s.span = ⟨offset,
      offset + Text.byteLength ((fs.map Fate.token).flatMap (·.text.toList))⟩)
    (hprevious : ∀ kind ∈ previous, kind.isTrivia = true ∨
      kind ∈ [Token.Kind.braceOpen, .braceClose, .semicolon])
    (h : Covers ps (some .semicolon)
      (offset + Text.byteLength ((fs.map Fate.token).flatMap (·.text.toList))) gs ss) :
    Covers (const fs s :: ps) previous offset (fs ++ gs) (s :: ss) where
  fates := congrArg (fs ++ ·) h.fates
  constants := congrArg (s :: ·) h.constants
  begin := ⟨hprevious, h.begin⟩
  placed := by
    refine ⟨?_, h.placed⟩
    rintro _ ⟨⟩
    exact hspan
  headed := List.forall_mem_cons.mpr ⟨hhead, h.headed⟩

end Patch

namespace Program

open Patch (Covers)
open Segment (Laid lexemes items)

/-- In front of a declaration stand trivia, or the token that a statement in a block can begin
after. -/
private theorem isTrivia_or_mem_of_begins {previous : Option Token.Kind} {before : List Fate}
    (hfront : ∀ f ∈ before, f.token.kind.isTrivia = true)
    (hbegins : ((before.map Fate.token).foldl Trivia.push Trivia.none).lineBreak = true ∨
      beginsAfter previous = true) :
    ∀ kind ∈ (before.getLast?.map (·.token.kind)).or previous, kind.isTrivia = true ∨
      kind ∈ [Token.Kind.braceOpen, .braceClose, .semicolon] := by
  intro kind hkind
  cases hlast : before.getLast? with
  | some f =>
    rw [hlast] at hkind
    cases hkind
    exact .inl (hfront f (List.mem_of_getLast? hlast))
  | none =>
    rw [hlast] at hkind
    obtain rfl : before = [] := List.getLast?_eq_none_iff.mp hlast
    rcases hbegins with hline | hafter
    · cases hline
    · obtain rfl : previous = some kind := hkind
      exact .inr (by simpa [beginsAfter, or_assoc] using hafter)

/-- **A statement falls into patches.** -/
theorem exists_patches {source : String} {n : ℕ} {segs : List (Segment Declaration)}
    (h : Laid (DeclarationReads source) n segs) {previous : Option Token.Kind}
    (hbegin : DeclarationsBegin previous segs) {fs : List Fate}
    (hfs : Lexeme.From (fs.map Fate.token) (lexemes segs)) {offset : ℕ}
    (hoffset : Contiguous offset (fs.map Fate.token)) {ss : List Splice}
    (hss : List.Forall₂ (fun (item : Item Declaration) s => s.span = item.node.span)
      (items segs) ss) :
    ∃ ps, Covers ps previous offset fs ss := by
  induction h generalizing previous fs offset ss with
  | nil n =>
    have hnil : Lexeme.From (fs.map Fate.token) [] := hfs
    rw [List.map_eq_nil_iff.mp hnil.eq_nil]
    cases hss
    exact ⟨[], rfl, rfl, trivial, trivial, List.forall_mem_nil _⟩
  | @item n l run node segs hnode rest ih =>
    obtain ⟨us, vs, hsplit, hus, hvs⟩ := @Lexeme.From.exists_append _ (l :: run) _ hfs
    obtain ⟨s, ss, hspan, htail, rfl⟩ := List.forall₂_cons_left_iff.mp hss
    cases hus with
    | @cons front ts t _ hfront ht hrun =>
      rw [List.append_assoc, List.cons_append] at hsplit
      obtain ⟨before, all, rfl, rfl, hall⟩ := List.map_eq_append_iff.mp hsplit
      obtain ⟨first, more, rfl, rfl, hmore⟩ := List.map_eq_cons_iff.mp hall
      obtain ⟨inner, behind, rfl, rfl, rfl⟩ := List.map_eq_append_iff.mp hmore
      -- The declaration begins behind the trivia in front of its first token.
      rw [List.map_append, Contiguous.append_iff, List.map_cons, List.map_append,
        ← List.cons_append, ← List.map_cons, Contiguous.append_iff] at hoffset
      obtain ⟨hbefore, hinner, hbehind⟩ := hoffset
      obtain ⟨ps, hps⟩ := ih hbegin.2 hvs hbehind htail
      have hbare : Lexeme.From ((first :: inner).map Fate.token)
          (Segment.bare ⟨(before.map Fate.token).foldl Trivia.push Trivia.none, first.token⟩ ::
            run) :=
        @Lexeme.From.cons [] _ _ _ (List.forall_mem_nil _) ht hrun
      have hplace : s.span = _ := hspan.trans (hnode.2.trans (hbare.spanOf rfl hinner))
      have hfront : ∀ f ∈ before, f.token.kind.isTrivia = true := List.forall_mem_map.mp hfront
      have hprevious := isTrivia_or_mem_of_begins hfront (hbegin.1 _ rfl)
      have hconst := Covers.const_cons ⟨first, inner, rfl, ht⟩ hplace hprevious hps
      exact ⟨_, hconst.ofFate_append hbefore⟩
  | @other n run segs hrun rest ih =>
    obtain ⟨us, vs, hsplit, hus, hvs⟩ := @Lexeme.From.exists_append _ run _ hfs
    obtain ⟨fs, gs, rfl, rfl, rfl⟩ := List.map_eq_append_iff.mp hsplit
    rw [List.map_append, Token.Contiguous.append_iff] at hoffset
    have hlast : fs.getLast?.map (·.token.kind) = run.getLast?.map (·.token.kind) := by
      rw [← hus.getLast?_kind, List.getLast?_map, Option.map_map]
      rfl
    have hnext : DeclarationsBegin ((fs.getLast?.map (·.token.kind)).or previous) segs := by
      rw [hlast]
      exact hbegin
    obtain ⟨ps, hps⟩ := ih hnext hvs hoffset.2 hss
    exact ⟨fs.map Patch.ofFate ++ ps, hps.ofFate_append hoffset.1⟩

end Program

end Reifier
