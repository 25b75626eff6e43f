import Reifier.Proofs.Token.Patterns

/-!
# The tokens of a source tile it

No byte of a source is lost between its tokens and none belongs to two of them (`tiles_scan`). The
tokens stand one behind the other from the first byte to the last, none is empty, each is cut where
characters begin, and what no token can be made of is never cut in two. At each place the longest
match has been taken. What stands behind a token has no part in it: taken out of its source, it is
the only token of its text (`scan_text_of_mem_scan`).
-/

namespace Reifier.Token

/-- Tokens that take up a text without a gap: no token is empty, the first begins at the first byte,
each further one where the one before ends, and the last ends at the last byte. -/
structure Tiles (cs : List Char) (ts : List Token) : Prop where
  nonempty : ∀ t ∈ ts, t.span.start < t.span.stop
  first : ∀ t ∈ ts.head?, t.span.start = 0
  adjacent : ts.IsChain fun t u => u.span.start = t.span.stop
  last : (ts.getLast?.elim 0 fun t => t.span.stop) = Text.byteLength cs

/-- The first token begins where the tokens do. -/
private theorem Contiguous.start_of_head? {offset : ℕ} {ts : List Token}
    (h : Contiguous offset ts) : ∀ t ∈ ts.head?, t.span.start = offset := by
  cases ts with
  | nil => exact fun t ht => nomatch ht
  | cons t ts =>
    rintro _ ⟨⟩
    rw [h.1]

/-- Every token begins where the one before it ends. -/
private theorem Contiguous.isChain {offset : ℕ} {ts : List Token} (h : Contiguous offset ts) :
    ts.IsChain fun t u => u.span.start = t.span.stop := by
  induction ts generalizing offset with
  | nil => exact .nil
  | cons t ts ih => exact List.isChain_cons.mpr ⟨h.2.start_of_head?, ih h.2⟩

/-- The last token ends where the characters of all of them do. -/
private theorem Contiguous.stop_of_getLast? {offset : ℕ} {ts : List Token}
    (h : Contiguous offset ts) : (ts.getLast?.elim offset fun t => t.span.stop) =
      offset + Text.byteLength (ts.flatMap (·.text.toList)) := by
  induction ts generalizing offset with
  | nil => rfl
  | cons t ts ih =>
    have hts := ih h.2
    have hlast : ((t :: ts).getLast?.elim offset fun t => t.span.stop) =
        ts.getLast?.elim t.span.stop fun t => t.span.stop := by
      rw [List.getLast?_cons]
      cases ts.getLast? <;> rfl
    rw [hlast, hts, h.1, List.flatMap_cons, Text.byteLength_append, Nat.add_assoc]

/-- **The tokens of a source tile it.** -/
theorem tiles_scan (source : String) : Tiles source.toList (scan source) where
  nonempty _ := start_lt_stop_of_mem_scan
  first := (contiguous_scan source).start_of_head?
  adjacent := (contiguous_scan source).isChain
  last := by
    have hlast := (contiguous_scan source).stop_of_getLast?
    rwa [flatMap_text_scan, Nat.zero_add] at hlast

/-- No two unexpected tokens are neighbours. -/
private theorem Lexed.isChain {ts : List Token} (h : Lexed ts) :
    ts.IsChain fun t u => t.kind = .unexpected → u.kind ≠ .unexpected := by
  induction ts with
  | nil => exact .nil
  | cons t ts ih =>
    obtain ⟨-, hnext, hts⟩ := h
    exact List.isChain_cons.mpr ⟨fun u hu hkind => hnext hkind u hu, ih hts⟩

/-- **Lexing loses nothing.** The tokens of a source tile it, cut where characters begin; each is
the text at its place, so that put together they are the source; no two neighbours are both
unexpected; and they are the longest matches that the source splits into, with what nothing matches
joined. -/
theorem scan_lossless (source : String) :
    Tiles source.toList (scan source) ∧
      (∀ t ∈ scan source, t.span.Lies source.toList ∧
        Text.slice? source.toList t.span = some t.text.toList) ∧
      (scan source).IsChain (fun t u => t.kind = .unexpected → u.kind ≠ .unexpected) ∧
      String.join ((scan source).map Token.text) = source ∧
      ∃ ps, Munches source.toList ps ∧ scan source = place 0 (joinUnexpected ps) := by
  refine ⟨tiles_scan source, fun t ht => ⟨lies_of_mem_scan ht, slice?_of_mem_scan ht⟩,
    (lexed_scan source).isChain, ?_, pieces source.toList, munches_iff.mpr rfl, rfl⟩
  rw [← String.toList_inj, String.toList_join, List.flatMap_map]
  exact flatMap_text_scan source

/-- **Tokens do not depend on what follows them.** Alone, the text of a token other than an
unexpected one is a single token of the same kind, and it matches this kind and no other. -/
theorem scan_text_of_mem_scan {source : String} {t : Token} (ht : t ∈ scan source)
    (hkind : t.kind ≠ .unexpected) :
    scan t.text = [⟨t.kind, t.text, ⟨0, Text.byteLength t.text.toList⟩⟩] ∧
      ∀ kind : Kind, kind.Matches t.text.toList ↔ kind = t.kind := by
  have hmatches := matches_of_mem_scan ht hkind
  refine ⟨hmatches.scan_eq, fun kind => ⟨hmatches.kind_eq, ?_⟩⟩
  rintro rfl
  exact hmatches

/-- A zero in front of an `x` that no digits follow, and a comment in front of more stars: both have
been cut where something longer was given up. -/
theorem scan_text_of_mem_scan_cut :
    ((⟨.number, "0", ⟨0, 1⟩⟩ : Token) ∈ scan "0x/***/*/" ∧
      scan "0" = [⟨.number, "0", ⟨0, 1⟩⟩]) ∧
    (⟨.blockComment, "/***/", ⟨2, 7⟩⟩ : Token) ∈ scan "0x/***/*/" ∧
      scan "/***/" = [⟨.blockComment, "/***/", ⟨0, 5⟩⟩] := by
  have hzero : (⟨.number, "0", ⟨0, 1⟩⟩ : Token) ∈ scan "0x/***/*/" := by decide
  have hcomment : (⟨.blockComment, "/***/", ⟨2, 7⟩⟩ : Token) ∈ scan "0x/***/*/" := by decide
  exact ⟨⟨hzero, (scan_text_of_mem_scan hzero (by decide)).1⟩,
    hcomment, (scan_text_of_mem_scan hcomment (by decide)).1⟩

end Reifier.Token
