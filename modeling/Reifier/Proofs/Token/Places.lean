import Reifier.Proofs.Token.Kinds

/-!
# Where tokens stand

A span lies in a text if its ends are in order and no character straddles one of them; such a span
reads back (`Span.lies_iff`). The span of a token lies in its text and reads back as the token
(`Token.slice?_of_mem_scan`), and each token stands before those that follow it
(`Token.pairwise_precedes_scan`).
-/

namespace Reifier

/-! ### Spans in a text -/

/-- An offset at which a character of the text begins, or at which the text ends. -/
def Text.IsBoundary (cs : List Char) (offset : ℕ) : Prop :=
  ∃ before after, cs = before ++ after ∧ byteLength before = offset

/-- A span with its ends in order, neither of them inside a character. -/
structure Span.Lies (cs : List Char) (span : Span) : Prop where
  le : span.start ≤ span.stop
  start : Text.IsBoundary cs span.start
  stop : Text.IsBoundary cs span.stop

/-- A span ends before another one begins, or there. -/
def Span.Precedes (s t : Span) : Prop := s.stop ≤ t.start

namespace Text

theorem isBoundary_zero (cs : List Char) : IsBoundary cs 0 := ⟨[], cs, rfl, rfl⟩

theorem isBoundary_byteLength (cs : List Char) : IsBoundary cs (byteLength cs) :=
  ⟨cs, [], (List.append_nil cs).symm, rfl⟩

/-- A text without bytes is empty, since every character has some. -/
theorem eq_nil_of_byteLength_eq_zero {cs : List Char} (h : byteLength cs = 0) : cs = [] := by
  cases cs with
  | nil => rfl
  | cons c cs =>
    have hpos := c.utf8Size_pos
    rw [byteLength_cons] at h
    omega

/-- Of two boundaries in order the first one bounds a front part of what the second one bounds. -/
private theorem exists_of_isBoundary_le {cs : List Char} {m n : ℕ} (hm : IsBoundary cs m)
    (hn : IsBoundary cs n) (hle : m ≤ n) :
    ∃ before between after, cs = before ++ between ++ after ∧ byteLength before = m ∧
      m + byteLength between = n := by
  obtain ⟨before, back, hcs, rfl⟩ := hm
  obtain ⟨front, after, hcs', rfl⟩ := hn
  rcases List.append_eq_append_iff.mp (hcs.symm.trans hcs') with ⟨more, rfl, rfl⟩ | ⟨more, rfl, rfl⟩
  · exact ⟨before, more, after, by rw [hcs'], rfl, (byteLength_append before more).symm⟩
  · -- The first one comes second only if nothing stands between them.
    rw [byteLength_append] at hle
    have hmore : more = [] := eq_nil_of_byteLength_eq_zero (by omega)
    subst hmore
    exact ⟨front, [], back, by simpa using hcs, by simp, by simp⟩

/-- A boundary splits the text. -/
private theorem isBoundary_of_dropBytes? {cs rest : List Char} {n : ℕ}
    (h : dropBytes? cs n = some rest) : ∃ before, cs = before ++ rest ∧ byteLength before = n := by
  fun_induction dropBytes? cs n with
  | case1 cs => exact ⟨[], Option.some.inj h, rfl⟩
  | case2 => cases h
  | case3 c cs n hle ih =>
    obtain ⟨before, rfl, hbefore⟩ := ih h
    refine ⟨c :: before, rfl, ?_⟩
    rw [byteLength_cons]
    omega
  | case4 => cases h

/-- The bytes that are taken are those of characters at the front of the text. -/
theorem isPrefix_of_takeBytes? {cs front : List Char} {n : ℕ} (h : takeBytes? cs n = some front) :
    ∃ after, cs = front ++ after ∧ byteLength front = n := by
  fun_induction takeBytes? cs n generalizing front with
  | case1 cs =>
    cases h
    exact ⟨cs, rfl, rfl⟩
  | case2 => cases h
  | case3 c cs n hle ih =>
    obtain ⟨front, hfront, rfl⟩ := Option.map_eq_some_iff.mp h
    obtain ⟨after, rfl, hlength⟩ := ih hfront
    refine ⟨after, rfl, ?_⟩
    rw [byteLength_cons]
    omega
  | case4 => cases h

end Text

namespace Span

/-- **A span lies in a text if and only if it reads back.** -/
theorem lies_iff {cs : List Char} {span : Span} :
    span.Lies cs ↔ ∃ part, Text.slice? cs span = some part := by
  constructor
  · rintro ⟨hle, hstart, hstop⟩
    obtain ⟨before, between, after, rfl, hbefore, hbetween⟩ :=
      Text.exists_of_isBoundary_le hstart hstop hle
    obtain ⟨start, stop⟩ := span
    dsimp only at hbefore hbetween
    subst hbefore hbetween
    exact ⟨between, Text.slice?_append before between after⟩
  · rintro ⟨part, hslice⟩
    unfold Text.slice? at hslice
    split at hslice
    · rename_i hle
      obtain ⟨rest, hrest, hpart⟩ := Option.bind_eq_some_iff.mp hslice
      obtain ⟨before, rfl, hbefore⟩ := Text.isBoundary_of_dropBytes? hrest
      obtain ⟨after, rfl, hlength⟩ := Text.isPrefix_of_takeBytes? hpart
      refine ⟨hle, ⟨before, _, rfl, hbefore⟩, ⟨before ++ part, after, ?_, ?_⟩⟩
      · rw [List.append_assoc]
      · rw [Text.byteLength_append, hbefore, hlength]
        omega
    · cases hslice

/-- A span that lies in a text ends there. -/
theorem Lies.stop_le {cs : List Char} {span : Span} (h : span.Lies cs) :
    span.stop ≤ Text.byteLength cs := by
  obtain ⟨before, after, rfl, hstop⟩ := h.stop
  rw [Text.byteLength_append, hstop]
  exact Nat.le_add_right _ _

/-- What covers two spans of a text lies in the text. -/
theorem Lies.cover {cs : List Char} {s t : Span} (hs : s.Lies cs) (ht : t.Lies cs) :
    (s.cover t).Lies cs := by
  refine ⟨(min_le_left _ _).trans (hs.le.trans (le_max_left _ _)), ?_, ?_⟩
  · rcases min_choice s.start t.start with hmin | hmin
    · rw [Span.cover, hmin]
      exact hs.start
    · rw [Span.cover, hmin]
      exact ht.start
  · rcases max_choice s.stop t.stop with hmax | hmax
    · rw [Span.cover, hmax]
      exact hs.stop
    · rw [Span.cover, hmax]
      exact ht.stop

theorem lies_point {cs : List Char} {offset : ℕ} (h : Text.IsBoundary cs offset) :
    (Span.point offset).Lies cs := ⟨le_rfl, h, h⟩

end Span

/-! ### Spans of tokens -/

namespace Token

/-- A token is a part of the text, and its span says where. -/
private theorem exists_append_of_mem_place {ps : List Piece} {offset : ℕ} {t : Token}
    (h : t ∈ place offset ps) :
    ∃ before after, ps.flatMap Piece.chars = before ++ t.text.toList ++ after ∧
      t.span = ⟨offset + Text.byteLength before,
        offset + Text.byteLength before + Text.byteLength t.text.toList⟩ ∧
      t.text.toList ≠ [] := by
  induction ps generalizing offset with
  | nil => cases h
  | cons p ps ih =>
    rw [List.flatMap_cons]
    rcases List.mem_cons.mp h with rfl | h
    · refine ⟨[], ps.flatMap Piece.chars, ?_, ?_, ?_⟩
      · simp
      · simp
      · rw [String.toList_ofList]
        exact List.cons_ne_nil _ _
    · obtain ⟨before, after, hchars, hspan, hne⟩ := ih h
      refine ⟨p.chars ++ before, after, ?_, ?_, hne⟩
      · rw [hchars]
        simp
      · rw [hspan, Text.byteLength_append, Nat.add_assoc]

/-- A token of a source stands between two parts of it, and its span is where it stands. -/
theorem exists_append_of_mem_scan {source : String} {t : Token} (h : t ∈ scan source) :
    ∃ before after, source.toList = before ++ t.text.toList ++ after ∧
      t.span = ⟨Text.byteLength before,
        Text.byteLength before + Text.byteLength t.text.toList⟩ ∧ t.text.toList ≠ [] := by
  obtain ⟨before, after, hchars, hspan, hne⟩ := exists_append_of_mem_place h
  rw [flatMap_chars_joinUnexpected, flatMap_chars_pieces] at hchars
  rw [Nat.zero_add] at hspan
  exact ⟨before, after, hchars, hspan, hne⟩

/-- **The span of a token reads back as the token.** -/
theorem slice?_of_mem_scan {source : String} {t : Token} (h : t ∈ scan source) :
    Text.slice? source.toList t.span = some t.text.toList := by
  obtain ⟨before, after, hchars, hspan, -⟩ := exists_append_of_mem_scan h
  rw [hchars, hspan, Text.slice?_append]

/-- The span of a token lies in the source. -/
theorem lies_of_mem_scan {source : String} {t : Token} (h : t ∈ scan source) :
    t.span.Lies source.toList :=
  Span.lies_iff.mpr ⟨_, slice?_of_mem_scan h⟩

/-- No token is empty. -/
theorem start_lt_stop_of_mem_scan {source : String} {t : Token} (h : t ∈ scan source) :
    t.span.start < t.span.stop := by
  obtain ⟨before, after, -, hspan, hne⟩ := exists_append_of_mem_scan h
  have hpos : 0 < Text.byteLength t.text.toList :=
    Nat.pos_of_ne_zero fun hzero => hne (Text.eq_nil_of_byteLength_eq_zero hzero)
  rw [hspan]
  exact Nat.lt_add_of_pos_right hpos

/-- No two tokens overlap. -/
private theorem pairwise_precedes_place (offset : ℕ) (ps : List Piece) :
    (place offset ps).Pairwise fun t u => t.span.Precedes u.span := by
  induction ps generalizing offset with
  | nil => exact .nil
  | cons p ps ih =>
    have hle : ∀ t ∈ place (offset + Text.byteLength p.chars) ps,
        offset + Text.byteLength p.chars ≤ t.span.start := by
      intro t ht
      obtain ⟨before, after, -, hspan, -⟩ := exists_append_of_mem_place ht
      rw [hspan]
      exact Nat.le_add_right _ _
    exact List.pairwise_cons.mpr ⟨hle, ih _⟩

/-- **Each token stands before those that follow it.** -/
theorem pairwise_precedes_scan (source : String) :
    (scan source).Pairwise fun t u => t.span.Precedes u.span :=
  pairwise_precedes_place 0 _

end Token

end Reifier
