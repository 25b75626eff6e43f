import Reifier.Proofs.Token.Lexing

/-!
# Each piece is the longest match

What the tokens of a kind look like is said by patterns (`Kind.Matches`), whatever way they are
found. The piece that is taken from a text is the longest match, of the only kind that matches as
much (`reaches_pieceAt`, `matches_pieceAt`). Where nothing matches it is unexpected, and holds what
could still have become a match. Splitting a text is taking such pieces one after another
(`munches_iff`).
-/

namespace Reifier.Token

/-! ### Patterns -/

/-- A fraction of a number, which may be missing. -/
inductive IsFraction : List Char → Prop
  | none : IsFraction []
  | some {ds : List Char} (hne : ds ≠ []) (hds : ∀ d ∈ ds, d.isDigit = true) :
      IsFraction ('.' :: ds)

/-- An exponent of a number, which may be missing. -/
inductive IsExponent : List Char → Prop
  | none : IsExponent []
  | unsigned {e : Char} {ds : List Char} (he : e = 'e' ∨ e = 'E') (hne : ds ≠ [])
      (hds : ∀ d ∈ ds, d.isDigit = true) : IsExponent (e :: ds)
  | signed {e s : Char} {ds : List Char} (he : e = 'e' ∨ e = 'E') (hs : s = '+' ∨ s = '-')
      (hne : ds ≠ []) (hds : ∀ d ∈ ds, d.isDigit = true) : IsExponent (e :: s :: ds)

/-- What stands between the quotes of a string. -/
inductive StringBody (quote : Char) : List Char → Prop
  | nil : StringBody quote []
  | char {c : Char} {cs : List Char} (hquote : c ≠ quote) (hescape : c ≠ '\\') (hfeed : c ≠ '\n')
      (rest : StringBody quote cs) : StringBody quote (c :: cs)
  | escape (c : Char) {cs : List Char} (rest : StringBody quote cs) :
      StringBody quote ('\\' :: c :: cs)
  | lineBreak {cs : List Char} (rest : StringBody quote cs) :
      StringBody quote ('\\' :: '\r' :: '\n' :: cs)

/-- What stands between the marks of a template. -/
inductive TemplateBody : List Char → Prop
  | nil : TemplateBody []
  | char {c : Char} {cs : List Char} (hmark : c ≠ '\x60') (hescape : c ≠ '\\')
      (rest : TemplateBody cs) : TemplateBody (c :: cs)
  | escape {c : Char} {cs : List Char} (hfeed : c ≠ '\n') (rest : TemplateBody cs) :
      TemplateBody ('\\' :: c :: cs)

/-- The texts that are tokens of a kind. -/
inductive Kind.Matches : Kind → List Char → Prop
  | sign {e : Kind × Char × List Char} (h : e ∈ punctuation) : Matches e.1 (e.2.1 :: e.2.2)
  | string {quote : Char} {body : List Char} (hquote : quote = '\'' ∨ quote = '\x22')
      (hbody : StringBody quote body) : Matches .string (quote :: (body ++ [quote]))
  | template {body : List Char} (hbody : TemplateBody body) :
      Matches .template ('\x60' :: (body ++ ['\x60']))
  | decimal {c : Char} {ds fs es : List Char} (hc : c.isDigit = true)
      (hds : ∀ d ∈ ds, d.isDigit = true) (hfs : IsFraction fs) (hes : IsExponent es) :
      Matches .number (c :: (ds ++ (fs ++ es)))
  | hex {x : Char} {ds : List Char} (hx : x = 'x' ∨ x = 'X') (hne : ds ≠ [])
      (hds : ∀ d ∈ ds, Hex.isDigit d = true) : Matches .number ('0' :: x :: ds)
  | bigInt {c : Char} {ds : List Char} (hc : c.isDigit = true) (hds : ∀ d ∈ ds, d.isDigit = true) :
      Matches .bigInt (c :: (ds ++ ['n']))
  | identifier {c : Char} {cs : List Char} (hc : Name.isStart c = true)
      (hcs : ∀ d ∈ cs, Name.isPart d = true) : Matches .identifier (c :: cs)
  | lineComment {cs : List Char} (hcs : '\n' ∉ cs) : Matches .lineComment ('/' :: '/' :: cs)
  | blockComment {body : List Char} (hbody : ¬ ['*', '/'] <:+: body) :
      Matches .blockComment ('/' :: '*' :: (body ++ ['*', '/']))
  | blank {c : Char} {cs : List Char} (hc : isSpace c = true) (hcs : ∀ d ∈ cs, isSpace d = true) :
      Matches .blank (c :: cs)

/-- A text that could become a token. -/
def Viable (cs : List Char) : Prop := ∃ kind more, Kind.Matches kind (cs ++ more)

/-! ### Strings, templates and comments -/

/-- The body of a string does not begin with a line feed. -/
private theorem StringBody.head?_ne {quote : Char} (hquote : quote ≠ '\n') {body : List Char}
    (h : StringBody quote body) (rest : List Char) :
    ∀ d ∈ (body ++ quote :: rest).head?, d ≠ '\n' := by
  cases h with
  | nil =>
    rintro _ ⟨⟩
    exact hquote
  | char _ _ hfeed _ =>
    rintro _ ⟨⟩
    exact hfeed
  | escape c _ =>
    rintro _ ⟨⟩
    decide
  | lineBreak _ =>
    rintro _ ⟨⟩
    decide

/-- The first bare quote closes a string. -/
private theorem stringRun_body {quote : Char} (hquote : quote = '\'' ∨ quote = '\x22')
    {body : List Char} (h : StringBody quote body) (rest : List Char) :
    stringRun quote (body ++ quote :: rest) = ⟨body ++ [quote], true⟩ := by
  have hfeed : quote ≠ '\n' := by rcases hquote with rfl | rfl <;> decide
  induction h with
  | nil =>
    have hback : quote ≠ '\\' := by rcases hquote with rfl | rfl <;> decide
    rw [List.nil_append, stringRun.eq_4 _ _ _ (fun _ hc _ => hback hc) fun _ _ hc _ => hback hc,
      if_pos rfl]
    rfl
  | char hne hescape hfeed _ ih =>
    rw [List.cons_append, stringRun_cons hescape hne hfeed, ih]
    rfl
  | @escape c cs hcs ih =>
    have hnext := hcs.head?_ne hfeed rest
    rw [List.cons_append, List.cons_append, stringRun.eq_3 _ _ _ fun ds _ hds => ?_, ih]
    · rfl
    · exact hnext '\n' (by rw [hds]; rfl) rfl
  | lineBreak _ ih =>
    rw [List.cons_append, List.cons_append, List.cons_append, stringRun.eq_2, ih]
    rfl

/-- A string that is closed has a body, and one that is not could have one. -/
private theorem exists_body_of_stringRun (quote : Char) (cs : List Char) :
    ∃ body more, StringBody quote body ∧ (stringRun quote cs).taken ++ more = body ++ [quote] ∧
      ((stringRun quote cs).closed = false ∨ more = []) := by
  fun_induction stringRun quote cs with
  | case1 => exact ⟨[], [quote], .nil, rfl, .inl rfl⟩
  | case2 cs ih =>
    obtain ⟨body, more, hbody, htaken, hclosed⟩ := ih
    exact ⟨_, more, .lineBreak hbody, congrArg (['\\', '\r', '\n'] ++ ·) htaken, hclosed⟩
  | case3 c cs _ ih =>
    obtain ⟨body, more, hbody, htaken, hclosed⟩ := ih
    exact ⟨_, more, .escape c hbody, congrArg (['\\', c] ++ ·) htaken, hclosed⟩
  | case4 cs => exact ⟨[], [], .nil, rfl, .inr rfl⟩
  | case5 => exact ⟨[], [quote], .nil, rfl, .inl rfl⟩
  | case6 c cs _ hno hquote hfeed ih =>
    by_cases hescape : c = '\\'
    · -- The backslash is the last character.
      subst hescape
      cases cs with
      | nil => exact ⟨['\\', '\\'], ['\\', quote], .escape '\\' .nil, rfl, .inl rfl⟩
      | cons d ds => exact (hno d ds rfl rfl).elim
    · obtain ⟨body, more, hbody, htaken, hclosed⟩ := ih
      exact ⟨_, more, .char hquote hescape hfeed hbody, congrArg ([c] ++ ·) htaken, hclosed⟩

/-- The first bare mark closes a template. -/
private theorem templateRun_body {body : List Char} (h : TemplateBody body) (rest : List Char) :
    templateRun (body ++ '\x60' :: rest) = ⟨body ++ ['\x60'], true⟩ := by
  induction h with
  | nil => rfl
  | char hmark hescape _ ih =>
    rw [List.cons_append, templateRun.eq_3 _ _ fun _ _ hc _ => hescape hc, if_neg hmark, ih]
    rfl
  | escape hfeed _ ih =>
    rw [List.cons_append, List.cons_append, templateRun.eq_2, if_neg hfeed, ih]
    rfl

/-- A template that is closed has a body, and one that is not could have one. -/
private theorem exists_body_of_templateRun (cs : List Char) :
    ∃ body more, TemplateBody body ∧ (templateRun cs).taken ++ more = body ++ ['\x60'] ∧
      ((templateRun cs).closed = false ∨ more = []) := by
  fun_induction templateRun cs with
  | case1 => exact ⟨[], ['\x60'], .nil, rfl, .inl rfl⟩
  | case2 => exact ⟨['\\', '\\'], ['\\', '\x60'], .escape (by decide) .nil, rfl, .inl rfl⟩
  | case3 c cs hfeed ih =>
    obtain ⟨body, more, hbody, htaken, hclosed⟩ := ih
    exact ⟨_, more, .escape hfeed hbody, congrArg (['\\', c] ++ ·) htaken, hclosed⟩
  | case4 cs => exact ⟨[], [], .nil, rfl, .inr rfl⟩
  | case5 c cs hno hmark ih =>
    by_cases hescape : c = '\\'
    · subst hescape
      cases cs with
      | nil => exact ⟨['\\', '\\'], ['\\', '\x60'], .escape (by decide) .nil, rfl, .inl rfl⟩
      | cons d ds => exact (hno d ds rfl rfl).elim
    · obtain ⟨body, more, hbody, htaken, hclosed⟩ := ih
      exact ⟨_, more, .char hmark hescape hbody, congrArg ([c] ++ ·) htaken, hclosed⟩

/-- A comment that is closed has a body, and one that is not could have one. -/
private theorem exists_body_of_blockRun (cs : List Char) :
    ∃ body more, ¬ ['*', '/'] <:+: body ∧ (blockRun cs).taken ++ more = body ++ ['*', '/'] ∧
      ((blockRun cs).closed = false ∨ more = []) := by
  fun_induction blockRun cs with
  | case1 => exact ⟨[], ['*', '/'], by simp, rfl, .inl rfl⟩
  | case2 => exact ⟨[], [], by simp, rfl, .inr rfl⟩
  | case3 c cs hno ih =>
    cases cs with
    | nil => exact ⟨[c], ['*', '/'], fun h => absurd h.length_le (Nat.lt_irrefl 1), rfl, .inl rfl⟩
    | cons d ds =>
      obtain ⟨body, more, hbody, htaken, hclosed⟩ := ih
      refine ⟨c :: body, more, ?_, congrArg ([c] ++ ·) htaken, hclosed⟩
      rw [List.infix_cons_iff, not_or]
      refine ⟨fun hprefix => ?_, hbody⟩
      -- The body begins as the text goes on.
      obtain ⟨rest, hrest⟩ := hprefix
      obtain ⟨rfl, rfl⟩ := List.cons.inj hrest
      have hfront := blockRun_taken_isPrefix (d :: ds)
      rcases hrun : (blockRun (d :: ds)).taken with _ | ⟨e, es⟩
      · rw [blockRun.eq_def] at hrun
        split at hrun
        · rename_i hnil
          cases hnil
        · cases hrun
        · cases hrun
      · rw [hrun] at htaken hfront
        obtain rfl : e = '/' := (List.cons.inj htaken).1
        obtain rfl : '/' = d := (List.cons_prefix_cons.mp hfront).1
        exact hno ds rfl rfl

/-! ### Numbers -/

variable {rest : List Char}

private theorem IsExponent.head?_eq {es : List Char} (h : IsExponent es) :
    ∀ d ∈ es.head?, d = 'e' ∨ d = 'E' := by
  cases h with
  | none => rintro _ ⟨⟩
  | unsigned he _ _ =>
    rintro _ ⟨⟩
    exact he
  | signed he _ _ _ =>
    rintro _ ⟨⟩
    exact he

/-- What follows the digits of a number, if anything does, begins with no digit. -/
theorem head?_of_parts {fs es : List Char} (hfs : IsFraction fs) (hes : IsExponent es) :
    ∀ d ∈ (fs ++ es).head?, d = '.' ∨ d = 'e' ∨ d = 'E' := by
  cases hfs with
  | none => exact fun d hd => .inr (hes.head?_eq d hd)
  | some _ _ =>
    rintro _ ⟨⟩
    exact .inl rfl

/-- An exponent at the front of a text is taken, and maybe more digits. -/
private theorem length_exponent_le {es : List Char} (h : IsExponent es) (rest : List Char) :
    es.length ≤ (exponentPart (es ++ rest)).length := by
  -- Digits may go on in what follows, and so are at least those given.
  have hdigits : ∀ ds : List Char, ds ≠ [] → (∀ d ∈ ds, d.isDigit = true) →
      ∃ d more, (ds ++ rest).takeWhile Char.isDigit = d :: more ∧ ds.length ≤ more.length + 1 := by
    intro ds hne hds
    obtain ⟨d, more, rfl⟩ := List.exists_cons_of_ne_nil hne
    obtain ⟨hd, hmore⟩ := List.forall_mem_cons.mp hds
    refine ⟨d, (more ++ rest).takeWhile Char.isDigit, ?_, ?_⟩
    · rw [List.cons_append, List.takeWhile_cons_of_pos hd]
    · rw [List.takeWhile_append_of_pos hmore]
      simp
  cases h with
  | none => exact Nat.zero_le _
  | @unsigned e ds he hne hds =>
    obtain ⟨d, more, htake, hle⟩ := hdigits ds hne hds
    obtain ⟨s, ss, rfl⟩ := List.exists_cons_of_ne_nil hne
    have hsign : ¬(s = '+' ∨ s = '-') := by
      have hs := hds s List.mem_cons_self
      rintro (rfl | rfl) <;> exact absurd hs (by decide)
    simp only [List.cons_append] at htake ⊢
    simp only [exponentPart, if_pos he, if_neg hsign, htake]
    simpa using hle
  | @signed e s ds he hs hne hds =>
    obtain ⟨d, more, htake, hle⟩ := hdigits ds hne hds
    simp only [List.cons_append, exponentPart, if_pos he, if_pos hs, htake]
    simpa using hle

/-- A point with digits behind it is a fraction. -/
private theorem fractionPart_of_takeWhile {cs ds : List Char} (hne : ds ≠ [])
    (h : cs.takeWhile Char.isDigit = ds) : fractionPart ('.' :: cs) = '.' :: ds := by
  obtain ⟨d, more, rfl⟩ := List.exists_cons_of_ne_nil hne
  simp only [fractionPart, h]

/-- A number takes at least any fraction and exponent that follow. -/
private theorem length_parts_le {fs es : List Char} (hfs : IsFraction fs) (hes : IsExponent es)
    (rest : List Char) :
    (fs ++ es).length ≤ (fractionPart (fs ++ es ++ rest) ++
      exponentPart ((fs ++ es ++ rest).drop (fractionPart (fs ++ es ++ rest)).length)).length := by
  rw [List.length_append]
  cases es with
  | nil =>
    rw [List.append_nil, List.length_append]
    refine (Nat.le_add_right _ _).trans' ?_
    cases hfs with
    | none => exact Nat.zero_le _
    | @some ds hne hds =>
      have htake : (ds ++ rest).takeWhile Char.isDigit = ds ++ rest.takeWhile Char.isDigit :=
        List.takeWhile_append_of_pos hds
      rw [List.cons_append, fractionPart_of_takeWhile (by simp [hne]) htake]
      simp
  | cons e es =>
    have he := hes.head?_eq e rfl
    -- A letter ends the digits of the fraction.
    have hexact : fractionPart (fs ++ e :: es ++ rest) = fs := by
      cases hfs with
      | none => exact fractionPart_of_ne (by rcases he with rfl | rfl <;> decide) _
      | @some ds hne hds =>
        rw [List.append_assoc, List.cons_append]
        refine fractionPart_of_takeWhile hne (takeWhile_append_eq ?_ hds)
        rintro _ ⟨⟩
        rcases he with rfl | rfl <;> decide
    rw [hexact, List.append_assoc, List.drop_left, List.length_append]
    exact Nat.add_le_add_left (length_exponent_le hes rest) _

/-! ### Longest matches -/

/-- A piece that takes at least the characters `cs`, and if no more, then as one of the kind. -/
structure Piece.Reaches (p : Piece) (kind : Kind) (cs : List Char) : Prop where
  expected : p.kind ≠ .unexpected
  le : cs.length ≤ p.chars.length
  kind : cs.length = p.chars.length → p.kind = kind

/-- An `x` is needed for digits of base sixteen. -/
private theorem hexPart_eq_nil {c : Char} {cs : List Char}
    (h : ∀ x ∈ cs.head?, ¬(x = 'x' ∨ x = 'X')) : hexPart c cs = [] := by
  cases cs with
  | nil => rfl
  | cons x cs => exact if_neg fun hboth => h x rfl hboth.2

theorem not_x_of_isDigit {d : Char} (h : d.isDigit = true) : ¬(d = 'x' ∨ d = 'X') := by
  rintro (rfl | rfl) <;> exact absurd h (by decide)

/-- If a fraction or an exponent follows digits, these are all that is taken as digits. -/
private theorem digits_of_parts {ds parts : List Char} (hds : ∀ d ∈ ds, d.isDigit = true)
    (hhead : ∀ d ∈ parts.head?, d = '.' ∨ d = 'e' ∨ d = 'E') (hne : parts ≠ [])
    (rest : List Char) : (ds ++ parts ++ rest).takeWhile Char.isDigit = ds ∧
      (ds ++ parts ++ rest).dropWhile Char.isDigit = parts ++ rest := by
  obtain ⟨d, more, rfl⟩ := List.exists_cons_of_ne_nil hne
  have hstop : ∀ e ∈ (d :: more ++ rest).head?, e.isDigit = false := by
    rintro _ ⟨⟩
    rcases hhead d rfl with rfl | rfl | rfl <;> decide
  rw [List.append_assoc]
  exact ⟨takeWhile_append_eq hstop hds, dropWhile_append_eq hstop hds⟩

/-- Digits and what may follow them are taken by the number there, or by something longer. -/
private theorem reaches_decimal (c : Char) {ds fs es : List Char} (hds : ∀ d ∈ ds, d.isDigit = true)
    (hfs : IsFraction fs) (hes : IsExponent es) (rest : List Char) :
    (numberPiece c (ds ++ (fs ++ es) ++ rest)).Reaches .number (c :: (ds ++ (fs ++ es))) := by
  have hhead := head?_of_parts hfs hes
  obtain ⟨parts, hparts⟩ : ∃ parts, fs ++ es = parts := ⟨_, rfl⟩
  rw [hparts] at hhead ⊢
  obtain ⟨cs, hcs⟩ : ∃ cs, ds ++ parts ++ rest = cs := ⟨_, rfl⟩
  have hdigits : ds.length ≤ (cs.takeWhile Char.isDigit).length := by
    rw [← hcs, List.append_assoc, List.takeWhile_append_of_pos hds, List.length_append]
    exact Nat.le_add_right _ _
  have hrun : parts ≠ [] → cs.takeWhile Char.isDigit = ds ∧
      cs.dropWhile Char.isDigit = parts ++ rest := by
    rw [← hcs]
    exact fun hne => digits_of_parts hds hhead hne rest
  rw [hcs]
  unfold numberPiece
  dsimp only
  split_ifs with hhex hbig
  · have hnil : parts = [] := by
      by_contra hne
      obtain ⟨d, more, rfl⟩ := List.exists_cons_of_ne_nil hne
      rw [(hrun hne).2] at hbig
      cases hbig
      exact absurd (hhead 'n' rfl) (by decide)
    rw [hnil, List.append_nil]
    refine ⟨Kind.noConfusion, ?_, fun hlength => ?_⟩
    · simp only [Piece.chars, List.length_cons, List.length_append, List.length_nil]
      omega
    · simp only [Piece.chars, List.length_cons, List.length_append, List.length_nil] at hlength
      omega
  · refine ⟨Kind.noConfusion, ?_, fun _ => rfl⟩
    simp only [Piece.chars, List.length_cons, List.length_append]
    by_cases hne : parts = []
    · rw [hne, List.length_nil]
      omega
    · have hle := length_parts_le hfs hes rest
      rw [hparts, List.length_append] at hle
      rw [(hrun hne).1, (hrun hne).2]
      omega
  · -- An `x` follows the zero, so there is nothing else of a number.
    have hnil : ds ++ parts = [] := by
      by_contra hne
      refine hhex (List.isEmpty_iff.mpr (hexPart_eq_nil fun x hx => ?_))
      rw [← hcs, List.head?_append_of_ne_nil _ hne] at hx
      cases ds with
      | nil => rcases hhead x hx with rfl | rfl | rfl <;> decide
      | cons d ds => exact Option.some.inj hx ▸ not_x_of_isDigit (hds d List.mem_cons_self)
    rw [hnil]
    exact ⟨Kind.noConfusion, Nat.succ_le_succ (Nat.zero_le _), fun _ => rfl⟩

private theorem Piece.reaches_self (p : Piece) (h : p.kind ≠ .unexpected) :
    p.Reaches p.kind p.chars :=
  ⟨h, le_rfl, fun _ => rfl⟩

/-- Digits with the letter of a big number behind them are taken as one, whatever follows. -/
private theorem numberPiece_bigInt (c : Char) {ds : List Char} (hds : ∀ d ∈ ds, d.isDigit = true)
    (rest : List Char) : numberPiece c (ds ++ ['n'] ++ rest) = ⟨.bigInt, c, ds ++ ['n']⟩ := by
  have hstop : ∀ d ∈ ('n' :: rest).head?, d.isDigit = false := by
    rintro _ ⟨⟩
    decide
  have hhex : hexPart c (ds ++ 'n' :: rest) = [] := by
    refine hexPart_eq_nil fun x hx => ?_
    cases ds with
    | nil =>
      cases hx
      decide
    | cons d ds => exact Option.some.inj hx ▸ not_x_of_isDigit (hds d List.mem_cons_self)
  rw [List.append_assoc, List.singleton_append]
  simp only [numberPiece, hhex, List.isEmpty_nil, if_true, dropWhile_append_eq hstop hds,
    List.head?_cons, takeWhile_append_eq hstop hds]

/-- Hexadecimal digits are taken as a number, at least as far as they go. -/
private theorem reaches_hex {x : Char} {ds : List Char} (hx : x = 'x' ∨ x = 'X') (hne : ds ≠ [])
    (hds : ∀ d ∈ ds, Hex.isDigit d = true) (rest : List Char) :
    (numberPiece '0' (x :: (ds ++ rest))).Reaches .number ('0' :: x :: ds) := by
  have hhex : hexPart '0' (x :: (ds ++ rest)) = ds ++ rest.takeWhile Hex.isDigit := by
    rw [hexPart, if_pos ⟨rfl, hx⟩, List.takeWhile_append_of_pos hds]
  have hpiece : numberPiece '0' (x :: (ds ++ rest)) =
      ⟨.number, '0', x :: (ds ++ rest.takeWhile Hex.isDigit)⟩ := by
    rw [numberPiece, hhex]
    exact if_neg (by simp [hne])
  rw [hpiece]
  exact ⟨Kind.noConfusion, by simp [Piece.chars], fun _ => rfl⟩

/-- A run of characters is at least as long as any front of it. -/
private theorem length_le_takeWhile {p : Char → Bool} {cs : List Char} (h : ∀ d ∈ cs, p d = true)
    (rest : List Char) : cs.length ≤ ((cs ++ rest).takeWhile p).length := by
  rw [List.takeWhile_append_of_pos h, List.length_append]
  exact Nat.le_add_right _ _

/-- Of two signs where one goes on with the other, the longer one is listed first. -/
private theorem pairwise_punctuation :
    punctuation.Pairwise fun e e' => e.2.1 = e'.2.1 → ¬ e.2.2 <+: e'.2.2 := by
  decide

/-- A sign at the front of a text is taken, or a longer one that it begins. -/
private theorem reaches_sign {e : Kind × Char × List Char} (h : e ∈ punctuation)
    (rest : List Char) : (pieceAt e.2.1 (e.2.2 ++ rest)).Reaches e.1 (e.2.1 :: e.2.2) := by
  rw [pieceAt_sign h]
  cases hpiece : punctuationPiece? e.2.1 (e.2.2 ++ rest) with
  | none => exact absurd (List.find?_eq_none.mp (Option.map_eq_none_iff.mp hpiece) e h) (by simp)
  | some p =>
    obtain ⟨f, hfind, rfl⟩ := Option.map_eq_some_iff.mp hpiece
    obtain ⟨hf, before, after, hsplit, hbefore⟩ := List.find?_eq_some_iff_append.mp hfind
    rw [Bool.and_eq_true, decide_eq_true_eq, List.isPrefixOf_iff_prefix] at hf
    have hkind : f.1 ≠ .unexpected := by
      have hall : ∀ f ∈ punctuation, f.1 ≠ .unexpected := by decide
      exact hall f (hsplit ▸ by simp)
    have hpairs := pairwise_punctuation
    rw [hsplit] at h hpairs
    rcases List.mem_append.mp h with hmem | hmem
    · exact absurd (hbefore e hmem) (by simp)
    rcases List.mem_cons.mp hmem with rfl | hmem
    · exact Piece.reaches_self ⟨e.1, e.2.1, e.2.2⟩ hkind
    · -- The sign found comes before `e`, so it goes on with `e`.
      have hnot := (List.pairwise_cons.mp (List.pairwise_append.mp hpairs).2.1).1 e hmem hf.1.symm
      have hprefix : e.2.2 <+: f.2.2 :=
        (List.prefix_or_prefix_of_prefix (List.prefix_append _ _) hf.2).resolve_right hnot
      refine ⟨hkind, Nat.succ_le_succ hprefix.length_le, fun hlength => ?_⟩
      have heq := hprefix.eq_of_length (Nat.succ.inj hlength)
      exact (hnot (heq ▸ List.prefix_rfl)).elim

/-- A piece that begins with a quote is a string. -/
private theorem pieceAt_quote {quote : Char} (h : quote = '\'' ∨ quote = '\x22') (cs : List Char) :
    pieceAt quote cs = (stringRun quote cs).piece .string quote := by
  rcases h with rfl | rfl <;> rfl

/-- **No match is longer than the piece, and no other one as long.** -/
theorem reaches_pieceAt {kind : Kind} {c : Char} {cs : List Char} (h : kind.Matches (c :: cs))
    (rest : List Char) : (pieceAt c (cs ++ rest)).Reaches kind (c :: cs) := by
  cases h with
  | sign h => exact reaches_sign h rest
  | @string _ body hquote hbody =>
    rw [pieceAt_quote hquote, List.append_assoc, List.singleton_append, stringRun_body hquote hbody]
    exact Piece.reaches_self ⟨.string, c, body ++ [c]⟩ Kind.noConfusion
  | @template body hbody =>
    have hpiece : pieceAt '\x60' (body ++ ['\x60'] ++ rest) =
        (templateRun (body ++ ['\x60'] ++ rest)).piece .template '\x60' := rfl
    rw [hpiece, List.append_assoc, List.singleton_append, templateRun_body hbody]
    exact Piece.reaches_self ⟨.template, '\x60', body ++ ['\x60']⟩ Kind.noConfusion
  | decimal hc hds hfs hes =>
    rw [pieceAt_of_isDigit hc]
    exact reaches_decimal c hds hfs hes rest
  | hex hx hne hds => exact reaches_hex hx hne hds rest
  | @bigInt _ ds hc hds =>
    rw [pieceAt_of_isDigit hc, numberPiece_bigInt c hds rest]
    exact Piece.reaches_self ⟨.bigInt, c, ds ++ ['n']⟩ Kind.noConfusion
  | identifier hc hcs =>
    rw [pieceAt_of_isStart hc]
    exact ⟨Kind.noConfusion, Nat.succ_le_succ (length_le_takeWhile hcs rest), fun _ => rfl⟩
  | @lineComment cs hcs =>
    -- A line comment and blanks may go on in what follows, and so are reached and not equal.
    have hline : ∀ d ∈ cs, decide (d ≠ '\n') = true := fun d hd =>
      decide_eq_true fun hfeed => hcs (hfeed ▸ hd)
    exact ⟨Kind.noConfusion, Nat.add_le_add_right (length_le_takeWhile hline rest) 2, fun _ => rfl⟩
  | @blockComment body hbody =>
    have hpiece : pieceAt '/' ('*' :: (body ++ ['*', '/']) ++ rest) =
        ((blockRun (body ++ ['*', '/'] ++ rest)).after ['*']).piece .blockComment '/' := rfl
    rw [hpiece, List.append_assoc, List.cons_append, List.singleton_append, blockRun_append hbody]
    exact Piece.reaches_self ⟨.blockComment, '/', '*' :: (body ++ ['*', '/'])⟩ Kind.noConfusion
  | blank hc hcs =>
    rw [pieceAt, if_pos hc]
    exact ⟨Kind.noConfusion, Nat.succ_le_succ (length_le_takeWhile hcs rest), fun _ => rfl⟩

/-! ### Pieces match -/

/-- What is taken as a fraction is one, or nothing. -/
private theorem isFraction_fractionPart (cs : List Char) : IsFraction (fractionPart cs) := by
  unfold fractionPart
  split
  · split
    · exact .none
    · rename_i cs hne
      refine .some (fun hnil => hne hnil) fun d hd => ?_
      exact List.all_eq_true.mp List.all_takeWhile d hd
  · exact .none

/-- What is taken as an exponent is one, or nothing. -/
private theorem isExponent_exponentPart (cs : List Char) : IsExponent (exponentPart cs) := by
  have hdigits : ∀ ds : List Char, ∀ d ∈ ds.takeWhile Char.isDigit, d.isDigit = true := fun ds =>
    List.all_eq_true.mp List.all_takeWhile
  unfold exponentPart
  split
  · split_ifs with he
    · split
      · split_ifs with hs
        · split
          · exact .none
          · rename_i hne
            exact .signed he hs (fun hnil => hne hnil) (hdigits _)
        · split
          · exact .none
          · rename_i hne
            exact .unsigned he (fun hnil => hne hnil) (hdigits _)
      · exact .none
    · exact .none
  · exact .none

/-- What is taken as a number matches its pattern. -/
private theorem matches_numberPiece {c : Char} (h : c.isDigit = true) (cs : List Char) :
    (numberPiece c cs).kind.Matches (numberPiece c cs).chars := by
  have hdigits : ∀ d ∈ cs.takeWhile Char.isDigit, d.isDigit = true :=
    List.all_eq_true.mp List.all_takeWhile
  unfold numberPiece
  dsimp only
  split_ifs with hhex hbig
  · exact .bigInt h hdigits
  · rw [Piece.chars, List.append_assoc]
    exact .decimal h hdigits (isFraction_fractionPart _) (isExponent_exponentPart _)
  · cases cs with
    | nil => exact absurd rfl hhex
    | cons x cs =>
      rw [hexPart] at hhex ⊢
      split_ifs at hhex ⊢ with hx
      · obtain ⟨rfl, hx⟩ := hx
        exact .hex hx (mt List.isEmpty_iff.mpr hhex) (List.all_eq_true.mp List.all_takeWhile)
      · exact absurd rfl hhex

/-- A run that is not closed is unexpected. -/
private theorem Run.kind_piece_iff {run : Run} {kind : Kind} {c : Char}
    (hkind : kind ≠ .unexpected) : (run.piece kind c).kind = .unexpected ↔ run.closed = false := by
  unfold Run.piece
  cases run.closed with
  | true => exact iff_of_false hkind Bool.false_ne_true.symm
  | false => exact iff_of_true rfl rfl

private theorem Run.piece_of_closed {run : Run} (h : run.closed ≠ false) (kind : Kind) (c : Char) :
    run.piece kind c = ⟨kind, c, run.taken⟩ := by
  rw [Run.piece, if_pos (Bool.eq_true_of_not_eq_false h)]

/-- **A piece that means something is a match.** -/
theorem matches_pieceAt {c : Char} {cs : List Char} (h : (pieceAt c cs).kind ≠ .unexpected) :
    (pieceAt c cs).kind.Matches (pieceAt c cs).chars := by
  unfold pieceAt at h ⊢
  split_ifs at h ⊢ with hspace hstart hdigit hquote hmark hslash
  · exact .blank hspace (List.all_eq_true.mp List.all_takeWhile)
  · exact .identifier hstart (List.all_eq_true.mp List.all_takeWhile)
  · exact matches_numberPiece hdigit cs
  · have hclosed := mt (Run.kind_piece_iff Kind.noConfusion).mpr h
    -- A string that is not closed would be unexpected.
    obtain ⟨body, more, hbody, htaken, hnil⟩ := exists_body_of_stringRun c cs
    rw [hnil.resolve_left hclosed, List.append_nil] at htaken
    rw [Run.piece_of_closed hclosed, Piece.chars, htaken]
    exact .string hquote hbody
  · subst hmark
    have hclosed := mt (Run.kind_piece_iff Kind.noConfusion).mpr h
    obtain ⟨body, more, hbody, htaken, hnil⟩ := exists_body_of_templateRun cs
    rw [hnil.resolve_left hclosed, List.append_nil] at htaken
    rw [Run.piece_of_closed hclosed, Piece.chars, htaken]
    exact .template hbody
  · unfold slashPiece at h ⊢
    split at h
    · refine .lineComment fun hmem => ?_
      simpa using List.all_eq_true.mp List.all_takeWhile _ hmem
    · rename_i cs
      have hclosed := mt (Run.kind_piece_iff Kind.noConfusion).mpr h
      obtain ⟨body, more, hbody, htaken, hnil⟩ := exists_body_of_blockRun cs
      rw [hnil.resolve_left hclosed, List.append_nil] at htaken
      have hpiece : ((blockRun cs).after ['*']).piece .blockComment '/' =
          ⟨.blockComment, '/', '*' :: (blockRun cs).taken⟩ := Run.piece_of_closed hclosed _ _
      rw [hpiece, htaken]
      exact .blockComment hbody
    · exact absurd rfl h
  · cases hsign : punctuationPiece? c cs with
    | none =>
      rw [hsign] at h
      exact absurd rfl h
    | some p =>
      obtain ⟨e, he, rfl, -, -⟩ := exists_of_punctuationPiece? hsign
      exact .sign he

/-! ### What is unexpected -/

/-- How nothing can match: what is opened is never closed, or a character begins nothing. -/
inductive Unfinished : Char → List Char → Prop
  | string {quote : Char} {cs : List Char} (hquote : quote = '\'' ∨ quote = '\x22')
      (hopen : (stringRun quote cs).closed = false) : Unfinished quote cs
  | template {cs : List Char} (hopen : (templateRun cs).closed = false) : Unfinished '\x60' cs
  | blockComment {cs : List Char} (hopen : (blockRun cs).closed = false) :
      Unfinished '/' ('*' :: cs)
  | slash {cs : List Char} (hcs : ∀ d ∈ cs.head?, d ≠ '/' ∧ d ≠ '*') : Unfinished '/' cs
  | other {c : Char} {cs : List Char} (h : ∀ ds, pieceAt c ds = ⟨.unexpected, c, []⟩) :
      Unfinished c cs

/-- Where nothing matches, something is opened that is never closed, or a character begins nothing.
The cases are those of the lexer, and every other one gives a piece that means something. -/
private theorem unfinished_of_unexpected {c : Char} {cs : List Char}
    (h : (pieceAt c cs).kind = .unexpected) : Unfinished c cs := by
  unfold pieceAt at h
  split_ifs at h with hspace hstart hdigit hquote hmark hslash
  · unfold numberPiece at h
    dsimp only at h
    split_ifs at h
  · exact .string hquote ((Run.kind_piece_iff Kind.noConfusion).mp h)
  · subst hmark
    exact .template ((Run.kind_piece_iff Kind.noConfusion).mp h)
  · subst hslash
    unfold slashPiece at h
    split at h
    · cases h
    · rename_i cs
      have hopen := (Run.kind_piece_iff Kind.noConfusion).mp h
      exact .blockComment hopen
    · rename_i hline hblock
      refine .slash fun d hd => ?_
      obtain ⟨ds, rfl⟩ := List.head?_eq_some_iff.mp hd
      exact ⟨fun hslash => hline ds (hslash ▸ rfl), fun hstar => hblock ds (hstar ▸ rfl)⟩
  · -- The first character of a sign is a sign, or this one would not be unexpected.
    have hsign : ∀ e ∈ punctuation, ∃ f ∈ punctuation, f.2.1 = e.2.1 ∧ f.2.2 = [] := by decide
    have hnone : ∀ e ∈ punctuation, e.2.1 ≠ c := by
      rintro e he rfl
      obtain ⟨f, hf, hfirst, hmore⟩ := hsign e he
      have hreaches := (reaches_sign hf cs).expected
      rw [hmore, List.nil_append, hfirst, pieceAt_sign he] at hreaches
      exact hreaches h
    refine .other fun ds => ?_
    have hfind : punctuationPiece? c ds = none := by
      cases hpiece : punctuationPiece? c ds with
      | none => rfl
      | some p =>
        obtain ⟨e, he, -, hfirst, -⟩ := exists_of_punctuationPiece? hpiece
        exact (hnone e he hfirst).elim
    rw [pieceAt, if_neg hspace, if_neg hstart, if_neg hdigit, if_neg hquote, if_neg hmark,
      if_neg hslash, hfind]
    rfl

/-- What is unexpected is one character, or could have become a match. -/
private theorem Unfinished.viable {c : Char} {cs : List Char} (h : Unfinished c cs) :
    (pieceAt c cs).more = [] ∨ Viable (pieceAt c cs).chars := by
  cases h with
  | string hquote hopen =>
    obtain ⟨body, more, hbody, htaken, -⟩ := exists_body_of_stringRun c cs
    have hmatch : Kind.string.Matches (c :: ((stringRun c cs).taken ++ more)) :=
      htaken ▸ .string hquote hbody
    rw [pieceAt_quote hquote]
    exact .inr ⟨_, more, hmatch⟩
  | template hopen =>
    obtain ⟨body, more, hbody, htaken, -⟩ := exists_body_of_templateRun cs
    have hmatch : Kind.template.Matches ('\x60' :: ((templateRun cs).taken ++ more)) :=
      htaken ▸ .template hbody
    exact .inr ⟨_, more, hmatch⟩
  | @blockComment cs hopen =>
    obtain ⟨body, more, hbody, htaken, -⟩ := exists_body_of_blockRun cs
    have hmatch : Kind.blockComment.Matches ('/' :: '*' :: ((blockRun cs).taken ++ more)) :=
      htaken ▸ .blockComment hbody
    exact .inr ⟨_, more, hmatch⟩
  | slash hcs => exact .inl (congrArg Piece.more (slashPiece_of_head? hcs))
  | other h => exact .inl (congrArg Piece.more (h cs))

/-- A run that stops in front of a character stops there whatever is behind that. -/
private theorem Run.Local.again_cons {f : List Char → Run} (hf : Run.Local f) {cs rest : List Char}
    {d : Char} (h : (f cs).taken ++ d :: rest = cs) (rest' : List Char) :
    f ((f cs).taken ++ d :: rest') = f cs :=
  hf.again h (.inr fun _ he => he)

/-- What is unexpected stays so, however the text goes on behind the character it stopped at. -/
private theorem Unfinished.again {c d : Char} {cs rest : List Char} (h : Unfinished c cs)
    (hcs : (pieceAt c cs).more ++ d :: rest = cs) (rest' : List Char) :
    (pieceAt c ((pieceAt c cs).more ++ d :: rest')).kind = .unexpected := by
  cases h with
  | string hquote hopen =>
    have hback : c ≠ '\\' := by rcases hquote with rfl | rfl <;> decide
    rw [pieceAt_quote hquote] at hcs
    have hrun : stringRun c ((stringRun c cs).taken ++ d :: rest') = stringRun c cs :=
      (stringRun_local hback).again_cons hcs rest'
    rw [pieceAt_quote hquote, pieceAt_quote hquote]
    exact (Run.kind_piece_iff Kind.noConfusion).mpr ((congrArg Run.closed hrun).trans hopen)
  | template hopen =>
    have hrun : templateRun ((templateRun cs).taken ++ d :: rest') = templateRun cs :=
      templateRun_local.again_cons hcs rest'
    exact (Run.kind_piece_iff Kind.noConfusion).mpr ((congrArg Run.closed hrun).trans hopen)
  | @blockComment cs hopen =>
    have hrun : blockRun ((blockRun cs).taken ++ d :: rest') = blockRun cs :=
      blockRun_local.again_cons (List.cons.inj hcs).2 rest'
    have hagain : ((blockRun ((blockRun cs).taken ++ d :: rest')).after ['*']).closed = false :=
      (congrArg Run.closed hrun).trans hopen
    exact (Run.kind_piece_iff Kind.noConfusion).mpr hagain
  | slash hne =>
    have hpiece : pieceAt '/' cs = ⟨.unexpected, '/', []⟩ := slashPiece_of_head? hne
    rw [hpiece] at hcs ⊢
    have hnext : ∀ e ∈ (d :: rest').head?, e ≠ '/' ∧ e ≠ '*' := fun e he => hne e (hcs ▸ he)
    exact congrArg Piece.kind (slashPiece_of_head? hnext)
  | other h => exact congrArg Piece.kind (h _)

/-! ### Texts split into longest matches -/

/-- How a piece is taken from a text that begins with its characters and goes on with `rest`. -/
inductive Piece.Longest (p : Piece) (rest : List Char) : Prop
  /-- The longest match, of the only kind that matches as much. -/
  | expected (hp : p.kind.Matches p.chars)
      (h : ∀ kind cs, cs <+: p.chars ++ rest → kind.Matches cs →
        cs.length ≤ p.chars.length ∧ (cs.length = p.chars.length → kind = p.kind))
  /-- Where nothing matches, as much as could still have become a match; at least one
  character. -/
  | unexpected (hp : p.kind = .unexpected)
      (hnone : ∀ kind cs, cs <+: p.chars ++ rest → ¬ Kind.Matches kind cs)
      (hviable : p.more = [] ∨ Viable p.chars)
      (h : ∀ cs, cs <+: p.chars ++ rest → Viable cs → cs.length ≤ p.chars.length)

/-- Pieces that a text splits into. -/
inductive Munches : List Char → List Piece → Prop
  | nil : Munches [] []
  | cons {p : Piece} {rest : List Char} {ps : List Piece} (hp : p.Longest rest)
      (hps : Munches rest ps) : Munches (p.chars ++ rest) (p :: ps)

theorem Kind.Matches.ne_nil {kind : Kind} {cs : List Char} (h : kind.Matches cs) : cs ≠ [] := by
  cases h <;> exact List.cons_ne_nil _ _

/-- A match at the front of a text is reached by the piece there. -/
private theorem reaches_of_isPrefix {kind : Kind} {c : Char} {ds cs : List Char}
    (hds : ds <+: c :: cs) (h : kind.Matches ds) : (pieceAt c cs).Reaches kind ds := by
  obtain ⟨d, ds, rfl⟩ := List.exists_cons_of_ne_nil h.ne_nil
  obtain ⟨rfl, rest, rfl⟩ := List.cons_prefix_cons.mp hds
  exact reaches_pieceAt h rest

/-- **The piece at the front of a text is the longest one**: a match, or, where nothing matches, the
part that could have become one. -/
private theorem longest_pieceAt {c : Char} {cs rest : List Char}
    (hcs : (pieceAt c cs).more ++ rest = cs) : (pieceAt c cs).Longest rest := by
  have hfirst : (pieceAt c cs).chars = c :: (pieceAt c cs).more := by
    rw [Piece.chars, (pieceAt_isPrefix c cs).1]
  have htext := chars_pieceAt_append hcs
  by_cases hkind : (pieceAt c cs).kind = .unexpected
  · have hunfinished := unfinished_of_unexpected hkind
    refine .unexpected hkind (fun kind ds hds h => ?_) hunfinished.viable fun ds hds h => ?_
    · rw [htext] at hds
      exact (reaches_of_isPrefix hds h).expected hkind
    · -- If more could have become a match, then one would go on with the character that the piece
      -- has stopped at.
      by_contra hlong
      have hchars : (pieceAt c cs).chars <+: c :: cs := ⟨rest, htext⟩
      rw [htext] at hds
      obtain ⟨front, rfl⟩ := List.prefix_of_prefix_length_le hchars hds (Nat.le_of_not_le hlong)
      obtain ⟨d, front, rfl⟩ : ∃ d ds, front = d :: ds := List.exists_cons_of_ne_nil (by
        rintro rfl
        exact hlong (by rw [List.append_nil]))
      obtain ⟨behind, hbehind⟩ := hds
      obtain ⟨kind, more, hmatch⟩ := h
      rw [hfirst, List.append_assoc, List.cons_append] at hbehind hmatch
      have hreaches := (reaches_of_isPrefix List.prefix_rfl hmatch).expected
      exact hreaches (hunfinished.again (List.cons.inj hbehind).2 (front ++ more))
  · refine .expected (matches_pieceAt hkind) fun kind ds hds h => ?_
    rw [htext] at hds
    have hreaches := reaches_of_isPrefix hds h
    exact ⟨hreaches.le, fun hlength => (hreaches.kind hlength).symm⟩

/-- **A text splits into longest matches**, and into unexpected pieces where nothing matches. -/
theorem munches_pieces (cs : List Char) : Munches cs (pieces cs) := by
  induction cs using pieces_induction with
  | nil => exact .nil
  | cons c cs behind hbehind hsplit ih =>
    rw [hsplit, ← chars_pieceAt_append hbehind]
    exact .cons (longest_pieceAt hbehind) ih

/-! ### There is one way to split a text -/

namespace Piece.Longest

variable {p q : Piece} {rest rest' : List Char}

/-- No longest piece is shorter than another one at the same place. -/
private theorem length_le (hp : p.Longest rest) (hq : q.Longest rest')
    (htext : q.chars ++ rest' = p.chars ++ rest) : q.chars.length ≤ p.chars.length := by
  have hprefix : q.chars <+: p.chars ++ rest := ⟨rest', htext⟩
  cases hq with
  | expected hq _ =>
    cases hp with
    | expected _ h => exact (h _ _ hprefix hq).1
    | unexpected _ hnone _ _ => exact (hnone _ _ hprefix hq).elim
  | unexpected _ hnone hviable _ =>
    cases hp with
    | expected hp _ => exact (hnone _ _ ⟨rest, htext.symm⟩ hp).elim
    | unexpected _ _ _ h =>
      rcases hviable with hmore | hviable
      · rw [chars, hmore]
        exact Nat.succ_le_succ (Nat.zero_le _)
      · exact h _ hprefix hviable

/-- Longest pieces of the same characters are of the same kind. -/
private theorem kind_eq (hp : p.Longest rest) (hq : q.Longest rest') (hchars : q.chars = p.chars)
    (htext : q.chars ++ rest' = p.chars ++ rest) : q.kind = p.kind := by
  have hprefix : q.chars <+: p.chars ++ rest := ⟨rest', htext⟩
  cases hp with
  | expected hp h =>
    cases hq with
    | expected hq _ => exact (h _ _ hprefix hq).2 (congrArg List.length hchars)
    | unexpected _ hnone _ _ => exact (hnone _ _ ⟨rest, htext.symm⟩ hp).elim
  | unexpected hp hnone _ _ =>
    cases hq with
    | expected hq _ => exact (hnone _ _ hprefix hq).elim
    | unexpected hq _ _ _ => rw [hp, hq]

/-- Only one piece can be taken from a text. -/
private theorem eq (hp : p.Longest rest) (hq : q.Longest rest')
    (htext : q.chars ++ rest' = p.chars ++ rest) : q = p ∧ rest' = rest := by
  have hlength := Nat.le_antisymm (hp.length_le hq htext) (hq.length_le hp htext.symm)
  obtain ⟨hchars, hrest⟩ := List.append_inj htext hlength
  have hkind := hp.kind_eq hq hchars htext
  obtain ⟨kind, first, more⟩ := p
  obtain ⟨kind', first', more'⟩ := q
  obtain ⟨rfl, rfl⟩ := List.cons.inj hchars
  dsimp only at hkind
  rw [hkind]
  exact ⟨rfl, hrest⟩

end Piece.Longest

/-- **A text splits into longest pieces in one way only.** -/
private theorem Munches.eq {cs : List Char} {ps qs : List Piece} (hps : Munches cs ps)
    (hqs : Munches cs qs) : qs = ps := by
  induction hps generalizing qs with
  | nil =>
    cases hqs
    rfl
  | @cons p rest ps hp hps ih =>
    obtain ⟨cs, hcs⟩ : ∃ cs, p.chars ++ rest = cs := ⟨_, rfl⟩
    rw [hcs] at hqs
    cases hqs with
    | nil => cases hcs
    | @cons q rest' qs hq hqs =>
      obtain ⟨rfl, rfl⟩ := hp.eq hq hcs.symm
      rw [ih hqs]

/-- **The pieces of a text are the only ones that it splits into.** -/
theorem munches_iff {cs : List Char} {ps : List Piece} : Munches cs ps ↔ ps = pieces cs :=
  ⟨fun h => (munches_pieces cs).eq h, fun h => h ▸ munches_pieces cs⟩

/-! ### Texts that match as a whole -/

/-- The piece at the front of a match reaches its end, and goes no further. -/
private theorem Kind.Matches.pieceAt_eq {kind : Kind} {c : Char} {cs : List Char}
    (h : kind.Matches (c :: cs)) : pieceAt c cs = ⟨kind, c, cs⟩ := by
  have hreaches := reaches_pieceAt h []
  rw [List.append_nil] at hreaches
  obtain ⟨hfirst, hprefix⟩ := pieceAt_isPrefix c cs
  have hmore : (pieceAt c cs).more = cs :=
    hprefix.eq_of_length_le (Nat.le_of_succ_le_succ hreaches.le)
  have hkind : (pieceAt c cs).kind = kind :=
    hreaches.kind (by rw [Piece.chars, hmore, List.length_cons, List.length_cons])
  calc pieceAt c cs
      = ⟨(pieceAt c cs).kind, (pieceAt c cs).first, (pieceAt c cs).more⟩ := rfl
    _ = ⟨kind, c, cs⟩ := by rw [hkind, hfirst, hmore]

/-- No text is of two kinds. -/
theorem Kind.Matches.kind_eq {kind kind' : Kind} {cs : List Char} (h : kind.Matches cs)
    (h' : kind'.Matches cs) : kind' = kind := by
  obtain ⟨c, cs, rfl⟩ := List.exists_cons_of_ne_nil h.ne_nil
  have hpiece := h'.pieceAt_eq.symm.trans h.pieceAt_eq
  exact congrArg Piece.kind hpiece

/-- **A text that matches is a single token.** -/
theorem Kind.Matches.scan_eq {kind : Kind} {s : String} (h : kind.Matches s.toList) :
    scan s = [⟨kind, s, ⟨0, Text.byteLength s.toList⟩⟩] := by
  obtain ⟨c, cs, hchars⟩ := List.exists_cons_of_ne_nil h.ne_nil
  have hpiece : pieceAt c cs = ⟨kind, c, cs⟩ := (hchars ▸ h).pieceAt_eq
  have hbefore : Piece.Before ⟨kind, c, cs⟩ [] := by
    rw [Piece.Before, List.append_nil, hpiece]
  have hpieces : pieces s.toList = [⟨kind, c, cs⟩] := by
    have hsplit := pieces_chars_append hbefore
    rwa [List.append_nil, Piece.chars, pieces_nil, ← hchars] at hsplit
  have htext : String.ofList (c :: cs) = s := by rw [← hchars, String.ofList_toList]
  rw [scan, ofChars, hpieces, hchars]
  simp only [joinUnexpected, place, Piece.chars, htext, Nat.zero_add]

/-! ### Tokens -/

/-- A token that is taken from a text is a match, unless it is unexpected. -/
theorem Before.kind_matches {t : Token} {rest : List Char} (h : t.Before rest)
    (hkind : t.kind ≠ .unexpected) : t.kind.Matches t.text.toList := by
  obtain ⟨p, hchars, hp, hpkind⟩ := h.exists_piece hkind
  rw [hchars, ← hpkind, ← hp]
  exact matches_pieceAt (by rw [hp, hpkind]; exact hkind)

/-- Of the kind of a sign there is only the sign. -/
private theorem Kind.Matches.eq_sign {kind : Kind} {cs : List Char} (h : kind.Matches cs)
    (hkind : kind ∈ punctuation.map (·.1)) : (⟨kind, String.ofList cs⟩ : Word) = .sign kind := by
  have hsign : ∀ e ∈ punctuation, (Word.sign e.1).text = String.ofList (e.2.1 :: e.2.2) := by decide
  cases h with
  | sign he => exact Word.ext_iff.mpr ⟨rfl, (hsign _ he).symm⟩
  | _ => exact absurd hkind (by decide)

/-- Every token that means something matches the pattern of its kind. -/
theorem matches_of_mem_scan {source : String} {t : Token} (ht : t ∈ scan source)
    (hkind : t.kind ≠ .unexpected) : t.kind.Matches t.text.toList := by
  obtain ⟨front, back, hsplit⟩ := List.append_of_mem ht
  have hlexed : Lexed (t :: back) := .of_append (hsplit ▸ lexed_scan source)
  exact hlexed.1.kind_matches hkind

/-- A token of fixed spelling is the word that the table has for it. -/
theorem word_eq_sign_of_mem_scan {source : String} {t : Token} (ht : t ∈ scan source)
    (hkind : t.kind ∈ punctuation.map (·.1)) : t.word = .sign t.kind := by
  have hne : t.kind ≠ .unexpected := fun heq => absurd (heq ▸ hkind) (by decide)
  have hmatches := (matches_of_mem_scan ht hne).eq_sign hkind
  rwa [String.ofList_toList] at hmatches

end Reifier.Token
