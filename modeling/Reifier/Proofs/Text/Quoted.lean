import Mathlib.Tactic
import Reifier.Text.Quoted
import Reifier.Token.Lexer

/-!
# What is written between quotes reads back

Every character is written as an escape that ends where the next character begins: reading the
escape of `c` yields `c` and goes on behind it (`decodeAfter_escape`), and a lexer that looks for
the closing quote steps over the escape as a whole (`stringRun_escape`). Both facts hold whatever
follows, so they carry over to texts of any length by induction on the characters.
-/

namespace Reifier

/-! ### Hexadecimal digits -/

namespace Hex

/-- The digit of a value reads back. -/
private theorem digit?_digitChar {d : ℕ} (h : d < 16) : digit? (Nat.digitChar d) = some d := by
  interval_cases d <;> rfl

/-- The four digits of a number below `0x10000` denote it. -/
private theorem value?_fourDigits {n : ℕ} (h : n < 0x10000) : value? (fourDigits n) = some n := by
  have h3 := digit?_digitChar (Nat.mod_lt (n / 4096) (by norm_num : 0 < 16))
  have h2 := digit?_digitChar (Nat.mod_lt (n / 256) (by norm_num : 0 < 16))
  have h1 := digit?_digitChar (Nat.mod_lt (n / 16) (by norm_num : 0 < 16))
  have h0 := digit?_digitChar (Nat.mod_lt n (by norm_num : 0 < 16))
  simp only [value?, fourDigits, List.map_cons, List.map_nil, valueFrom?, h3, h2, h1, h0,
    Option.bind_some, Option.some.injEq]
  omega

/-- Four digits in front of a text are read as the number they denote. -/
private theorem leading?_fourDigits {n : ℕ} (h : n < 0x10000) (rest : List Char) :
    leading? 4 (fourDigits n ++ rest) = some n := by
  have htake : (fourDigits n ++ rest).take 4 = fourDigits n := rfl
  rw [leading?, htake, value?_fourDigits h]
  rfl

/-- The first of the four digits of a small number is a zero. -/
private theorem fourDigits_eq_cons {n : ℕ} (h : n < 4096) :
    fourDigits n = '0' :: [n / 256 % 16, n / 16 % 16, n % 16].map Nat.digitChar := by
  have hzero : n / 4096 % 16 = 0 := by omega
  rw [fourDigits, hzero]
  rfl

end Hex

namespace Text.Quoted

/-! ### Control characters -/

private theorem toNat_lt_of_isControl {c : Char} (h : isControl c = true) : c.toNat < 160 := by
  simp only [isControl, Bool.or_eq_true, Bool.and_eq_true, decide_eq_true_eq] at h
  omega

/-- `\u` and the four digits of a control character stand for it. -/
private theorem unicodeEscape_control {c : Char} (h : isControl c = true) (rest : List Char) :
    unicodeEscape (Hex.fourDigits c.toNat ++ rest) = ⟨some c, 5⟩ := by
  have hc := toNat_lt_of_isControl h
  have hlead : Hex.leading? 4 (Hex.fourDigits c.toNat ++ rest) = some c.toNat :=
    Hex.leading?_fourDigits (by omega) rest
  have hhigh : isHighSurrogate c.toNat = false := by
    simp only [isHighSurrogate, Bool.and_eq_false_iff, decide_eq_false_iff_not]
    omega
  have hcode : charOfCode? c.toNat = some c := by
    have hvalid : c.toNat.isValidChar := c.valid
    rw [charOfCode?, if_pos hvalid, Char.ofNat_toNat]
  unfold unicodeEscape
  split
  · rename_i heq
    rw [Hex.fourDigits_eq_cons (by omega)] at heq
    exact absurd heq (by simp)
  · simp [hlead, hhigh, hcode]

/-! ### Reading back -/

/-- What is written for a character is read as that character, whatever follows. -/
theorem decodeAfter_escape (c : Char) (rest : List Char) :
    decodeAfter 0 (escape c ++ rest) = c :: decodeAfter 0 rest := by
  unfold escape
  split_ifs with hquote hback hlf hcr htab hctl
  · subst hquote; rfl
  · subst hback; rfl
  · subst hlf; rfl
  · subst hcr; rfl
  · subst htab; rfl
  · have hescape : escapeAt ('u' :: (Hex.fourDigits c.toNat ++ rest)) = ⟨some c, 5⟩ := by
      rw [← unicodeEscape_control hctl rest]
      rfl
    rw [List.cons_append, List.cons_append, decodeAfter, if_pos rfl, hescape]
    rfl
  · rw [List.singleton_append, decodeAfter, if_neg hback]

/-- Reading what is written between the quotes gives the characters back. -/
private theorem decodeBody_flatMap_escape (cs : List Char) :
    decodeBody (cs.flatMap escape) = cs := by
  unfold decodeBody
  induction cs with
  | nil => rfl
  | cons c cs ih => rw [List.flatMap_cons, decodeAfter_escape, ih]

/-- **Reading inverts writing.** The string that a quoted text denotes is the one it was written
for. -/
theorem decode_encode (cs : List Char) : decode (encode cs) = cs := by
  have hinner : inner (encode cs) = cs.flatMap escape := by
    rw [encode, inner, List.getLast?_concat, List.dropLast_concat]
    rfl
  rw [decode, hinner, decodeBody_flatMap_escape]

end Text.Quoted

/-- **A quoted string reads back as itself.** -/
theorem Text.unquote_quote (s : String) : unquote (quote s) = s := by
  rw [unquote, quote, String.toList_ofList, Quoted.decode_encode, String.ofList_toList]

/-! ### Looking for the closing quote -/

namespace Token

open Text.Quoted

@[simp]
private theorem Run.after_after (a b : List Char) (run : Run) :
    (run.after a).after b = run.after (b ++ a) := by
  simp [Run.after]

/-- A character that neither closes nor escapes nor ends the line is stepped over. -/
theorem stringRun_cons {quote c : Char} (hback : c ≠ '\\') (hquote : c ≠ quote) (hlf : c ≠ '\n')
    (cs : List Char) : stringRun quote (c :: cs) = (stringRun quote cs).after [c] := by
  rw [stringRun.eq_def]
  split <;> simp_all

/-- So is a run of such characters. -/
private theorem stringRun_append {quote : Char} {cs : List Char}
    (h : ∀ c ∈ cs, c ≠ '\\' ∧ c ≠ quote ∧ c ≠ '\n') (rest : List Char) :
    stringRun quote (cs ++ rest) = (stringRun quote rest).after cs := by
  induction cs with
  | nil => rfl
  | cons c cs ih =>
    obtain ⟨hback, hquote, hlf⟩ := h c List.mem_cons_self
    rw [List.cons_append, stringRun_cons hback hquote hlf,
      ih fun d hd => h d (List.mem_cons_of_mem _ hd), Run.after_after]
    rfl

/-- The digits of a number are neither quotes nor backslashes nor line feeds. -/
private theorem fourDigits_plain (n : ℕ) :
    ∀ c ∈ Hex.fourDigits n, c ≠ '\\' ∧ c ≠ '\'' ∧ c ≠ '\n' := by
  have hdigit : ∀ d < 16, Nat.digitChar d ≠ '\\' ∧ Nat.digitChar d ≠ '\'' ∧
      Nat.digitChar d ≠ '\n' := by decide
  intro c hc
  obtain ⟨d, hd, rfl⟩ := List.mem_map.mp hc
  refine hdigit d ?_
  simp only [List.mem_cons, List.not_mem_nil, or_false] at hd
  omega

/-- No line feed is left in the escaped form of a character. -/
theorem lineFeed_not_mem_escape (c : Char) : '\n' ∉ escape c := by
  unfold escape
  split_ifs with hquote hback hlf
  · decide
  · decide
  · decide
  · decide
  · decide
  · simp only [List.mem_cons, not_or]
    exact ⟨by decide, by decide, fun hmem => (fourDigits_plain c.toNat _ hmem).2.2 rfl⟩
  · simpa using Ne.symm hlf

/-- The lexer steps over what is written for a character as a whole. -/
theorem stringRun_escape (c : Char) (rest : List Char) :
    stringRun '\'' (escape c ++ rest) = (stringRun '\'' rest).after (escape c) := by
  unfold escape
  split_ifs with hquote hback hlf hcr htab hctl
  · rfl
  · rfl
  · rfl
  · rfl
  · rfl
  · have hstep : stringRun '\'' ('\\' :: 'u' :: (Hex.fourDigits c.toNat ++ rest)) =
        (stringRun '\'' (Hex.fourDigits c.toNat ++ rest)).after ['\\', 'u'] := rfl
    rw [List.cons_append, List.cons_append, hstep, stringRun_append (fourDigits_plain c.toNat),
      Run.after_after]
    rfl
  · exact stringRun_cons hback hquote hlf rest

/-- The first bare quote behind what is written for some characters is the one that closes. -/
theorem stringRun_flatMap_escape (cs rest : List Char) :
    stringRun '\'' (cs.flatMap escape ++ '\'' :: rest) = ⟨cs.flatMap escape ++ ['\''], true⟩ := by
  induction cs with
  | nil => rfl
  | cons c cs ih =>
    rw [List.flatMap_cons, List.append_assoc, stringRun_escape, ih]
    simp [Run.after]

end Token

end Reifier
