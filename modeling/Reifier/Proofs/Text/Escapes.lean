import Mathlib.Data.Nat.Digits.Defs
import Mathlib.Logic.Relation
import Mathlib.Tactic
import Reifier.Proofs.Text.Slices

/-!
# The grammar of escapes

What an escape is and what it stands for, said without the reader: `Form` lists the escapes of the
grammar, `Step` reads one character or one escape from the left, and `Decodes` is the whole
reading. A backslash that begins no escape of the grammar only loses its meaning: the character
behind it stands for itself.

The reader follows this grammar but for one thing. The digits of a code point in braces are left
to a number reader that also takes a sign, so `\u{+41}` is read as `A`, although a malformed escape
is to keep its characters. Hence `Form` has a parameter: with `plus` a sign may stand in the
braces, and the reader follows that grammar on every text. It follows the grammar without signs on
exactly those texts in which no such place is come to (`unquote_grammar`).
-/

namespace Reifier

/-! ### Numbers -/

namespace Hex

/-- The digits, the most significant one first, denote `n` in base 16. -/
def Denotes (digits : List Char) (n : ℕ) : Prop :=
  ∃ values, List.Forall₂ (fun c d => digit? c = some d) digits values ∧
    n = Nat.ofDigits 16 values.reverse

/-- The digits behind others are worth what they denote, and shift what stands before them. -/
private theorem valueFrom?_eq_some_iff {high n : ℕ} {digits : List Char} :
    valueFrom? high digits = some n ↔
      ∃ values, List.Forall₂ (fun c d => digit? c = some d) digits values ∧
        n = Nat.ofDigits 16 values.reverse + 16 ^ values.length * high := by
  induction digits generalizing high with
  | nil =>
    rw [valueFrom?, Option.some_inj]
    constructor
    · rintro rfl
      exact ⟨[], .nil, by simp⟩
    · rintro ⟨values, hvalues, rfl⟩
      cases hvalues
      simp
  | cons c digits ih =>
    rw [valueFrom?, Option.bind_eq_some_iff]
    constructor
    · rintro ⟨d, hd, h⟩
      obtain ⟨values, hvalues, rfl⟩ := ih.mp h
      refine ⟨d :: values, .cons hd hvalues, ?_⟩
      rw [List.reverse_cons, Nat.ofDigits_append, Nat.ofDigits_singleton, List.length_reverse,
        List.length_cons]
      ring
    · rintro ⟨values, hvalues, rfl⟩
      cases hvalues with
      | cons hd hvalues =>
        refine ⟨_, hd, ih.mpr ⟨_, hvalues, ?_⟩⟩
        rw [List.reverse_cons, Nat.ofDigits_append, Nat.ofDigits_singleton, List.length_reverse,
          List.length_cons]
        ring

/-- A digit is worth less than the base. -/
private theorem digit?_lt {c : Char} {d : ℕ} (h : digit? c = some d) : d < 16 := by
  simp only [digit?] at h
  split_ifs at h <;> simp only [Option.some_inj] at h <;> omega

/-- Digits are read as the number that they denote. -/
theorem value?_eq_some_iff {digits : List Char} {n : ℕ} :
    value? digits = some n ↔ Denotes digits n := by
  rw [value?, valueFrom?_eq_some_iff]
  simp only [Nat.mul_zero, Nat.add_zero, Denotes]

private theorem Denotes.isDigit {digits : List Char} {n : ℕ} (h : Denotes digits n) :
    ∀ c ∈ digits, isDigit c = true :=
  isDigit_of_valueFrom? (value?_eq_some_iff.mpr h)

theorem Denotes.not_mem {digits : List Char} {n : ℕ} (h : Denotes digits n) {c : Char}
    (hc : Hex.isDigit c = false) : c ∉ digits := fun hmem =>
  Bool.false_ne_true (hc.symm.trans (h.isDigit c hmem))

/-- So many digits denote a number below that power of the base. -/
private theorem Denotes.lt_pow {digits : List Char} {n : ℕ} (h : Denotes digits n) :
    n < 16 ^ digits.length := by
  obtain ⟨values, hvalues, rfl⟩ := h
  have hsmall : ∀ d ∈ values, d < 16 := by
    induction hvalues with
    | nil => exact List.forall_mem_nil _
    | cons hd _ ih => exact List.forall_mem_cons.mpr ⟨digit?_lt hd, ih⟩
  have hlt := Nat.ofDigits_lt_base_pow_length (by norm_num : 1 < 16)
    fun d hd => hsmall d (List.mem_reverse.mp hd)
  rwa [List.length_reverse, ← hvalues.length_eq] at hlt

/-- Digits in front of a text are read as the number they denote. -/
private theorem leading?_append {count n : ℕ} {digits : List Char} (hlength : digits.length = count)
    (h : Denotes digits n) (rest : List Char) : leading? count (digits ++ rest) = some n := by
  have htake : (digits ++ rest).take count = digits := List.take_left' hlength
  rw [leading?, htake, if_pos hlength, value?_eq_some_iff.mpr h]

/-- What is read at the front of a text is digits that stand there. -/
private theorem exists_of_leading? {count n : ℕ} {cs : List Char} (h : leading? count cs = some n) :
    ∃ digits rest, cs = digits ++ rest ∧ digits.length = count ∧ Denotes digits n := by
  unfold leading? at h
  split_ifs at h with hlength
  exact ⟨_, _, (List.take_append_drop count cs).symm, hlength, value?_eq_some_iff.mp h⟩

/-- A sign may stand before the digits of a number that is read with a bound. -/
private theorem bounded?_append {bound n : ℕ} {sign digits : List Char}
    (hsign : sign = [] ∨ sign = ['+'])
    (hdigits : digits ≠ []) (h : Denotes digits n) (hn : n < bound) :
    bounded? bound (sign ++ digits) = some n := by
  have hnumber : (if digits.isEmpty then none else (value? digits).filter (· < bound)) =
      some n := by
    rw [if_neg (by simpa using hdigits), value?_eq_some_iff.mpr h, Option.filter_some,
      if_pos (decide_eq_true hn)]
  rcases hsign with rfl | rfl
  · obtain ⟨c, cs, rfl⟩ := List.exists_cons_of_ne_nil hdigits
    have hplus : c ≠ '+' := by
      rintro rfl
      exact h.not_mem rfl List.mem_cons_self
    rw [← hnumber, List.nil_append]
    unfold bounded?
    split
    · rename_i heq
      exact absurd (List.cons.inj heq).1 hplus
    · rfl
  · exact hnumber

/-- What is read between braces is digits, with or without a sign before them. -/
private theorem exists_of_bounded? {bound n : ℕ} {cs : List Char} (h : bounded? bound cs = some n) :
    ∃ sign digits, (sign = [] ∨ sign = ['+']) ∧ cs = sign ++ digits ∧ digits ≠ [] ∧
      Denotes digits n := by
  have hnumber : ∀ digits : List Char,
      (if digits.isEmpty then none else (value? digits).filter (· < bound)) = some n →
      digits ≠ [] ∧ Denotes digits n := fun digits hvalue => by
    split_ifs at hvalue with hempty
    exact ⟨by simpa using hempty, value?_eq_some_iff.mp (Option.filter_eq_some_iff.mp hvalue).1⟩
  unfold bounded? at h
  split at h
  · exact ⟨['+'], _, .inr rfl, rfl, hnumber _ h⟩
  · exact ⟨[], _, .inl rfl, rfl, hnumber _ h⟩

end Hex

namespace Text.Quoted

open Hex

/-! ### The grammar -/

/-- The letters that stand for a control character behind a backslash. -/
def letters : List (Char × Char) :=
  [('n', '\n'), ('t', '\t'), ('r', '\r'), ('b', '\x08'), ('f', '\x0c'), ('v', '\x0b')]

/-- The text begins with `\uHHHH`, the second half of a surrogate pair. -/
def StartsLow (text : List Char) : Prop :=
  ∃ digits n rest, text = '\\' :: 'u' :: (digits ++ rest) ∧ digits.length = 4 ∧
    Denotes digits n ∧ 0xDC00 ≤ n ∧ n < 0xE000

/-- `written` stands between a backslash and `rest`, and both together are an escape of the grammar
that gives `chars`. With `plus`, a sign may stand before a code point in braces. -/
inductive Form (plus : Bool) (rest : List Char) : List Char → List Char → Prop
  | letter {c d : Char} (h : (c, d) ∈ letters) : Form plus rest [c] [d]
  | null (h : ∀ c ∈ rest.head?, c.isDigit = false) : Form plus rest ['0'] ['\x00']
  | byte {digits : List Char} {n : ℕ} (hlength : digits.length = 2) (h : Denotes digits n) :
    Form plus rest ('x' :: digits) [Char.ofNat n]
  | unit {digits : List Char} {n : ℕ} (hlength : digits.length = 4) (h : Denotes digits n)
      (hvalid : n.isValidChar) : Form plus rest ('u' :: digits) [Char.ofNat n]
  | pair {high low : List Char} {c : Char} (hc : 0x10000 ≤ c.toNat) (hhigh : high.length = 4)
      (hlow : low.length = 4) (h : Denotes high (0xD800 + (c.toNat - 0x10000) / 0x400))
      (h' : Denotes low (0xDC00 + (c.toNat - 0x10000) % 0x400)) :
    Form plus rest ('u' :: (high ++ '\\' :: 'u' :: low)) [c]
  | lone {digits : List Char} {n : ℕ} (hlength : digits.length = 4) (h : Denotes digits n)
      (hhalf : 0xD800 ≤ n ∧ n < 0xE000) (halone : n < 0xDC00 → ¬ StartsLow rest) :
    Form plus rest ('u' :: digits) ['\uFFFD']
  | point {sign digits : List Char} {n : ℕ} (hsign : sign = [] ∨ plus = true ∧ sign = ['+'])
      (hdigits : digits ≠ []) (h : Denotes digits n) (hvalid : n.isValidChar) :
    Form plus rest ('u' :: '\x7b' :: (sign ++ digits ++ ['\x7d'])) [Char.ofNat n]
  | lineFeed : Form plus rest ['\n'] []
  | lineBreak : Form plus rest ['\r', '\n'] []
  | carriageReturn (h : rest.head? ≠ some '\n') : Form plus rest ['\r'] []

/-- An escape of the grammar begins `text`, behind a backslash that stands before it. -/
def Begins (plus : Bool) (text : List Char) : Prop :=
  ∃ written rest chars, text = written ++ rest ∧ Form plus rest written chars

/-- What stands first in `text` gives `chars` and leaves `rest`. -/
inductive Step (plus : Bool) : List Char → List Char → List Char → Prop
  | plain {c : Char} {rest : List Char} (h : c ≠ '\\') : Step plus (c :: rest) [c] rest
  | escape {written rest chars : List Char} (h : Form plus rest written chars) :
    Step plus ('\\' :: (written ++ rest)) chars rest
  | other {c : Char} {rest : List Char} (h : ¬ Begins plus (c :: rest)) :
    Step plus ('\\' :: c :: rest) [c] rest
  | final : Step plus ['\\'] [] []

/-- Reading `text` from left to right gives `value`. -/
inductive Decodes (plus : Bool) : List Char → List Char → Prop
  | nil : Decodes plus [] []
  | step {text chars rest value : List Char} (h : Step plus text chars rest)
      (hrest : Decodes plus rest value) : Decodes plus text (chars ++ value)

/-- Reading `text` from left to right comes to `place`. -/
def ComesTo : List Char → List Char → Prop :=
  Relation.ReflTransGen fun text rest => ∃ chars, Step false text chars rest

/-- The text begins with a code point in braces that has a sign. -/
def Signed (text : List Char) : Prop :=
  ∃ digits n rest, text = '\\' :: 'u' :: '\x7b' :: '+' :: (digits ++ '\x7d' :: rest) ∧
    digits ≠ [] ∧ Denotes digits n ∧ n.isValidChar

/-! ### The reader knows every escape -/

/-- Four digits are no brace. -/
private theorem head?_ne_of_denotes {digits : List Char} {n : ℕ} (hlength : digits.length = 4)
    (h : Denotes digits n) (rest : List Char) : (digits ++ rest).head? ≠ some '\x7b' := by
  obtain ⟨c, cs, rfl⟩ := List.exists_cons_of_length_eq_add_one hlength
  intro hhead
  obtain rfl := Option.some.inj hhead
  exact h.not_mem rfl List.mem_cons_self

/-- The second half of a pair is read where the text begins with one. -/
private theorem lowHalf?_eq_some_iff {text : List Char} {n : ℕ} :
    lowHalf? text = some n ↔
      ∃ digits rest, text = '\\' :: 'u' :: (digits ++ rest) ∧ digits.length = 4 ∧
        Denotes digits n ∧ 0xDC00 ≤ n ∧ n < 0xE000 := by
  constructor
  · intro h
    unfold lowHalf? at h
    split at h
    · obtain ⟨hlead, hlow⟩ := Option.filter_eq_some_iff.mp h
      obtain ⟨digits, rest, rfl, hlength, hdigits⟩ := exists_of_leading? hlead
      rw [isLowSurrogate, Bool.and_eq_true, decide_eq_true_eq, decide_eq_true_eq] at hlow
      exact ⟨digits, rest, rfl, hlength, hdigits, hlow⟩
    · cases h
  · rintro ⟨digits, rest, rfl, hlength, hdigits, hlow⟩
    rw [lowHalf?, leading?_append hlength hdigits, Option.filter_some,
      if_pos (by simpa [isLowSurrogate] using hlow)]

/-- Where the text begins with no second half, none is read. -/
private theorem lowHalf?_eq_none {text : List Char} (h : ¬ StartsLow text) :
    lowHalf? text = none := by
  refine Option.eq_none_iff_forall_ne_some.mpr fun n hn => h ?_
  obtain ⟨digits, rest, htext, hlow⟩ := lowHalf?_eq_some_iff.mp hn
  exact ⟨digits, n, rest, htext, hlow⟩

/-- Both halves of a pair give the character that they were made from. -/
private theorem pairChar_halves {c : Char} (hc : 0x10000 ≤ c.toNat) :
    pairChar (0xD800 + (c.toNat - 0x10000) / 0x400) (0xDC00 + (c.toNat - 0x10000) % 0x400) = c := by
  have hsum : 0x10000 + (0xD800 + (c.toNat - 0x10000) / 0x400 - 0xD800) * 0x400 +
      (0xDC00 + (c.toNat - 0x10000) % 0x400 - 0xDC00) = c.toNat := by omega
  rw [pairChar, hsum, Char.ofNat_toNat]

/-- Two halves are those of the character that they give. -/
private theorem halves_pairChar {high low : ℕ} (hhigh : 0xD800 ≤ high ∧ high < 0xDC00)
    (hlow : 0xDC00 ≤ low ∧ low < 0xE000) :
    0x10000 ≤ (pairChar high low).toNat ∧
      high = 0xD800 + ((pairChar high low).toNat - 0x10000) / 0x400 ∧
      low = 0xDC00 + ((pairChar high low).toNat - 0x10000) % 0x400 := by
  have hvalid : (0x10000 + (high - 0xD800) * 0x400 + (low - 0xDC00)).isValidChar := by
    unfold Nat.isValidChar
    omega
  have hcode : (pairChar high low).toNat =
      0x10000 + (high - 0xD800) * 0x400 + (low - 0xDC00) := by
    rw [pairChar, Char.ofNat, dif_pos hvalid]
    rfl
  omega

/-- A code unit is read together with the second half of a pair behind it, if it is a first one. -/
private theorem unicodeEscape_digits {digits : List Char} {n : ℕ} (hlength : digits.length = 4)
    (h : Denotes digits n) (rest : List Char) :
    unicodeEscape (digits ++ rest) =
      match if isHighSurrogate n then lowHalf? rest else none with
      | some low => ⟨some (pairChar n low), 11⟩
      | none => ⟨some ((charOfCode? n).getD replacement), 5⟩ := by
  have hdrop : (digits ++ rest).drop 4 = rest := List.drop_left' hlength
  have hread := unicodeEscape_of_head?_ne (head?_ne_of_denotes hlength h rest)
  rw [leading?_append hlength h, hdrop] at hread
  exact hread

/-- A code that is no character is one half of a pair, if it has four digits. -/
private theorem half_of_not_isValidChar {digits : List Char} {n : ℕ} (hlength : digits.length = 4)
    (h : Denotes digits n) (hvalid : ¬ n.isValidChar) : 0xD800 ≤ n ∧ n < 0xE000 := by
  have hlt := h.lt_pow
  rw [hlength] at hlt
  unfold Nat.isValidChar at hvalid
  omega

/-- The code of a character is no half of a pair. -/
private theorem isHighSurrogate_of_isValidChar {n : ℕ} (hvalid : n.isValidChar) :
    isHighSurrogate n = false := by
  unfold Nat.isValidChar at hvalid
  simp only [isHighSurrogate, Bool.and_eq_false_iff, decide_eq_false_iff_not]
  omega

/-- Four digits of a character give that character. -/
private theorem escapeAt_unit {digits : List Char} {n : ℕ} (hlength : digits.length = 4)
    (h : Denotes digits n) (hvalid : n.isValidChar) (rest : List Char) :
    escapeAt ('u' :: (digits ++ rest)) = ⟨some (Char.ofNat n), 5⟩ := by
  rw [escapeAt, unicodeEscape_digits hlength h, isHighSurrogate_of_isValidChar hvalid,
    charOfCode?, if_pos hvalid]
  rfl

/-- Two halves of a pair give the character that they were made from. -/
private theorem escapeAt_pair {high low : List Char} {c : Char} (hc : 0x10000 ≤ c.toNat)
    (hhigh : high.length = 4) (hlow : low.length = 4)
    (h : Denotes high (0xD800 + (c.toNat - 0x10000) / 0x400))
    (h' : Denotes low (0xDC00 + (c.toNat - 0x10000) % 0x400)) (rest : List Char) :
    escapeAt ('u' :: (high ++ '\\' :: 'u' :: (low ++ rest))) = ⟨some c, 11⟩ := by
  have hsurrogate : isHighSurrogate (0xD800 + (c.toNat - 0x10000) / 0x400) = true := by
    have hvalid : c.toNat.isValidChar := c.valid
    unfold Nat.isValidChar at hvalid
    simp only [isHighSurrogate, Bool.and_eq_true, decide_eq_true_eq]
    omega
  have hbehind : lowHalf? ('\\' :: 'u' :: (low ++ rest)) =
      some (0xDC00 + (c.toNat - 0x10000) % 0x400) :=
    lowHalf?_eq_some_iff.mpr ⟨low, rest, rfl, hlow, h', by omega⟩
  rw [escapeAt, unicodeEscape_digits hhigh h, if_pos hsurrogate, hbehind]
  simp only [pairChar_halves hc]

/-- A half of a pair that is read alone is no character. -/
private theorem escapeAt_lone {digits : List Char} {n : ℕ} (hlength : digits.length = 4)
    (h : Denotes digits n) (hhalf : 0xD800 ≤ n ∧ n < 0xE000) {rest : List Char}
    (halone : n < 0xDC00 → ¬ StartsLow rest) :
    escapeAt ('u' :: (digits ++ rest)) = ⟨some '\uFFFD', 5⟩ := by
  have hcode : charOfCode? n = none := by
    refine if_neg ?_
    unfold Nat.isValidChar
    omega
  have hbehind : (if isHighSurrogate n then lowHalf? rest else none) = none := by
    split_ifs with hhigh
    · simp only [isHighSurrogate, Bool.and_eq_true, decide_eq_true_eq] at hhigh
      exact lowHalf?_eq_none (halone hhigh.2)
    · rfl
  rw [escapeAt, unicodeEscape_digits hlength h, hbehind, hcode]
  rfl

/-- Digits in braces give the character that they denote, also with a sign before them. -/
private theorem escapeAt_point {sign digits : List Char} {n : ℕ} (hsign : sign = [] ∨ sign = ['+'])
    (hdigits : digits ≠ []) (h : Denotes digits n) (hvalid : n.isValidChar) (rest : List Char) :
    escapeAt ('u' :: '\x7b' :: (sign ++ digits ++ '\x7d' :: rest)) =
      ⟨some (Char.ofNat n), (sign ++ digits).length + 3⟩ := by
  have hclose : '\x7d' ∉ sign ++ digits := by
    rw [List.mem_append, not_or]
    refine ⟨?_, h.not_mem rfl⟩
    rcases hsign with rfl | rfl <;> decide
  have hbound : n < 1 <<< 32 := by
    have hpow : (1 <<< 32 : ℕ) = 4294967296 := rfl
    unfold Nat.isValidChar at hvalid
    omega
  rw [escapeAt, unicodeEscape_braces hclose, bounded?_append hsign hdigits h hbound,
    Option.bind_some, charOfCode?, if_pos hvalid]

/-- The reader takes an escape of the grammar as a whole, and gives what it stands for. -/
private theorem Form.escapeAt_eq {written rest chars : List Char}
    (h : Form true rest written chars) :
    escapeAt (written ++ rest) = ⟨chars.head?, written.length⟩ := by
  cases h with
  | letter h =>
    simp only [letters, List.mem_cons, Prod.mk.injEq, List.not_mem_nil, or_false] at h
    rcases h with ⟨rfl, rfl⟩ | ⟨rfl, rfl⟩ | ⟨rfl, rfl⟩ | ⟨rfl, rfl⟩ | ⟨rfl, rfl⟩ | ⟨rfl, rfl⟩
    all_goals rfl
  | null h =>
    have hdigit : rest.head?.any Char.isDigit = false := by
      cases rest with
      | nil => rfl
      | cons c rest => exact h c rfl
    simp [escapeAt, hdigit]
  | byte hlength h =>
    rw [List.cons_append, escapeAt, leading?_append hlength h, List.length_cons, hlength]
    rfl
  | unit hlength h hvalid =>
    rw [List.cons_append, escapeAt_unit hlength h hvalid, List.length_cons, hlength]
    rfl
  | pair hc hhigh hlow h h' =>
    rw [List.cons_append, List.append_assoc, List.cons_append, List.cons_append,
      escapeAt_pair hc hhigh hlow h h']
    simp [hhigh, hlow]
  | lone hlength h hhalf halone =>
    rw [List.cons_append, escapeAt_lone hlength h hhalf halone, List.length_cons, hlength]
    rfl
  | point hsign hdigits h hvalid =>
    have hread := escapeAt_point (hsign.imp_right And.right) hdigits h hvalid rest
    simpa [Nat.add_assoc] using hread
  | lineFeed => rfl
  | lineBreak => rfl
  | carriageReturn h => exact escapeAt_carriageReturn h

private theorem Form.toList_head? {plus : Bool} {written rest chars : List Char}
    (h : Form plus rest written chars) : chars.head?.toList = chars := by
  cases h <;> rfl

/-- What is an escape without a sign is one where signs may stand, too. -/
private theorem Form.of_plus {plus : Bool} {written rest chars : List Char}
    (h : Form plus rest written chars) : Form true rest written chars := by
  cases h with
  | letter h => exact .letter h
  | null h => exact .null h
  | byte hlength h => exact .byte hlength h
  | unit hlength h hvalid => exact .unit hlength h hvalid
  | pair hc hhigh hlow h h' => exact .pair hc hhigh hlow h h'
  | lone hlength h hhalf halone => exact .lone hlength h hhalf halone
  | point hsign hdigits h hvalid =>
    exact .point (hsign.imp_right fun hplus => ⟨rfl, hplus.2⟩) hdigits h hvalid
  | lineFeed => exact .lineFeed
  | lineBreak => exact .lineBreak
  | carriageReturn h => exact .carriageReturn h

/-- A form that is written at the front of a text begins it. -/
private theorem Form.begins {plus : Bool} {written rest chars : List Char}
    (h : Form plus rest written chars) : Begins plus (written ++ rest) :=
  ⟨written, rest, chars, rfl, h⟩

/-- Where the reader finds no code unit or code point behind `u`, it drops the backslash. -/
private theorem begins_or_unicodeEscape_eq (cs : List Char) :
    Begins true ('u' :: cs) ∨ unicodeEscape cs = ⟨some 'u', 1⟩ := by
  by_cases hbrace : cs.head? = some '\x7b'
  · obtain ⟨braced, rfl⟩ := List.head?_eq_some_iff.mp hbrace
    by_cases hclose : '\x7d' ∈ braced
    · obtain ⟨digits, rest, rfl, hdigits, -, -⟩ := exists_of_mem hclose
      rw [unicodeEscape_braces hdigits]
      cases hcode : (Hex.bounded? (1 <<< 32) digits).bind charOfCode? with
      | none => exact .inr rfl
      | some c =>
        obtain ⟨n, hn, hvalid⟩ := Option.bind_eq_some_iff.mp hcode
        obtain ⟨sign, digits, hsign, rfl, hne, h⟩ := exists_of_bounded? hn
        have hvalid : n.isValidChar := by
          unfold charOfCode? at hvalid
          split_ifs at hvalid with hcase
          exact hcase
        have hform : Form true rest ('u' :: '\x7b' :: (sign ++ digits ++ ['\x7d']))
            [Char.ofNat n] := .point (hsign.imp_right fun hplus => ⟨rfl, hplus⟩) hne h hvalid
        refine .inl ⟨_, rest, _, ?_, hform⟩
        simp
    · exact .inr (unicodeEscape_unclosed hclose)
  · cases hlead : Hex.leading? 4 cs with
    | none => exact .inr (by rw [unicodeEscape_of_head?_ne hbrace, hlead])
    | some n =>
      obtain ⟨digits, rest, rfl, hlength, h⟩ := exists_of_leading? hlead
      refine .inl ?_
      by_cases hvalid : n.isValidChar
      · exact (Form.unit hlength h hvalid).begins
      · have hhalf := half_of_not_isValidChar hlength h hvalid
        by_cases halone : n < 0xDC00 → ¬ StartsLow rest
        · exact (Form.lone hlength h hhalf halone).begins
        · -- The half is the first of a pair.
          obtain ⟨hhigh, low, m, rest, rfl, hlow, h', hm⟩ :=
            (Classical.not_imp.mp halone).imp_right Classical.not_not.mp
          obtain ⟨hc, hn, hm⟩ := halves_pairChar ⟨hhalf.1, hhigh⟩ hm
          rw [hn] at h
          rw [hm] at h'
          refine ⟨_, rest, _, ?_, Form.pair hc hlength hlow h h'⟩
          simp

/-- Where the reader finds no escape of the grammar, it drops the backslash. -/
private theorem begins_or_escapeAt_eq (c : Char) (cs : List Char) :
    Begins true (c :: cs) ∨ escapeAt (c :: cs) = ⟨some c, 1⟩ := by
  by_cases hletter : ∃ d, (c, d) ∈ letters
  · obtain ⟨d, hd⟩ := hletter
    exact .inl (Form.letter hd : Form true cs [c] _).begins
  by_cases hnull : c = '0'
  · subst hnull
    cases hdigit : cs.head?.any Char.isDigit with
    | true => exact .inr (by rw [escapeAt, hdigit]; rfl)
    | false =>
      refine .inl (Form.null fun d hd => ?_ : Form true cs ['0'] _).begins
      rwa [Option.mem_def.mp hd] at hdigit
  by_cases hfeed : c = '\n'
  · subst hfeed
    exact .inl (Form.lineFeed : Form true cs _ _).begins
  by_cases hreturn : c = '\r'
  · subst hreturn
    by_cases hhead : cs.head? = some '\n'
    · obtain ⟨rest, rfl⟩ := List.head?_eq_some_iff.mp hhead
      exact .inl (Form.lineBreak : Form true rest _ _).begins
    · exact .inl (Form.carriageReturn hhead : Form true cs _ _).begins
  by_cases hbyte : c = 'x'
  · subst hbyte
    cases hlead : Hex.leading? 2 cs with
    | none => exact .inr (by rw [escapeAt, hlead])
    | some n =>
      obtain ⟨digits, rest, rfl, hlength, h⟩ := exists_of_leading? hlead
      exact .inl (Form.byte hlength h : Form true rest _ _).begins
  by_cases hunicode : c = 'u'
  · subst hunicode
    exact begins_or_unicodeEscape_eq cs
  refine .inr ?_
  unfold escapeAt
  split <;> simp_all [letters]

/-! ### One step of the reader -/

/-- **What a step gives is read first, and what it leaves is read next.** -/
theorem Step.decodeBody_eq {text chars rest : List Char} (h : Step true text chars rest) :
    decodeBody text = chars ++ decodeBody rest := by
  cases h with
  | @plain c _ hc =>
    have hplain : '\\' ∉ [c] := fun hmem => hc (List.mem_singleton.mp hmem).symm
    exact decodeBody_append hplain rest
  | @escape written _ _ h =>
    rw [decodeBody_backslash, h.escapeAt_eq, h.toList_head?, List.drop_left]
  | @other c _ h =>
    rw [decodeBody_backslash, (begins_or_escapeAt_eq c rest).resolve_left h]
    rfl
  | final => rfl

/-- Every step takes a character. -/
private theorem Step.length_lt {plus : Bool} {text chars rest : List Char}
    (h : Step plus text chars rest) : rest.length < text.length := by
  cases h with
  | plain => exact Nat.lt_succ_self _
  | escape =>
    rw [List.length_cons, List.length_append]
    omega
  | other =>
    rw [List.length_cons, List.length_cons]
    omega
  | final => exact Nat.zero_lt_one

/-- Every text has a first step. -/
private theorem exists_step (plus : Bool) {text : List Char} (h : text ≠ []) :
    ∃ chars rest, Step plus text chars rest := by
  obtain ⟨c, text, rfl⟩ := List.exists_cons_of_ne_nil h
  by_cases hc : c = '\\'
  · subst hc
    cases text with
    | nil => exact ⟨_, _, .final⟩
    | cons c text =>
      by_cases hbegins : Begins plus (c :: text)
      · obtain ⟨written, rest, chars, htext, hform⟩ := hbegins
        exact ⟨chars, rest, htext ▸ .escape hform⟩
      · exact ⟨_, _, .other hbegins⟩
  · exact ⟨_, _, .plain hc⟩

/-- Every text has a reading. -/
private theorem exists_decodes (plus : Bool) (text : List Char) :
    ∃ value, Decodes plus text value := by
  induction hn : text.length using Nat.strong_induction_on generalizing text with
  | h n ih =>
    subst hn
    by_cases hempty : text = []
    · subst hempty
      exact ⟨[], .nil⟩
    · obtain ⟨chars, rest, hstep⟩ := exists_step plus hempty
      obtain ⟨value, hvalue⟩ := ih _ hstep.length_lt rest rfl
      exact ⟨_, .step hstep hvalue⟩

/-- **The reader follows the grammar in which a sign may stand in the braces.** -/
theorem decodes_iff {text value : List Char} :
    Decodes true text value ↔ value = decodeBody text := by
  have hread : ∀ {text value}, Decodes true text value → value = decodeBody text := fun h => by
    induction h with
    | nil => rfl
    | step hstep _ ih => rw [hstep.decodeBody_eq, ih]
  refine ⟨hread, ?_⟩
  rintro rfl
  obtain ⟨value, hvalue⟩ := exists_decodes true text
  exact hread hvalue ▸ hvalue

/-! ### Without signs -/

/-- At most one escape of the grammar begins a text. -/
private theorem Form.unique {plus : Bool} {written rest chars written' rest' chars' : List Char}
    (h : Form plus rest written chars) (h' : Form plus rest' written' chars')
    (htext : written ++ rest = written' ++ rest') : chars = chars' ∧ rest = rest' := by
  have hread := h.of_plus.escapeAt_eq
  rw [htext, h'.of_plus.escapeAt_eq, Escape.mk.injEq] at hread
  refine ⟨?_, (List.append_inj htext hread.2.symm).2⟩
  rw [← h.toList_head?, ← h'.toList_head?, hread.1]

/-- A text has one first step only. -/
private theorem Step.unique {plus : Bool} {text chars rest chars' rest' : List Char}
    (h : Step plus text chars rest) (h' : Step plus text chars' rest') :
    chars = chars' ∧ rest = rest' := by
  generalize htext : text = text' at h'
  cases h with
  | plain hc => cases h' <;> simp_all
  | escape h =>
    cases h' with
    | plain hc => exact absurd (List.cons.inj htext).1.symm hc
    | escape h' => exact h.unique h' (List.cons.inj htext).2
    -- A backslash with no escape behind it: this is what tells it from an escape.
    | other hnone => exact absurd ((List.cons.inj htext).2 ▸ h.begins) hnone
    | final => cases h <;> simp at htext
  | other hnone =>
    cases h' with
    | plain hc => exact absurd (List.cons.inj htext).1.symm hc
    | escape h' => exact absurd ((List.cons.inj htext).2 ▸ h'.begins) hnone
    | other => simpa using htext
    | final => simp at htext
  | final =>
    cases h' with
    | plain hc => exact absurd (List.cons.inj htext).1.symm hc
    | escape h' => cases h' <;> simp at htext
    | other => simp at htext
    | final => exact ⟨rfl, rfl⟩

/-- A text has one reading only. -/
private theorem Decodes.unique {plus : Bool} {text value value' : List Char}
    (h : Decodes plus text value) (h' : Decodes plus text value') : value = value' := by
  induction h generalizing value' with
  | nil =>
    cases h' with
    | nil => rfl
    | step hstep => exact absurd hstep.length_lt (Nat.not_lt_zero _)
  | step hstep _ ih =>
    cases h' with
    | nil => exact absurd hstep.length_lt (Nat.not_lt_zero _)
    | step hstep' hrest =>
      obtain ⟨rfl, rfl⟩ := hstep.unique hstep'
      rw [ih hrest]

/-- A sign in the braces is all that makes an escape of what is none. -/
private theorem begins_false_or_signed {text : List Char} (h : Begins true text) :
    Begins false text ∨ Signed ('\\' :: text) := by
  obtain ⟨written, rest, chars, rfl, h⟩ := h
  cases h with
  | letter h => exact .inl (Form.letter h : Form false rest _ _).begins
  | null h => exact .inl (Form.null h : Form false rest _ _).begins
  | byte hlength h => exact .inl (Form.byte hlength h : Form false rest _ _).begins
  | unit hlength h hvalid => exact .inl (Form.unit hlength h hvalid : Form false rest _ _).begins
  | pair hc hhigh hlow h h' =>
    exact .inl (Form.pair hc hhigh hlow h h' : Form false rest _ _).begins
  | lone hlength h hhalf halone =>
    exact .inl (Form.lone hlength h hhalf halone : Form false rest _ _).begins
  | @point sign digits n hsign hdigits h hvalid =>
    rcases hsign with rfl | ⟨-, rfl⟩
    · exact .inl (Form.point (.inl rfl) hdigits h hvalid : Form false rest _ _).begins
    · exact .inr ⟨digits, n, rest, by simp, hdigits, h, hvalid⟩
  | lineFeed => exact .inl (Form.lineFeed : Form false rest _ _).begins
  | lineBreak => exact .inl (Form.lineBreak : Form false rest _ _).begins
  | carriageReturn h => exact .inl (Form.carriageReturn h : Form false rest _ _).begins

/-- Elsewhere the grammar without signs and the one with signs step alike. -/
private theorem Step.of_not_signed {text chars rest : List Char} (h : Step false text chars rest)
    (hsigned : ¬ Signed text) : Step true text chars rest := by
  cases h with
  | plain hc => exact .plain hc
  | escape h => exact .escape h.of_plus
  | other hnone =>
    exact .other fun hbegins => (begins_false_or_signed hbegins).elim hnone hsigned
  | final => exact .final

/-- Without signs, no escape begins where a sign stands in the braces. -/
private theorem not_begins_of_plus (text : List Char) :
    ¬ Begins false ('u' :: '\x7b' :: '+' :: text) := by
  rintro ⟨written, rest, chars, htext, h⟩
  have hdigits : ∀ {digits : List Char} {n : ℕ} (behind : List Char), digits.length = 4 →
      Denotes digits n → '\x7b' :: '+' :: text ≠ digits ++ behind :=
    fun behind hlength h heq => head?_ne_of_denotes hlength h behind (heq ▸ rfl)
  cases h with
  | letter h =>
    obtain rfl := (List.cons.inj htext).1
    simp [letters] at h
  | null => simp at htext
  | byte => simp at htext
  | unit hlength h => exact hdigits rest hlength h (List.cons.inj htext).2
  | @pair high low c hc hhigh hlow h =>
    have hhead := (List.cons.inj htext).2.trans (List.append_assoc high _ rest)
    exact hdigits _ hhigh h hhead
  | lone hlength h => exact hdigits rest hlength h (List.cons.inj htext).2
  | @point sign digits n hsign hne h =>
    obtain rfl := hsign.resolve_right fun hplus => Bool.false_ne_true hplus.1
    obtain ⟨c, cs, rfl⟩ := List.exists_cons_of_ne_nil hne
    obtain rfl : '+' = c := (List.cons.inj (List.cons.inj (List.cons.inj htext).2).2).1
    exact h.not_mem rfl List.mem_cons_self
  | lineFeed => simp at htext
  | lineBreak => simp at htext
  | carriageReturn => simp at htext

/-- What stands in front of an escape is kept as it is. -/
private theorem decodes_append {kept rest value : List Char} (h : '\\' ∉ kept)
    (hrest : Decodes false rest value) : Decodes false (kept ++ rest) (kept ++ value) := by
  induction kept with
  | nil => exact hrest
  | cons c kept ih =>
    obtain ⟨hc, hkept⟩ := not_or.mp (mt List.mem_cons.mpr h)
    have hstep : Step false (c :: (kept ++ rest)) [c] (kept ++ rest) := .plain (Ne.symm hc)
    have hread := Decodes.step hstep (ih hkept)
    exact hread

/-- Without signs, a code point in braces that has a sign keeps its characters. -/
private theorem decodes_of_plus {digits rest value : List Char} {n : ℕ} (h : Denotes digits n)
    (hrest : Decodes false rest value) :
    Decodes false ('\\' :: 'u' :: '\x7b' :: '+' :: (digits ++ '\x7d' :: rest))
      ('u' :: '\x7b' :: '+' :: (digits ++ '\x7d' :: value)) := by
  have hplain : '\\' ∉ '\x7b' :: '+' :: (digits ++ ['\x7d']) := by
    simp [h.not_mem (c := '\\') rfl]
  have hkept := decodes_append hplain hrest
  rw [List.cons_append, List.cons_append, List.append_assoc, List.singleton_append,
    List.cons_append, List.cons_append, List.append_assoc, List.singleton_append] at hkept
  exact .step (.other (not_begins_of_plus _)) hkept

/-- The reader takes it for the character of that code. -/
private theorem decodeBody_of_plus {digits : List Char} {n : ℕ} (hdigits : digits ≠ [])
    (h : Denotes digits n) (hvalid : n.isValidChar) (rest : List Char) :
    decodeBody ('\\' :: 'u' :: '\x7b' :: '+' :: (digits ++ '\x7d' :: rest)) =
      Char.ofNat n :: decodeBody rest := by
  have hform : Form true rest ('u' :: '\x7b' :: (['+'] ++ digits ++ ['\x7d'])) [Char.ofNat n] :=
    .point (.inr ⟨rfl, rfl⟩) hdigits h hvalid
  have hstep := (Step.escape hform).decodeBody_eq
  rwa [List.cons_append, List.cons_append, List.append_assoc, List.append_assoc] at hstep

/-- Where no sign in braces is come to, the reader follows the grammar without signs. -/
private theorem Decodes.eq_decodeBody {text value : List Char} (h : Decodes false text value)
    (hsigned : ¬ ∃ place, ComesTo text place ∧ Signed place) : value = decodeBody text := by
  induction h with
  | nil => rfl
  | step hstep _ ih =>
    have hhere := hstep.of_not_signed fun h => hsigned ⟨_, .refl, h⟩
    rw [hhere.decodeBody_eq,
      ih fun ⟨place, hcomes, h⟩ => hsigned ⟨place, .head ⟨_, hstep⟩ hcomes, h⟩]

/-- The reader never gives more than the grammar without signs, and gives less where a sign in
braces is come to: the characters of that escape become a single one, and both go on behind it. -/
private theorem Decodes.length_le {text value : List Char} (h : Decodes false text value) :
    (decodeBody text).length ≤ value.length ∧
      ((∃ place, ComesTo text place ∧ Signed place) →
        (decodeBody text).length < value.length) := by
  induction hn : text.length using Nat.strong_induction_on generalizing text value with
  | h n ih =>
    subst hn
    by_cases hsigned : Signed text
    · obtain ⟨digits, n, rest, rfl, hne, hdigits, hvalid⟩ := hsigned
      -- Here the two readings part: the one takes the braces as an escape, the other one letter by
      -- letter.
      obtain ⟨behind, hbehind⟩ := exists_decodes false rest
      obtain rfl := h.unique (decodes_of_plus hdigits hbehind)
      have hle := (ih rest.length (by simp; omega) hbehind rfl).1
      rw [decodeBody_of_plus hne hdigits hvalid]
      have hlt : (Char.ofNat n :: decodeBody rest).length <
          ('u' :: '\x7b' :: '+' :: (digits ++ '\x7d' :: behind)).length := by
        simp only [List.length_cons, List.length_append]
        omega
      exact ⟨hlt.le, fun _ => hlt⟩
    · cases h with
      | nil =>
        refine ⟨le_rfl, fun ⟨place, hcomes, hplace⟩ => ?_⟩
        rcases hcomes.cases_head with rfl | ⟨rest, ⟨_, hstep⟩, -⟩
        · exact absurd hplace hsigned
        · exact absurd hstep.length_lt (Nat.not_lt_zero _)
      | step hstep hrest =>
        obtain ⟨hle, hlt⟩ := ih _ hstep.length_lt hrest rfl
        rw [(hstep.of_not_signed hsigned).decodeBody_eq, List.length_append, List.length_append]
        refine ⟨Nat.add_le_add_left hle _, fun ⟨place, hcomes, hplace⟩ => ?_⟩
        rcases hcomes.cases_head with rfl | ⟨rest, ⟨_, hstep'⟩, hcomes⟩
        · exact absurd hplace hsigned
        · -- Where the place is further on, the induction has it.
          obtain ⟨-, rfl⟩ := hstep.unique hstep'
          exact Nat.add_lt_add_left (hlt ⟨place, hcomes, hplace⟩) _

/-! ### Quoted texts -/

/-- Between marks of one byte stands what is read. -/
private theorem toList_unquote {q q' : Char} (hq : q.utf8Size = 1) (hq' : q'.utf8Size = 1)
    (body : List Char) :
    (unquote (String.ofList (q :: (body ++ [q'])))).toList = decodeBody body := by
  rw [unquote, String.toList_ofList, String.toList_ofList, decode, inner_eq, slice?_ends hq hq']
  rfl

/-- **What a quoted text is read as.** The grammar of escapes gives every text exactly one reading.
The string that is read between two marks is the one that the grammar gives when a code point in
braces may have a sign; and it is the one that the grammar gives without such signs if and only if
reading from left to right comes to no place where such a sign stands. -/
theorem unquote_grammar {q q' : Char} (hq : q.utf8Size = 1) (hq' : q'.utf8Size = 1)
    (body : List Char) :
    (∃! value, Decodes false body value) ∧
      (∀ value, Decodes true body value ↔
        value = (unquote (String.ofList (q :: (body ++ [q'])))).toList) ∧
      (Decodes false body (unquote (String.ofList (q :: (body ++ [q'])))).toList ↔
        ¬ ∃ place, ComesTo body place ∧ Signed place) := by
  rw [toList_unquote hq hq']
  obtain ⟨value, hvalue⟩ := exists_decodes false body
  refine ⟨⟨value, hvalue, fun _ h => h.unique hvalue⟩, fun _ => decodes_iff, ?_, ?_⟩
  · intro h hcomes
    exact absurd (h.length_le.2 hcomes) (lt_irrefl _)
  · intro hcomes
    rwa [hvalue.eq_decodeBody hcomes] at hvalue

/-- Escapes of every length, whole and broken off, a pair and two halves that stand alone. -/
theorem unquote_grammar_mixed :
    '\''.utf8Size = 1 ∧
      let body := ("\\\\\\q\\0\\08\\x41\\x4\\u00e9\\ud83d\\ude00\\ude00\\ud83d\\u0041" ++
        "\\u\x7b1f600\x7d\\u\x7b110000\x7d\\u\x7b\x7d\\\r\n\\").toList
      (∃! value, Decodes false body value) ∧
        (∀ value, Decodes true body value ↔
          value = (unquote (String.ofList ('\'' :: (body ++ ['\''])))).toList) ∧
        (Decodes false body (unquote (String.ofList ('\'' :: (body ++ ['\''])))).toList ↔
          ¬ ∃ place, ComesTo body place ∧ Signed place) :=
  ⟨rfl, unquote_grammar rfl rfl _⟩

/-- A malformed escape that does not keep its characters: `\u{+41}` is read as `A`. -/
theorem unquote_plus :
    Decodes false "\\u\x7b+41\x7d".toList "u\x7b+41\x7d".toList ∧
      unquote "'\\u\x7b+41\x7d'" = "A" ∧
      ¬ Decodes false "\\u\x7b+41\x7d".toList (unquote "'\\u\x7b+41\x7d'").toList := by
  have hdigits : Denotes ['4', '1'] 0x41 := ⟨[4, 1], .cons rfl (.cons rfl .nil), rfl⟩
  have hkept : Decodes false "\\u\x7b+41\x7d".toList "u\x7b+41\x7d".toList :=
    decodes_of_plus hdigits .nil
  have hread : unquote "'\\u\x7b+41\x7d'" = "A" := by decide +kernel
  refine ⟨hkept, hread, fun h => ?_⟩
  rw [hread] at h
  exact absurd (h.unique hkept) (by decide)

end Text.Quoted

end Reifier
