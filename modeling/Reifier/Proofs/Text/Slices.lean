import Mathlib.Data.List.TakeWhile
import Mathlib.Tactic
import Reifier.Proofs.Token.Places
import Reifier.Text.Quoted

/-!
# Reading escapes by byte offsets

A reader of quoted strings that works on bytes cuts the text at an offset before each escape and
behind it, and inside an escape as well. Here is such a reader, which has no answer if a cut falls
outside the text or inside a character (`unquoteBytes?`). It always has one, the same as the reader
that goes by characters (`unquoteBytes?_eq`): wherever it cuts after a given number of bytes, so
many characters of one byte have been seen before.
-/

namespace Reifier

namespace Text

/-! ### Cuts -/

/-- The offset of the first occurrence of a character. -/
def offsetOf? (c : Char) (cs : List Char) : Option ℕ :=
  if c ∈ cs then some (byteLength (cs.takeWhile (· ≠ c))) else none

/-- A text is cut at the first occurrence of a character in it. -/
theorem exists_of_mem {c : Char} {cs : List Char} (h : c ∈ cs) :
    ∃ front rest, cs = front ++ c :: rest ∧ c ∉ front ∧ cs.takeWhile (· ≠ c) = front ∧
      offsetOf? c cs = some (byteLength front) := by
  suffices hcut : ∃ front rest, cs = front ++ c :: rest ∧ c ∉ front ∧
      cs.takeWhile (· ≠ c) = front by
    obtain ⟨front, rest, hcs, hfront, htake⟩ := hcut
    exact ⟨front, rest, hcs, hfront, htake, (if_pos h).trans (by rw [htake])⟩
  induction cs with
  | nil => cases h
  | cons d cs ih =>
    by_cases hd : d = c
    · exact ⟨[], cs, by rw [hd, List.nil_append], List.not_mem_nil, by simp [hd]⟩
    · obtain ⟨front, rest, hcs, hfront, htake⟩ :=
        ih ((List.mem_cons.mp h).resolve_left (Ne.symm hd))
      refine ⟨d :: front, rest, by rw [hcs, List.cons_append], ?_, ?_⟩
      · exact fun hmem => (List.mem_cons.mp hmem).elim (fun heq => hd heq.symm) hfront
      · rw [List.takeWhile_cons_of_pos (by simpa using hd), htake]

/-- As many bytes as some characters have are these characters. -/
private theorem takeBytes?_byteLength_take (cs : List Char) (n : ℕ) :
    takeBytes? cs (byteLength (cs.take n)) = some (cs.take n) := by
  nth_rewrite 1 [← List.take_append_drop n cs]
  exact takeBytes?_append _ _

private theorem dropBytes?_byteLength_take (cs : List Char) (n : ℕ) :
    dropBytes? cs (byteLength (cs.take n)) = some (cs.drop n) := by
  nth_rewrite 1 [← List.take_append_drop n cs]
  exact dropBytes?_append _ _

/-- Characters of one byte. -/
def Narrow (cs : List Char) : Prop := ∀ c ∈ cs, c.utf8Size = 1

/-- Where each character has one byte, bytes are counted by characters. -/
private theorem Narrow.byteLength_eq {cs : List Char} (h : Narrow cs) :
    byteLength cs = cs.length := by
  induction cs with
  | nil => rfl
  | cons c cs ih =>
    obtain ⟨hc, hcs⟩ := List.forall_mem_cons.mp h
    rw [byteLength_cons, hc, ih hcs, List.length_cons, Nat.add_comm]

/-- Of a text that has `n` characters of one byte in front, the first `n` bytes are these. -/
private theorem takeBytes?_of_narrow {cs : List Char} {n : ℕ} (h : Narrow (cs.take n))
    (hn : n ≤ cs.length) : takeBytes? cs n = some (cs.take n) := by
  have htake := takeBytes?_byteLength_take cs n
  rwa [h.byteLength_eq, List.length_take_of_le hn] at htake

private theorem dropBytes?_cons {c : Char} (h : c.utf8Size = 1) (cs : List Char) :
    dropBytes? (c :: cs) 1 = some cs := by
  have hdrop := dropBytes?_append [c] cs
  rwa [byteLength_cons, byteLength_nil, h] at hdrop

end Text

namespace Hex

/-- A hexadecimal digit has one byte. -/
private theorem utf8Size_of_isDigit {c : Char} (h : isDigit c = true) : c.utf8Size = 1 := by
  have hle : c.toNat ≤ 127 := by
    simp only [isDigit, digit?] at h
    split_ifs at h <;> first | omega | simp at h
  exact Char.utf8Size_eq_one_iff.mpr (UInt32.le_iff_toNat_le.mpr hle)

/-- What is read as a number is digits only. -/
theorem isDigit_of_valueFrom? {high n : ℕ} {cs : List Char} (h : valueFrom? high cs = some n) :
    ∀ c ∈ cs, isDigit c = true := by
  induction cs generalizing high with
  | nil => exact List.forall_mem_nil _
  | cons c cs ih =>
    obtain ⟨d, hd, hcs⟩ := Option.bind_eq_some_iff.mp h
    exact List.forall_mem_cons.mpr ⟨Option.isSome_of_mem hd, ih hcs⟩

/-- The number that the first `count` bytes denote, if they are characters that are all digits. -/
def leadingBytes? (count : ℕ) (cs : List Char) : Option ℕ :=
  ((Text.takeBytes? cs count).filter (·.all isDigit)).bind value?

/-- If the first characters are all digits, they are the first bytes. -/
private theorem takeBytes?_of_isDigit {count : ℕ} {cs : List Char}
    (h : ∀ c ∈ cs.take count, isDigit c = true) (hcount : count ≤ cs.length) :
    Text.takeBytes? cs count = some (cs.take count) :=
  Text.takeBytes?_of_narrow (fun c hc => utf8Size_of_isDigit (h c hc)) hcount

/-- **Reading so many digits by bytes and by characters is the same**: where a byte is cut out of a
character, that character is no digit. -/
private theorem leadingBytes?_eq (count : ℕ) (cs : List Char) :
    leadingBytes? count cs = leading? count cs := by
  unfold leadingBytes? leading?
  by_cases hdigits : count ≤ cs.length ∧ ∀ c ∈ cs.take count, isDigit c = true
  · obtain ⟨hcount, hdigits⟩ := hdigits
    rw [takeBytes?_of_isDigit hdigits hcount, if_pos (List.length_take_of_le hcount),
      Option.filter_some, if_pos (List.all_eq_true.mpr hdigits), Option.bind_some]
  · -- Neither reader finds enough digits.
    have hbytes : (Text.takeBytes? cs count).filter (·.all isDigit) = none := by
      refine Option.filter_eq_none_iff.mpr fun front hfront hall => hdigits ?_
      obtain ⟨after, rfl, rfl⟩ := Text.isPrefix_of_takeBytes? hfront
      have hdigit := List.all_eq_true.mp hall
      have hlength : Text.byteLength front = front.length :=
        Text.Narrow.byteLength_eq fun c hc => utf8Size_of_isDigit (hdigit c hc)
      rw [hlength, List.take_left]
      exact ⟨by simp, hdigit⟩
    rw [hbytes, Option.bind_none]
    split_ifs with hlength
    · refine (Option.eq_none_iff_forall_ne_some.mpr fun n hn => hdigits ?_).symm
      rw [List.length_take] at hlength
      exact ⟨by omega, isDigit_of_valueFrom? hn⟩
    · rfl

/-- The characters that have been read as digits have one byte each. -/
private theorem byteLength_of_leading? {count n : ℕ} {cs : List Char}
    (h : leading? count cs = some n) : Text.byteLength (cs.take count) = count := by
  unfold leading? at h
  split_ifs at h with hlength
  have hnarrow : Text.Narrow (cs.take count) := fun c hc =>
    utf8Size_of_isDigit (isDigit_of_valueFrom? h c hc)
  rw [hnarrow.byteLength_eq, hlength]

end Hex

namespace Text.Quoted

/-! ### One escape -/

/-- A code point in braces is read up to the brace that closes it. -/
theorem unicodeEscape_braces {digits : List Char} (h : '\x7d' ∉ digits) (rest : List Char) :
    unicodeEscape ('\x7b' :: (digits ++ '\x7d' :: rest)) =
      match (Hex.bounded? (1 <<< 32) digits).bind charOfCode? with
      | some c => ⟨some c, digits.length + 3⟩
      | none => ⟨some 'u', 1⟩ := by
  have hplain : ∀ c ∈ digits, decide (c ≠ '\x7d') = true := fun c hc =>
    decide_eq_true (ne_of_mem_of_not_mem hc h)
  have htake : (digits ++ '\x7d' :: rest).takeWhile (· ≠ '\x7d') = digits := by
    rw [List.takeWhile_append_of_pos hplain]
    simp
  have hlength : digits.length ≠ (digits ++ '\x7d' :: rest).length := by simp
  rw [unicodeEscape]
  simp only [htake]
  exact if_neg hlength

/-- A brace that is not closed begins no escape. -/
theorem unicodeEscape_unclosed {braced : List Char} (h : '\x7d' ∉ braced) :
    unicodeEscape ('\x7b' :: braced) = ⟨some 'u', 1⟩ := by
  have hall : braced.takeWhile (· ≠ '\x7d') = braced :=
    List.takeWhile_eq_self_iff.mpr fun c hc => decide_eq_true (ne_of_mem_of_not_mem hc h)
  exact if_pos (congrArg List.length hall)

/-- Without a brace four digits are read, and a second half if they are a first one. -/
theorem unicodeEscape_of_head?_ne {cs : List Char} (h : cs.head? ≠ some '\x7b') :
    unicodeEscape cs =
      match Hex.leading? 4 cs with
      | none => ⟨some 'u', 1⟩
      | some high =>
        match if isHighSurrogate high then lowHalf? (cs.drop 4) else none with
        | some low => ⟨some (pairChar high low), 11⟩
        | none => ⟨some ((charOfCode? high).getD replacement), 5⟩ := by
  unfold unicodeEscape
  split
  · simp at h
  · rfl

theorem escapeAt_carriageReturn {rest : List Char} (h : rest.head? ≠ some '\n') :
    escapeAt ('\r' :: rest) = ⟨none, 1⟩ := by
  unfold escapeAt
  split <;> grind

/-- The escape `u\x7bH…\x7d` that ends before `braced`, and how many bytes belong to it. -/
def codePointBytes? (braced : List Char) : Option (Option Char × ℕ) :=
  match offsetOf? '\x7d' braced with
  | none => some (some 'u', 1)
  | some close => (takeBytes? braced close).map fun digits =>
    match (Hex.bounded? (1 <<< 32) digits).bind charOfCode? with
    | some c => (some c, close + 3)
    | none => (some 'u', 1)

/-- The second half of a surrogate pair, written `\uHHHH` at the front of `cs`. -/
def lowHalfBytes? : List Char → Option ℕ
  | '\\' :: 'u' :: cs => (Hex.leadingBytes? 4 cs).filter isLowSurrogate
  | _ => none

/-- The escape whose `u` stands before `body`, a code unit or two, and how many bytes belong to
it. -/
def codeUnitBytes? (body : List Char) : Option (Option Char × ℕ) :=
  match Hex.leadingBytes? 4 body with
  | none => some (some 'u', 1)
  | some high =>
    if isHighSurrogate high then
      (dropBytes? body 4).map fun behind =>
        match lowHalfBytes? behind with
        | some low => (some (pairChar high low), 11)
        | none => (some ((charOfCode? high).getD replacement), 5)
    else some (some ((charOfCode? high).getD replacement), 5)

/-- The escape whose `u` is the first character, and how many bytes belong to it. -/
def unicodeEscapeBytes? (escape : List Char) : Option (Option Char × ℕ) :=
  (dropBytes? escape 1).bind fun body =>
    if body.head? = some '\x7b' then (dropBytes? body 1).bind codePointBytes?
    else codeUnitBytes? body

/-- The escape whose backslash stands in front, and how many bytes belong to it. -/
def escapeBytes? (escape : List Char) : Option (Option Char × ℕ) :=
  match escape with
  | [] => some (none, 0)
  | 'n' :: _ => some (some '\n', 1)
  | 't' :: _ => some (some '\t', 1)
  | 'r' :: _ => some (some '\r', 1)
  | 'b' :: _ => some (some '\x08', 1)
  | 'f' :: _ => some (some '\x0c', 1)
  | 'v' :: _ => some (some '\x0b', 1)
  | '0' :: _ => (dropBytes? escape 1).map fun rest =>
    (some (if rest.head?.any Char.isDigit then '0' else '\x00'), 1)
  | '\n' :: _ => some (none, 1)
  | '\r' :: _ => (dropBytes? escape 1).map fun rest =>
    (none, if rest.head? = some '\n' then 2 else 1)
  | 'x' :: _ => (dropBytes? escape 1).map fun rest =>
    match Hex.leadingBytes? 2 rest with
    | some code => (some (Char.ofNat code), 3)
    | none => (some 'x', 1)
  | 'u' :: _ => unicodeEscapeBytes? escape
  | c :: _ => some (some c, c.utf8Size)

/-- The bytes of the characters of an escape. -/
def Escape.bytes (e : Escape) (cs : List Char) : ℕ := byteLength (cs.take e.length)

/-- The second half of a pair is found by bytes where it is found by characters. -/
private theorem lowHalfBytes?_eq (cs : List Char) : lowHalfBytes? cs = lowHalf? cs := by
  unfold lowHalfBytes?
  split
  · rw [Hex.leadingBytes?_eq, lowHalf?]
  · unfold lowHalf?
    split
    · simp_all
    · rfl

/-- The second half of a surrogate pair takes up six bytes. -/
private theorem byteLength_of_lowHalf? {cs : List Char} {low : ℕ} (h : lowHalf? cs = some low) :
    byteLength (cs.take 6) = 6 := by
  unfold lowHalf? at h
  split at h
  · rename_i behind
    obtain ⟨hlow, -⟩ := Option.filter_eq_some_iff.mp h
    have hdigits := Hex.byteLength_of_leading? hlow
    have hmarks : byteLength ['\\', 'u'] = 2 := by decide
    change byteLength (['\\', 'u'] ++ behind.take 4) = 6
    rw [byteLength_append, hmarks, hdigits]
  · cases h

/-- A code point in braces is read by bytes as by characters. -/
private theorem codePointBytes?_eq (braced : List Char) :
    codePointBytes? braced = some ((unicodeEscape ('\x7b' :: braced)).char?,
      (unicodeEscape ('\x7b' :: braced)).bytes ('u' :: '\x7b' :: braced)) := by
  by_cases hclose : '\x7d' ∈ braced
  · obtain ⟨digits, rest, rfl, hdigits, -, hoffset⟩ := exists_of_mem hclose
    rw [unicodeEscape_braces hdigits, codePointBytes?, hoffset]
    dsimp only
    rw [takeBytes?_append, Option.map_some]
    cases hcode : (Hex.bounded? (1 <<< 32) digits).bind charOfCode? with
    | none => rfl
    | some c =>
      -- The escape takes the two marks in front, the digits and the closing mark.
      have htwo : 'u'.utf8Size = 1 ∧ '\x7b'.utf8Size = 1 := ⟨rfl, rfl⟩
      have hone : byteLength ['\x7d'] = 1 := rfl
      have hall : (digits ++ '\x7d' :: rest).take (digits.length + 1) = digits ++ ['\x7d'] :=
        List.take_length_add_append 1
      have hbytes : (⟨some c, digits.length + 3⟩ : Escape).bytes
          ('u' :: '\x7b' :: (digits ++ '\x7d' :: rest)) = byteLength digits + 3 := by
        rw [Escape.bytes, List.take_succ_cons, List.take_succ_cons, byteLength_cons,
          byteLength_cons, hall, byteLength_append, hone, htwo.1, htwo.2]
        omega
      rw [hbytes]
  · have hoffset : offsetOf? '\x7d' braced = none := if_neg hclose
    rw [unicodeEscape_unclosed hclose, codePointBytes?, hoffset]
    rfl

/-- Escapes of four digits are read by bytes as they are by characters. -/
private theorem codeUnitBytes?_eq {cs : List Char} (h : cs.head? ≠ some '\x7b') :
    codeUnitBytes? cs =
      some ((unicodeEscape cs).char?, (unicodeEscape cs).bytes ('u' :: cs)) := by
  rw [codeUnitBytes?, Hex.leadingBytes?_eq, unicodeEscape_of_head?_ne h]
  cases hhigh : Hex.leading? 4 cs with
  | none => rfl
  | some high =>
    have hdigits := Hex.byteLength_of_leading? hhigh
    -- The letter and four digits are five bytes.
    have hone : ∀ char?, some (char?, 5) =
        some (char?, (⟨char?, 5⟩ : Escape).bytes ('u' :: cs)) := fun char? => by
      rw [Escape.bytes, List.take_succ_cons, byteLength_cons, hdigits]
      rfl
    dsimp only
    by_cases hsurrogate : isHighSurrogate high = true
    · have hdrop : dropBytes? cs 4 = some (cs.drop 4) := by
        have hcut := dropBytes?_byteLength_take cs 4
        rwa [hdigits] at hcut
      rw [if_pos hsurrogate, if_pos hsurrogate, hdrop, Option.map_some, lowHalfBytes?_eq]
      cases hlow : lowHalf? (cs.drop 4) with
      | none => exact hone _
      | some low =>
        have hlowDigits := byteLength_of_lowHalf? hlow
        -- A pair of them shares the letter in front.
        have htwo : byteLength (cs.take 10) = 10 := by
          rw [List.take_add (i := 4) (j := 6), byteLength_append, hdigits, hlowDigits]
        dsimp only
        rw [Escape.bytes, List.take_succ_cons, byteLength_cons, htwo]
        rfl
    · rw [if_neg hsurrogate, if_neg hsurrogate]
      exact hone _

/-- Escapes of a code point are read by bytes as they are by characters. -/
private theorem unicodeEscapeBytes?_eq (cs : List Char) :
    unicodeEscapeBytes? ('u' :: cs) =
      some ((unicodeEscape cs).char?, (unicodeEscape cs).bytes ('u' :: cs)) := by
  rw [unicodeEscapeBytes?, dropBytes?_cons rfl, Option.bind_some]
  by_cases hbrace : cs.head? = some '\x7b'
  · obtain ⟨braced, rfl⟩ := List.head?_eq_some_iff.mp hbrace
    rw [if_pos hbrace, dropBytes?_cons rfl, Option.bind_some, codePointBytes?_eq]
  · rw [if_neg hbrace, codeUnitBytes?_eq hbrace]

/-- An escape is read by bytes as by characters. -/
private theorem escapeBytes?_eq (cs : List Char) :
    escapeBytes? cs = some ((escapeAt cs).char?, (escapeAt cs).bytes cs) := by
  unfold escapeBytes?
  split
  · rfl
  · rfl
  · rfl
  · rfl
  · rfl
  · rfl
  · rfl
  · rw [dropBytes?_cons rfl]
    rfl
  · rfl
  · rename_i rest
    rw [dropBytes?_cons rfl, Option.map_some]
    -- A carriage return and a line feed are one line break, of two bytes.
    by_cases hline : rest.head? = some '\n'
    · obtain ⟨more, rfl⟩ := List.head?_eq_some_iff.mp hline
      rfl
    · rw [escapeAt_carriageReturn hline, if_neg hline]
      rfl
  · rename_i rest
    rw [dropBytes?_cons rfl, Option.map_some, Hex.leadingBytes?_eq]
    cases hcode : Hex.leading? 2 rest with
    | none =>
      have hescape : escapeAt ('x' :: rest) = ⟨some 'x', 1⟩ := by simp only [escapeAt, hcode]
      rw [hescape]
      rfl
    | some code =>
      have hescape : escapeAt ('x' :: rest) = ⟨some (Char.ofNat code), 3⟩ := by
        simp only [escapeAt, hcode]
      have hdigits := Hex.byteLength_of_leading? hcode
      rw [hescape, Escape.bytes, List.take_succ_cons, byteLength_cons, hdigits]
      rfl
  · rename_i rest
    exact unicodeEscapeBytes?_eq rest
  · rename_i c rest _ _ _ _ _ _ _ _ _ _ _
    -- Any other character stands for itself.
    have hplain : escapeAt (c :: rest) = ⟨some c, 1⟩ := by
      unfold escapeAt
      split <;> simp_all
    rw [hplain]
    rfl

/-! ### Strings -/

/-- Reads what stands between the quotes in at most `rounds` steps, an escape in each. -/
def decodeBytes? : ℕ → List Char → Option (List Char)
  | 0, _ => none
  | rounds + 1, cs =>
    match offsetOf? '\\' cs with
    | none => some cs
    | some offset => do
      let kept ← takeBytes? cs offset
      let escape ← dropBytes? cs (offset + 1)
      let (char?, consumed) ← escapeBytes? escape
      let behind ← dropBytes? escape consumed
      let more ← decodeBytes? rounds behind
      return kept ++ char?.toList ++ more

/-- Characters that an escape has taken are passed over. -/
private theorem decodeAfter_eq_drop (n : ℕ) (cs : List Char) :
    decodeAfter n cs = decodeBody (cs.drop n) := by
  induction cs generalizing n with
  | nil => cases n <;> rfl
  | cons c cs ih =>
    cases n with
    | zero => rfl
    | succ n => exact ih n

/-- What stands before the first backslash is read as it is. -/
theorem decodeBody_append {kept : List Char} (h : '\\' ∉ kept) (rest : List Char) :
    decodeBody (kept ++ rest) = kept ++ decodeBody rest := by
  induction kept with
  | nil => rfl
  | cons c kept ih =>
    obtain ⟨hc, hkept⟩ := not_or.mp (mt List.mem_cons.mpr h)
    have hread : decodeBody (c :: (kept ++ rest)) = c :: decodeBody (kept ++ rest) :=
      if_neg (Ne.symm hc)
    rw [List.cons_append, hread, ih hkept, List.cons_append]

/-- A backslash gives what its escape denotes, and reading goes on behind the escape. -/
theorem decodeBody_backslash (escape : List Char) :
    decodeBody ('\\' :: escape) =
      (escapeAt escape).char?.toList ++ decodeBody (escape.drop (escapeAt escape).length) := by
  rw [← decodeAfter_eq_drop]
  rfl

/-- **Escapes are read by bytes as by characters.** -/
theorem decodeBytes?_eq {cs : List Char} {rounds : ℕ} (h : cs.length < rounds) :
    decodeBytes? rounds cs = some (decodeBody cs) := by
  induction rounds generalizing cs with
  | zero => exact absurd h (Nat.not_lt_zero _)
  | succ rounds ih =>
    rw [decodeBytes?]
    by_cases hbackslash : '\\' ∈ cs
    · obtain ⟨kept, escape, hcs, hkept, -, hoffset⟩ := exists_of_mem hbackslash
      have htake : takeBytes? cs (byteLength kept) = some kept := by rw [hcs, takeBytes?_append]
      have hdrop : dropBytes? cs (byteLength kept + 1) = some escape := by
        have hcut := dropBytes?_append (kept ++ ['\\']) escape
        rwa [byteLength_append, List.append_assoc, List.singleton_append, ← hcs] at hcut
      have hbehind : dropBytes? escape ((escapeAt escape).bytes escape) =
          some (escape.drop (escapeAt escape).length) := dropBytes?_byteLength_take _ _
      have hshort : (escape.drop (escapeAt escape).length).length < rounds := by
        rw [hcs, List.length_append, List.length_cons] at h
        rw [List.length_drop]
        omega
      have hread : decodeBody cs = kept ++ ((escapeAt escape).char?.toList ++
          decodeBody (escape.drop (escapeAt escape).length)) := by
        rw [hcs, decodeBody_append hkept, decodeBody_backslash]
      rw [hoffset]
      simp only [htake, hdrop, escapeBytes?_eq, hbehind, ih hshort, Option.bind_eq_bind,
        Option.bind_some, Option.pure_def, hread, List.append_assoc]
    · have hoffset : offsetOf? '\\' cs = none := if_neg hbackslash
      have hread := decodeBody_append hbackslash []
      rw [List.append_nil] at hread
      rw [hoffset, hread]
      exact congrArg some (List.append_nil cs).symm

/-- A first and a last character of one byte are the first and the last byte. -/
theorem slice?_ends {c d : Char} (hc : c.utf8Size = 1) (hd : d.utf8Size = 1) (mid : List Char) :
    slice? (c :: (mid ++ [d])) ⟨1, byteLength (c :: (mid ++ [d])) - 1⟩ = some mid := by
  have hends := slice?_append [c] mid [d]
  have hfirst : byteLength [c] = 1 := by rw [byteLength_cons, hc, byteLength_nil]
  have hlength : byteLength (c :: (mid ++ [d])) - 1 = 1 + byteLength mid := by
    rw [byteLength_cons, byteLength_append, byteLength_cons, hc, hd, byteLength_nil]
    omega
  rwa [hfirst, ← hlength] at hends

/-- A text of one byte is one character. -/
private theorem exists_of_byteLength_eq_one {cs : List Char} (h : byteLength cs = 1) :
    ∃ c, cs = [c] ∧ c.utf8Size = 1 := by
  cases cs with
  | nil => cases h
  | cons c cs =>
    have hpos := c.utf8Size_pos
    rw [byteLength_cons] at h
    have hcs : cs = [] := eq_nil_of_byteLength_eq_zero (by omega)
    exact ⟨c, by rw [hcs], by omega⟩

/-- Between the first and the last byte stands a text only if these are characters. -/
private theorem exists_ends_of_slice? {cs part : List Char}
    (h : slice? cs ⟨1, byteLength cs - 1⟩ = some part) :
    ∃ c d mid, cs = c :: (mid ++ [d]) ∧ c.utf8Size = 1 ∧ d.utf8Size = 1 := by
  obtain ⟨hle, ⟨first, behind, hcs, hfirst⟩, front, last, hcs', hlast⟩ :=
    Span.lies_iff.mpr ⟨part, h⟩
  dsimp only at hle hfirst hlast
  obtain ⟨c, rfl, hc⟩ := exists_of_byteLength_eq_one hfirst
  have hlength : byteLength last = 1 := by
    rw [hcs', byteLength_append] at hlast hle
    omega
  obtain ⟨d, rfl, hd⟩ := exists_of_byteLength_eq_one hlength
  cases front with
  | nil =>
    rw [byteLength_nil] at hlast
    omega
  | cons e mid =>
    obtain ⟨rfl, -⟩ := List.cons.inj (hcs.symm.trans hcs')
    exact ⟨c, d, mid, hcs', hc, hd⟩

/-- What stands between the first and the last byte, where characters end there. -/
theorem inner_eq (cs : List Char) :
    inner cs = (slice? cs ⟨1, byteLength cs - 1⟩).getD [] := by
  cases hslice : slice? cs ⟨1, byteLength cs - 1⟩ with
  | some part =>
    obtain ⟨c, d, mid, rfl, hc, hd⟩ := exists_ends_of_slice? hslice
    obtain rfl := Option.some.inj (hslice.symm.trans (slice?_ends hc hd mid))
    rw [inner, List.getLast?_concat]
    simp [hc, hd]
  | none =>
    cases cs with
    | nil => rfl
    | cons c cs =>
      rcases List.eq_nil_or_concat cs with rfl | ⟨mid, d, rfl⟩
      · rfl
      · rw [List.concat_eq_append] at hslice ⊢
        rw [inner, List.getLast?_concat]
        refine if_neg fun hends => ?_
        rw [slice?_ends hends.1 hends.2] at hslice
        cases hslice

end Text.Quoted

namespace Text

open Quoted

/-- The string that a quoted text denotes, read by byte offsets. -/
def unquoteBytes? (s : String) : Option String :=
  let inner := (slice? s.toList ⟨1, byteLength s.toList - 1⟩).getD []
  (decodeBytes? (inner.length + 1) inner).map String.ofList

/-- **Reading by byte offsets never cuts a character**, and reads the same string. -/
theorem unquoteBytes?_eq (s : String) : unquoteBytes? s = some (unquote s) := by
  unfold unquoteBytes? unquote decode
  simp only [← inner_eq, decodeBytes?_eq (Nat.lt_succ_self _), Option.map_some]

end Text

end Reifier
