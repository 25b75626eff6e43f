import Reifier.Number.Literal
import Reifier.Proofs.Text.Escapes
import Reifier.Proofs.Token.Patterns

/-!
# Which numbers have a value

Decimal digits always have a value: a fraction and an exponent of any length come to a double, if
need be to zero or to infinity. Hexadecimal digits are first read as a natural number of 64 bits,
and longer ones come to no number at all. These are the only number tokens without a value
(`isNaN_value_iff`), and a minus sign changes nothing about it.
-/

namespace Reifier

/-! ### Rounding comes to a number -/

namespace Binary64

private theorem isNaN_zero (negative : Bool) : (⟨negative, 0⟩ : Binary64).isNaN = false := by
  decide +revert

/-- A quotient is rounded at most to infinity. -/
private theorem isNaN_ofRatio (num den : ℕ) : (ofRatio num den).isNaN = false :=
  decide_eq_false (not_lt.mpr (min_le_left _ _))

/-- A decimal is rounded to a number or to an infinity, never to no number. -/
private theorem isNaN_ofDecimal (mantissa digits : ℕ) (exponent : ℤ) :
    (ofDecimal mantissa digits exponent).isNaN = false := by
  unfold ofDecimal
  split_ifs
  · exact isNaN_zero false
  · rfl
  · exact isNaN_zero false
  · exact isNaN_ofRatio _ _

private theorem isNaN_negate (x : Binary64) : x.negate.isNaN = x.isNaN := rfl

end Binary64

/-! ### Hexadecimal numbers -/

namespace Hex

/-- Digits denote a number. -/
private theorem exists_denotes {digits : List Char} (h : ∀ c ∈ digits, isDigit c = true) :
    ∃ n, Denotes digits n := by
  have hvalues : ∃ values, List.Forall₂ (fun c d => digit? c = some d) digits values := by
    induction digits with
    | nil => exact ⟨[], .nil⟩
    | cons c digits ih =>
      obtain ⟨hc, hdigits⟩ := List.forall_mem_cons.mp h
      obtain ⟨d, hd⟩ := Option.isSome_iff_exists.mp hc
      obtain ⟨values, hvalues⟩ := ih hdigits
      exact ⟨d :: values, .cons hd hvalues⟩
  obtain ⟨values, hvalues⟩ := hvalues
  exact ⟨_, values, hvalues, rfl⟩

/-- Digits denote one number only. -/
private theorem Denotes.unique {digits : List Char} {n m : ℕ} (hn : Denotes digits n)
    (hm : Denotes digits m) : n = m :=
  Option.some_inj.mp ((value?_eq_some_iff.mpr hn).symm.trans (value?_eq_some_iff.mpr hm))

/-- What fits is read, and nothing else. -/
private theorem bounded?_eq {bound n : ℕ} {digits : List Char} (hne : digits ≠ [])
    (h : Denotes digits n) : bounded? bound digits = (some n).filter (· < bound) := by
  obtain ⟨c, cs, rfl⟩ := List.exists_cons_of_ne_nil hne
  have hplus : c ≠ '+' := by
    rintro rfl
    exact h.not_mem rfl List.mem_cons_self
  rw [bounded?, value?_eq_some_iff.mpr h]
  · rfl
  · exact fun _ heq => hplus (List.cons.inj heq).1

end Hex

namespace Number

open Token (IsExponent IsFraction Kind)

/-- The spelling of a literal: digits, after a minus sign or not. -/
def signed (negative : Bool) (digits : String) : String :=
  if negative then "-" ++ digits else digits

/-- Hexadecimal digits behind their mark that come to more than 64 bits. -/
def Overflows (digits : String) : Prop :=
  ∃ x ds n, (x = 'x' ∨ x = 'X') ∧ digits.toList = '0' :: x :: ds ∧ Hex.Denotes ds n ∧ 2 ^ 64 ≤ n

/-- Digits that fit 64 bits come to the number they denote, and others to none. -/
private theorem hexValue_eq {ds : List Char} {n : ℕ} (hne : ds ≠ []) (h : Hex.Denotes ds n) :
    hexValue ds = if n < 2 ^ 64 then Binary64.ofRatio n 1 else Binary64.nan := by
  have hbound : 1 <<< 64 = 2 ^ 64 := by decide
  rw [hexValue, hbound, Hex.bounded?_eq hne h, Option.filter_some]
  by_cases hlt : n < 2 ^ 64
  · rw [if_pos hlt, if_pos (decide_eq_true hlt)]
  · rw [if_neg hlt, if_neg fun htrue => hlt (of_decide_eq_true htrue)]

/-- **Hexadecimal digits are no number exactly if they do not fit into 64 bits.** -/
private theorem isNaN_hexValue_iff {ds : List Char} {n : ℕ} (hne : ds ≠ []) (h : Hex.Denotes ds n) :
    (hexValue ds).isNaN = true ↔ 2 ^ 64 ≤ n := by
  rw [hexValue_eq hne h]
  split_ifs with hlt
  · exact iff_of_false (by simp [Binary64.isNaN_ofRatio]) (not_le.mpr hlt)
  · exact ⟨fun _ => not_lt.mp hlt, fun _ => rfl⟩

/-! ### Literals -/

/-- Behind the first digit of a decimal number there is no mark of hexadecimal digits. -/
private theorem not_x_of_decimal {ds fs es : List Char} (hds : ∀ d ∈ ds, d.isDigit = true)
    (hfs : IsFraction fs) (hes : IsExponent es) :
    ∀ d ∈ (ds ++ (fs ++ es)).head?, ¬ (d = 'x' ∨ d = 'X') := by
  intro d hd
  cases ds with
  | nil =>
    rcases Token.head?_of_parts hfs hes d hd with rfl | rfl | rfl <;> decide
  | cons e ds =>
    obtain rfl : e = d := by simpa using hd
    exact Token.not_x_of_isDigit (hds e List.mem_cons_self)

/-- Without a mark behind its first digit a number is read as a decimal. -/
private theorem unsignedValue_of_not_x {c : Char} {cs : List Char}
    (h : ∀ d ∈ cs.head?, ¬ (d = 'x' ∨ d = 'X')) :
    unsignedValue (c :: cs) = decimalValue (c :: cs) := by
  unfold unsignedValue
  split
  · rename_i heq
    obtain ⟨-, rfl⟩ := List.cons.inj heq
    exact absurd (.inl rfl) (h 'x' rfl)
  · rename_i heq
    obtain ⟨-, rfl⟩ := List.cons.inj heq
    exact absurd (.inr rfl) (h 'X' rfl)
  · rfl

private theorem unsignedValue_hex {x : Char} (hx : x = 'x' ∨ x = 'X') (ds : List Char) :
    unsignedValue ('0' :: x :: ds) = hexValue ds := by
  rcases hx with rfl | rfl <;> rfl

/-- The two notations of a number. -/
inductive Notation : List Char → Prop
  | decimal {c : Char} {ds fs es : List Char} (hc : c.isDigit = true)
      (hds : ∀ d ∈ ds, d.isDigit = true) (hfs : IsFraction fs) (hes : IsExponent es) :
      Notation (c :: (ds ++ (fs ++ es)))
  | hex {x : Char} {ds : List Char} (hx : x = 'x' ∨ x = 'X') (hne : ds ≠ [])
      (hds : ∀ d ∈ ds, Hex.isDigit d = true) : Notation ('0' :: x :: ds)

/-- What matches the pattern of numbers is a decimal or a hexadecimal notation. -/
theorem notation_of_matches {cs : List Char} (h : Kind.Matches .number cs) : Notation cs := by
  obtain ⟨kind, hkind⟩ : ∃ kind, kind = Kind.number := ⟨_, rfl⟩
  rw [← hkind] at h
  cases h with
  | sign he =>
    have hsign : ∀ e ∈ Token.punctuation, e.1 ≠ Kind.number := by decide
    exact absurd hkind (hsign _ he)
  | decimal hc hds hfs hes => exact .decimal hc hds hfs hes
  | hex hx hne hds => exact .hex hx hne hds
  | _ => cases hkind

/-- Every notation begins with a digit. -/
private theorem Notation.isDigit {c : Char} {cs : List Char} (h : Notation (c :: cs)) :
    c.isDigit = true := by
  cases h with
  | decimal hc _ _ _ => exact hc
  | hex _ _ _ => decide

/-- What matches the pattern of numbers is taken as a number as a whole. -/
theorem isNumber_of_matches {digits : String} (h : Kind.Matches .number digits.toList) :
    Token.IsNumber .number digits := by
  obtain ⟨c, cs, hcs⟩ := List.exists_cons_of_ne_nil h.ne_nil
  rw [hcs] at h
  have hc := (notation_of_matches h).isDigit
  have hreaches := Token.reaches_pieceAt h []
  obtain ⟨hfirst, hmore⟩ := Token.pieceAt_isPrefix c cs
  rw [List.append_nil] at hreaches
  have hle : cs.length ≤ (Token.pieceAt c cs).more.length := Nat.le_of_succ_le_succ hreaches.le
  have hall := hmore.eq_of_length_le hle
  have hkind := hreaches.kind (congrArg (·.length + 1) hall.symm)
  refine ⟨c, cs, hcs, hc, ?_⟩
  rw [← Token.pieceAt_of_isDigit hc]
  exact Token.Piece.mk.injEq .. ▸ ⟨hkind, hfirst, hall⟩

/-- Of the notations those that overflow give no number, and no others do. -/
private theorem isNaN_unsignedValue_iff {digits : String} (h : Notation digits.toList) :
    (unsignedValue digits.toList).isNaN = true ↔ Overflows digits := by
  obtain ⟨cs, hcs⟩ : ∃ cs, digits.toList = cs := ⟨_, rfl⟩
  rw [Overflows, hcs]
  rw [hcs] at h
  cases h with
  | decimal hc hds hfs hes =>
    have hx := not_x_of_decimal hds hfs hes
    rw [unsignedValue_of_not_x hx, decimalValue, Binary64.isNaN_ofDecimal]
    refine iff_of_false Bool.false_ne_true ?_
    rintro ⟨x, _, _, hmark, heq, -⟩
    rw [(List.cons.inj heq).2] at hx
    exact hx x rfl hmark
  | @hex x ds hmark hne hds =>
    obtain ⟨n, hn⟩ := Hex.exists_denotes hds
    rw [unsignedValue_hex hmark, isNaN_hexValue_iff hne hn]
    refine ⟨fun hle => ⟨x, ds, n, hmark, rfl, hn, hle⟩, ?_⟩
    rintro ⟨_, _, m, -, heq, hm, hle⟩
    obtain ⟨rfl, rfl⟩ := List.cons.inj (List.cons.inj heq).2
    rwa [hn.unique hm]

/-- The sign of a literal is that of its value. -/
private theorem value_signed {negative : Bool} {digits : String} (h : Notation digits.toList) :
    value (signed negative digits) =
      if negative then (unsignedValue digits.toList).negate else unsignedValue digits.toList := by
  cases negative with
  | true =>
    have hchars : (signed true digits).toList = '-' :: digits.toList := by
      rw [signed, if_pos rfl, String.toList_append]
      rfl
    rw [value, hchars]
    rfl
  | false =>
    have hchars : (signed false digits).toList = digits.toList := rfl
    rw [value, hchars]
    split
    · rename_i heq
      rw [heq] at h
      exact absurd h.isDigit (by decide)
    · rfl

/-- **Which literals have no value**: those of hexadecimal digits that come to more than 64 bits,
with a minus sign or without one. -/
theorem isNaN_value_iff (negative : Bool) {digits : String} (h : Notation digits.toList) :
    (value (signed negative digits)).isNaN = true ↔ Overflows digits := by
  rw [value_signed h, ← isNaN_unsignedValue_iff h]
  cases negative with
  | true => rw [if_pos rfl, Binary64.isNaN_negate]
  | false => rfl

end Number

end Reifier
