import Mathlib.Data.List.DropRight
import Mathlib.Tactic
import Reifier.Name

/-!
# What identifiers are made of

The characters of an identifier made from a text can all stand in an identifier, and so can those of
the base of generated names (`isPart_of_mem_generatedBase`). So an underscore, such a base and a
number always form an identifier (`exists_generated_eq`), whatever the text was. An identifier is
made from itself (`toIdentifier_eq_self_iff`), and the base of a generated name is the one that it
has been generated from (`generated_stable`).
-/

namespace Reifier.Name

/-! ### Letters and digits -/

/-- The letters of ASCII by their code points. -/
theorem isAlpha_iff {c : Char} : c.isAlpha = true ↔
    65 ≤ c.toNat ∧ c.toNat ≤ 90 ∨ 97 ≤ c.toNat ∧ c.toNat ≤ 122 := by
  have hranges : c.isAlpha = (decide (65 ≤ c.toNat ∧ c.toNat ≤ 90) ||
      decide (97 ≤ c.toNat) && decide (c.toNat ≤ 122)) := rfl
  simp only [hranges, Bool.or_eq_true, Bool.and_eq_true, decide_eq_true_eq]

/-- The digits of ASCII by their code points. -/
theorem isDigit_iff {c : Char} : c.isDigit = true ↔ 48 ≤ c.toNat ∧ c.toNat ≤ 57 := by
  have hrange : c.isDigit = (decide (48 ≤ c.toNat) && decide (c.toNat ≤ 57)) := rfl
  simp only [hrange, Bool.and_eq_true, decide_eq_true_eq]

theorem isPart_of_isAlpha {c : Char} (h : c.isAlpha = true) : isPart c = true := by
  have hdef : c.isAlphanum = (c.isAlpha || c.isDigit) := rfl
  rw [isPart, hdef, h, Bool.true_or, Bool.true_or, Bool.true_or]

theorem isPart_of_isDigit {c : Char} (h : c.isDigit = true) : isPart c = true := by
  have hdef : c.isAlphanum = (c.isAlpha || c.isDigit) := rfl
  rw [isPart, hdef, h, Bool.or_true, Bool.true_or, Bool.true_or]

/-- What begins a name may also stand inside one. -/
theorem isPart_of_isStart {c : Char} (h : isStart c = true) : isPart c = true := by
  have hdef : c.isAlphanum = (c.isAlpha || c.isDigit) := rfl
  simp only [isStart, Bool.or_eq_true] at h
  simp only [isPart, hdef, Bool.or_eq_true]
  tauto

/-- Identifiers are made of ASCII characters. -/
theorem toNat_lt_of_isPart {c : Char} (h : isPart c = true) : c.toNat < 128 := by
  have hdef : c.isAlphanum = (c.isAlpha || c.isDigit) := rfl
  simp only [isPart, hdef, Bool.or_eq_true, decide_eq_true_eq, isAlpha_iff, isDigit_iff] at h
  obtain ((hletter | hdigit) | rfl) | rfl := h
  · omega
  · omega
  · decide
  · decide

/-- A capital letter stands where the small one did. -/
private theorem isPart_toUpper {c : Char} (h : isPart c = true) : isPart c.toUpper = true := by
  unfold Char.toUpper
  split
  · rename_i hsmall
    have hlow : 97 ≤ c.toNat := hsmall.1
    have hhigh : c.toNat ≤ 122 := hsmall.2
    refine isPart_of_isAlpha (isAlpha_iff.mpr (.inl ?_))
    have hsub : (c.val + ('A'.val - 'a'.val)).toNat = c.toNat - 32 := by
      have hc : c.val.toNat = c.toNat := rfl
      have hdistance : ('A'.val - 'a'.val).toNat = 2 ^ 32 - 32 := rfl
      rw [UInt32.toNat_add, hdistance, hc]
      omega
    change 65 ≤ (c.val + ('A'.val - 'a'.val)).toNat ∧ (c.val + ('A'.val - 'a'.val)).toNat ≤ 90
    omega
  · exact h

/-! ### Identifiers made from texts -/

/-- Camel case drops every character that is no part of a name. -/
private theorem isPart_of_mem_camelCase {c : Char} {afterGap : Bool} {cs : List Char}
    (h : c ∈ camelCase afterGap cs) : isPart c = true := by
  induction cs generalizing afterGap with
  | nil => cases h
  | cons d cs ih =>
    unfold camelCase at h
    split_ifs at h with hpart hgap
    · rcases List.mem_cons.mp h with rfl | h
      · exact isPart_toUpper hpart
      · exact ih h
    · rcases List.mem_cons.mp h with rfl | h
      · exact hpart
      · exact ih h
    · exact ih h

/-- The characters of an identifier made from a text are parts of names. -/
private theorem isPart_of_mem_toIdentifier {c : Char} {cs : List Char}
    (h : c ∈ toIdentifierChars cs) : isPart c = true := by
  unfold toIdentifierChars at h
  split at h
  · obtain rfl := List.mem_singleton.mp h
    rfl
  · exact isPart_of_mem_camelCase h

/-- An identifier begins with the start of a name and goes on with parts of names. -/
private theorem isIdentifierChars_cons {c : Char} {cs : List Char} :
    isIdentifierChars (c :: cs) = true ↔ isStart c = true ∧ ∀ d ∈ cs, isPart d = true := by
  rw [isIdentifierChars, Bool.and_eq_true, List.all_eq_true]

/-- The identifier made from a text is one, also where nothing in the text can begin one. -/
private theorem isIdentifierChars_toIdentifierChars (cs : List Char) :
    isIdentifierChars (toIdentifierChars cs) = true := by
  unfold toIdentifierChars
  cases hkept : cs.dropWhile (!isStart ·) with
  | nil => rfl
  | cons c kept =>
    -- No gap has been left out before the first character that is kept, so it stays.
    have hc : isStart c = true := by
      have hfirst := List.head?_dropWhile_not (!isStart ·) cs
      rw [hkept] at hfirst
      simpa using hfirst
    have hcamel : camelCase false (c :: kept) = c :: camelCase false kept := by
      rw [camelCase, if_pos (isPart_of_isStart hc), if_neg Bool.false_ne_true]
    rw [hcamel]
    exact isIdentifierChars_cons.mpr ⟨hc, fun d hd => isPart_of_mem_camelCase hd⟩

/-- Camel case leaves a text alone that has no gaps. -/
private theorem camelCase_of_isPart {cs : List Char} (h : ∀ c ∈ cs, isPart c = true) :
    camelCase false cs = cs := by
  induction cs with
  | nil => rfl
  | cons c cs ih =>
    obtain ⟨hc, hcs⟩ := List.forall_mem_cons.mp h
    rw [camelCase, if_pos hc, if_neg Bool.false_ne_true, ih hcs]

/-- An identifier is turned into itself. -/
private theorem toIdentifierChars_of_isIdentifierChars {cs : List Char}
    (h : isIdentifierChars cs = true) : toIdentifierChars cs = cs := by
  cases cs with
  | nil => cases h
  | cons c cs =>
    obtain ⟨hc, hcs⟩ := isIdentifierChars_cons.mp h
    have hkept : (c :: cs).dropWhile (!isStart ·) = c :: cs :=
      List.dropWhile_cons_of_neg (by simp [hc])
    have hcamel : camelCase false (c :: cs) = c :: cs :=
      camelCase_of_isPart (List.forall_mem_cons.mpr ⟨isPart_of_isStart hc, hcs⟩)
    rw [toIdentifierChars, hkept, hcamel]

/-- **Every text is turned into an identifier.** -/
theorem isIdentifier_toIdentifier (s : String) : isIdentifier (toIdentifier s) = true := by
  rw [isIdentifier, toIdentifier, String.toList_ofList]
  exact isIdentifierChars_toIdentifierChars s.toList

/-- Identifiers are the texts that stay as they are. -/
theorem toIdentifier_eq_self_iff {s : String} : toIdentifier s = s ↔ isIdentifier s = true := by
  constructor
  · intro h
    rw [← h]
    exact isIdentifier_toIdentifier s
  · intro h
    rw [toIdentifier, toIdentifierChars_of_isIdentifierChars h, String.ofList_toList]

/-! ### Bases of generated names -/

/-- Dropping a tail is what the library calls `List.rdropWhile`. -/
private theorem dropTail_eq_rdropWhile (p : Char → Bool) (cs : List Char) :
    dropTail p cs = cs.rdropWhile p := rfl

private theorem dropTail_isPrefix (p : Char → Bool) (cs : List Char) : dropTail p cs <+: cs :=
  List.rdropWhile_prefix p cs

/-- What is left of an identifier is made of the same characters. -/
theorem isPart_of_mem_generatedBase {c : Char} {cs : List Char} (h : c ∈ generatedBaseChars cs) :
    isPart c = true := by
  have hcases : generatedBaseChars cs = ['r', 'e', 'f'] ∨ generatedBaseChars cs =
      dropTail Char.isDigit ((toIdentifierChars cs).dropWhile (· = '_')) := by
    unfold generatedBaseChars
    split
    · exact .inl rfl
    · exact .inr rfl
  rcases hcases with hbase | hbase
  · have hfallback : ['r', 'e', 'f'].all isPart = true := by decide
    exact List.all_eq_true.mp hfallback c (hbase ▸ h)
  · rw [hbase] at h
    have hsublist := (dropTail_isPrefix Char.isDigit _).sublist.trans
      (List.dropWhile_sublist (· = '_') (l := toIdentifierChars cs))
    exact isPart_of_mem_toIdentifier (hsublist.subset h)

/-- What is left after dropping a tail does not end in a character of the tail. -/
private theorem getLast?_dropTail (p : Char → Bool) (cs : List Char) :
    ∀ c ∈ (dropTail p cs).getLast?, p c = false := by
  intro c hc
  obtain ⟨hne, hlast⟩ := List.mem_getLast?_eq_getLast hc
  rw [hlast]
  exact Bool.eq_false_iff.mpr (List.rdropWhile_last_not p cs hne)

/-- A tail is dropped as a whole, and nothing in front of it. -/
private theorem dropTail_append {p : Char → Bool} {cs tail : List Char}
    (hlast : ∀ c ∈ cs.getLast?, p c = false) (htail : ∀ c ∈ tail, p c = true) :
    dropTail p (cs ++ tail) = cs := by
  rw [dropTail_eq_rdropWhile]
  induction tail using List.reverseRecOn with
  | nil =>
    rw [List.append_nil, List.rdropWhile_eq_self_iff]
    intro hne
    exact Bool.eq_false_iff.mp (hlast _ (List.getLast?_eq_some_getLast hne))
  | append_singleton tail d ih =>
    obtain ⟨htail, hd⟩ := List.forall_mem_append.mp htail
    rw [← List.append_assoc, List.rdropWhile_concat_pos p _ d (hd d List.mem_cons_self), ih htail]

/-- What the base of generated names is like: where it begins and where it ends can be told when an
underscore stands in front of it and a number behind it. -/
structure IsBase (cs : List Char) : Prop where
  ne_nil : cs ≠ []
  isPart : ∀ c ∈ cs, isPart c = true
  first : ∀ c ∈ cs.head?, c ≠ '_'
  last : ∀ c ∈ cs.getLast?, c.isDigit = false

/-- The base of generated names is a base in this sense, also where nothing is left of the text but
underscores and digits. -/
theorem isBase_generatedBaseChars (cs : List Char) : IsBase (generatedBaseChars cs) := by
  have hparts : ∀ c ∈ generatedBaseChars cs, isPart c = true := fun c hc =>
    isPart_of_mem_generatedBase hc
  unfold generatedBaseChars at hparts ⊢
  split at hparts
  · have hfirst : ∀ c ∈ ['r', 'e', 'f'].head?, c ≠ '_' := by
      rintro _ ⟨⟩
      decide
    have hlast : ∀ c ∈ ['r', 'e', 'f'].getLast?, c.isDigit = false := by
      rintro _ ⟨⟩
      decide
    exact ⟨List.cons_ne_nil _ _, hparts, hfirst, hlast⟩
  · rename_i hne
    refine ⟨hne, hparts, fun c hc => ?_, getLast?_dropTail Char.isDigit _⟩
    -- Taking digits away at the end leaves the first character in place.
    obtain ⟨digits, hdigits⟩ :=
      dropTail_isPrefix Char.isDigit ((toIdentifierChars cs).dropWhile (· = '_'))
    have hfirst := List.head?_dropWhile_not (· = '_') (toIdentifierChars cs)
    rw [← hdigits, List.head?_append_of_ne_nil _ hne, Option.mem_def.mp hc] at hfirst
    simpa using hfirst

/-- A base is found again between an underscore and digits. -/
private theorem generatedBaseChars_underscore_cons {base digits : List Char} (hbase : IsBase base)
    (hdigits : ∀ d ∈ digits, d.isDigit = true) :
    generatedBaseChars ('_' :: (base ++ digits)) = base := by
  have hparts : ∀ c ∈ base ++ digits, isPart c = true :=
    List.forall_mem_append.mpr ⟨hbase.isPart, fun d hd => isPart_of_isDigit (hdigits d hd)⟩
  have hname : toIdentifierChars ('_' :: (base ++ digits)) = '_' :: (base ++ digits) :=
    toIdentifierChars_of_isIdentifierChars (isIdentifierChars_cons.mpr ⟨by decide, hparts⟩)
  obtain ⟨c, more, rfl⟩ := List.exists_cons_of_ne_nil hbase.ne_nil
  have hfront : ('_' :: (c :: more ++ digits)).dropWhile (· = '_') = c :: more ++ digits := by
    rw [List.dropWhile_cons_of_pos (by decide), List.cons_append,
      List.dropWhile_cons_of_neg (by simpa using hbase.first c rfl)]
  rw [generatedBaseChars, hname, hfront, dropTail_append hbase.last hdigits]

/-! ### Generated names -/

theorem isDigit_of_mem_toString {c : Char} {n : ℕ} (h : c ∈ (toString n).toList) :
    c.isDigit = true := by
  have hdigits : (toString n).toList = Nat.toDigits 10 n := String.toList_ofList
  rw [hdigits] at h
  exact Nat.isDigit_of_mem_toDigits (by decide) (by decide) h

/-- The characters of a generated name: an underscore, the base, and the digits of the counter. -/
theorem toList_generated (hint more : String) :
    ("_" ++ generatedBase hint ++ more).toList =
      '_' :: (generatedBaseChars hint.toList ++ more.toList) := by
  have hbase : (generatedBase hint).toList = generatedBaseChars hint.toList :=
    String.toList_ofList
  rw [String.toList_append, String.toList_append, hbase, List.append_assoc]
  exact List.singleton_append

/-- An underscore, the base of generated names and characters that can stand in an identifier form
an identifier. -/
theorem exists_generated_eq (hint : String) {more : String}
    (hmore : ∀ c ∈ more.toList, isPart c = true) :
    ∃ cs, ("_" ++ generatedBase hint ++ more).toList = '_' :: cs ∧
      ∀ c ∈ cs, isPart c = true := by
  have hbase : ∀ c ∈ generatedBaseChars hint.toList, isPart c = true := fun c hc =>
    isPart_of_mem_generatedBase hc
  exact ⟨_, toList_generated hint more, List.forall_mem_append.mpr ⟨hbase, hmore⟩⟩

/-- **A generated name is an identifier, and its base is the one that it has been generated
from.** -/
theorem generated_stable (hint : String) {digits : String}
    (hdigits : ∀ d ∈ digits.toList, d.isDigit = true) :
    isIdentifier ("_" ++ generatedBase hint ++ digits) = true ∧
      generatedBase ("_" ++ generatedBase hint ++ digits) = generatedBase hint := by
  constructor
  · obtain ⟨cs, hchars, hcs⟩ :=
      exists_generated_eq hint fun d hd => isPart_of_isDigit (hdigits d hd)
    rw [isIdentifier, hchars]
    exact isIdentifierChars_cons.mpr ⟨by decide, hcs⟩
  · have hfound :=
      generatedBaseChars_underscore_cons (isBase_generatedBaseChars hint.toList) hdigits
    rw [generatedBase, toList_generated, hfound, generatedBase]

end Reifier.Name
