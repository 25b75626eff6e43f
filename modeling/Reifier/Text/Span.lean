/-!
# Spans and byte offsets

A place in a text is a range of byte offsets into its UTF-8 form, so that offsets read off here
agree with those of any tool that works on bytes. Texts themselves are handled as lists of
characters: an offset is only ever the sum of the sizes of the characters before it.

Offsets are natural numbers and nothing overflows here. A program that keeps them in 32 bits
agrees with this for sources shorter than 2^32 bytes, where every offset and every length fits;
sources are taken to be that short.

`slice?` reads a span back from a text and answers nothing when an end of the span lies outside
the text or inside a character. Main statement: the span that a part of a text takes up reads back
as that part (`slice?_append`).
-/

namespace Reifier

/-- A range of byte offsets, from `start` up to and without `stop`. -/
structure Span where
  start : Nat
  stop : Nat
deriving DecidableEq, Inhabited

namespace Span

/-- The empty range at an offset. -/
def point (offset : Nat) : Span := ⟨offset, offset⟩

/-- Whether `inner` lies within `outer`, ends included. -/
def encloses (outer inner : Span) : Bool :=
  outer.start ≤ inner.start && inner.stop ≤ outer.stop

/-- The least range that holds both. -/
def cover (a b : Span) : Span := ⟨min a.start b.start, max a.stop b.stop⟩

end Span

namespace Text

/-- The number of bytes of the UTF-8 form. -/
def byteLength : List Char → Nat
  | [] => 0
  | c :: cs => c.utf8Size + byteLength cs

/-- What follows the first `n` bytes, if a character ends there. -/
def dropBytes? : List Char → Nat → Option (List Char)
  | cs, 0 => some cs
  | [], _ + 1 => none
  | c :: cs, n + 1 => if c.utf8Size ≤ n + 1 then dropBytes? cs (n + 1 - c.utf8Size) else none

/-- The first `n` bytes, if a character ends there. -/
def takeBytes? : List Char → Nat → Option (List Char)
  | _, 0 => some []
  | [], _ + 1 => none
  | c :: cs, n + 1 =>
    if c.utf8Size ≤ n + 1 then (takeBytes? cs (n + 1 - c.utf8Size)).map (c :: ·) else none

/-- The characters of a span, if both its ends are ends of characters of the text. -/
def slice? (cs : List Char) (span : Span) : Option (List Char) :=
  if span.start ≤ span.stop then
    (dropBytes? cs span.start).bind (takeBytes? · (span.stop - span.start))
  else none

@[simp] theorem byteLength_nil : byteLength [] = 0 := rfl

@[simp] theorem byteLength_cons (c : Char) (cs : List Char) :
    byteLength (c :: cs) = c.utf8Size + byteLength cs := rfl

/-- Sizes add up. -/
@[simp] theorem byteLength_append (a b : List Char) :
    byteLength (a ++ b) = byteLength a + byteLength b := by
  induction a with
  | nil => simp
  | cons c cs ih => simp [ih, Nat.add_assoc]

/-- Cutting off as many bytes as the front of a text has leaves the rest. -/
@[simp] theorem dropBytes?_append (a b : List Char) :
    dropBytes? (a ++ b) (byteLength a) = some b := by
  induction a with
  | nil => cases b <;> rfl
  | cons c cs ih =>
    obtain ⟨n, hn⟩ := Nat.exists_eq_add_one.2 c.utf8Size_pos
    have h : byteLength (c :: cs) = n + byteLength cs + 1 := by simp; omega
    rw [h, List.cons_append, dropBytes?, if_pos (by omega)]
    rw [show n + byteLength cs + 1 - c.utf8Size = byteLength cs by omega, ih]

/-- Taking as many bytes as the front of a text has gives the front. -/
@[simp] theorem takeBytes?_append (a b : List Char) :
    takeBytes? (a ++ b) (byteLength a) = some a := by
  induction a with
  | nil => cases b <;> rfl
  | cons c cs ih =>
    obtain ⟨n, hn⟩ := Nat.exists_eq_add_one.2 c.utf8Size_pos
    have h : byteLength (c :: cs) = n + byteLength cs + 1 := by simp; omega
    rw [h, List.cons_append, takeBytes?, if_pos (by omega)]
    rw [show n + byteLength cs + 1 - c.utf8Size = byteLength cs by omega, ih, Option.map_some]

/-- A span whose ends are ends of characters holds what stands between them. -/
theorem slice?_append (a b c : List Char) :
    slice? (a ++ b ++ c) ⟨byteLength a, byteLength a + byteLength b⟩ = some b := by
  simp [slice?, List.append_assoc]

end Text

end Reifier
