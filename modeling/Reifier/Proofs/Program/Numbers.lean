import Reifier.Proofs.Number
import Reifier.Proofs.Program.Alias
import Reifier.Proofs.Program.Inside

/-!
# Number literals

Each number token, with a minus sign in front or without one, is read as a literal with the same
spelling, and there are no other literals (`exists_token_of_holds`). A literal denotes a number
unless its digits are hexadecimal and come to more than 64 bits (`number_literal`): `0x` and
seventeen digits `F` are read without complaint, and are no number (`not_forall_isNaN_eq_false`).
-/

namespace Reifier.Program

open Number (Overflows signed)
open Reifier.Parser (Reads)
open Reifier.TypeExpr (numberWords primaryShape)

/-! ### Literals of tokens -/

private theorem isNumberLiteral_signed (negative : Bool) {digits : String}
    (h : Token.IsNumber .number digits) : IsNumberLiteral (signed negative digits) := by
  cases negative with
  | true => exact .inr ⟨digits, rfl, h⟩
  | false => exact .inl h

/-- A minus sign is put close to the digits. -/
private theorem render_number {spelling : String} (h : IsNumberLiteral spelling) (span : Span) :
    TypeExpr.render ⟨.number spelling, span⟩ = spelling := by
  have hwords : TypeExpr.render ⟨.number spelling, span⟩ = Token.write (numberWords spelling) := rfl
  rw [hwords]
  obtain hnumber | ⟨digits, rfl, -⟩ := h
  · rw [TypeExpr.numberWords_of_isNumber hnumber]
    exact String.append_empty
  · rw [TypeExpr.numberWords_minus]
    refine String.toList_injective ?_
    rw [Token.toList_write, Token.writeAfter, Token.writeAfter, Token.writeAfter,
      String.toList_append, List.append_nil]
    rfl

/-- A form that differs from a number at most in places is the number. -/
private theorem shape_eq_number {t : TypeExpr} {spelling : String} {span : Span}
    (h : t.unplaced = TypeExpr.unplaced ⟨.number spelling, span⟩) : t.shape = .number spelling := by
  obtain ⟨shape, span'⟩ := t
  have hshape : TypeExpr.unplacedShape shape = .number spelling := (TypeExpr.same_iff.mp h :)
  cases shape with
  | generic ref =>
    rw [TypeExpr.unplacedShape_generic] at hshape
    cases hshape
  | _ => first | exact hshape | cases hshape

/-- **Each number token is read as a literal that keeps its spelling**, the sign included, by the
production for primary forms whatever stands behind it, so that a declaration is read with it. It
denotes a number unless it is made of hexadecimal digits that come to more than 64 bits. -/
theorem number_literal {source : String} {t : Token} (ht : t ∈ Token.scan source)
    (hkind : t.kind = .number) (negative : Bool) :
    (∀ type rest, Reads (primaryShape type) (numberWords (signed negative t.text)) rest
      (· = .number (signed negative t.text))) ∧
    (∃ reading decl, parse none ("type T = " ++ signed negative t.text ++ ";") = .ok reading ∧
      reading.diagnostics = [] ∧ reading.program.body = [⟨[], .declaration (.typeAlias decl)⟩] ∧
      decl.right.shape = .number (signed negative t.text)) ∧
    ((Number.value (signed negative t.text)).isNaN = true ↔ Overflows t.text) := by
  have hmatches := Token.matches_of_mem_scan ht (hkind ▸ Token.Kind.noConfusion)
  rw [hkind] at hmatches
  have hliteral := isNumberLiteral_signed negative (Number.isNumber_of_matches hmatches)
  refine ⟨fun type rest => TypeExpr.reads_number type hliteral rest, ?_,
    Number.isNaN_value_iff negative (Number.notation_of_matches hmatches)⟩
  have hwritable : TypeExpr.Writable ⟨.number (signed negative t.text), .point 0⟩ :=
    .mk hliteral (List.forall_mem_nil _)
  have hname : Name.isIdentifier "T" = true := by decide
  obtain ⟨reading, hparse, ⟨decl, hbody, -, -, hright, -⟩, -, hdiagnostics⟩ :=
    parse_writable hname hwritable
  rw [render_number hliteral] at hparse
  exact ⟨reading, decl, hparse, hdiagnostics, hbody, shape_eq_number hright⟩

/-- A literal of sixteen hexadecimal digits behind a minus sign is read and is a number: it needs no
more than 64 bits. -/
theorem number_literal_hex :
    ∃ t ∈ Token.scan "0xFFFFFFFFFFFFFFFF", t.kind = .number ∧
      (∃ reading decl, parse none "type T = -0xFFFFFFFFFFFFFFFF;" = .ok reading ∧
        reading.diagnostics = [] ∧ reading.program.body = [⟨[], .declaration (.typeAlias decl)⟩] ∧
        decl.right.shape = .number "-0xFFFFFFFFFFFFFFFF") ∧
      (Number.value "-0xFFFFFFFFFFFFFFFF").isNaN = false ∧ ¬ Overflows t.text := by
  have ht : ⟨.number, "0xFFFFFFFFFFFFFFFF", ⟨0, 18⟩⟩ ∈ Token.scan "0xFFFFFFFFFFFFFFFF" := by
    decide +kernel
  have hvalue : (Number.value "-0xFFFFFFFFFFFFFFFF").isNaN = false := by decide +kernel
  obtain ⟨-, hread, hnan⟩ := number_literal ht rfl true
  refine ⟨_, ht, rfl, hread, hvalue, fun hover => ?_⟩
  exact Bool.false_ne_true (hvalue.symm.trans (hnan.mpr hover))

/-- Not every literal denotes a number: one more hexadecimal digit is too much. -/
theorem not_forall_isNaN_eq_false :
    ¬ ∀ (source : String) (t : Token), t ∈ Token.scan source → t.kind = .number →
      ∀ negative, (Number.value (signed negative t.text)).isNaN = false := by
  intro h
  have ht : ⟨.number, "0xFFFFFFFFFFFFFFFFF", ⟨0, 19⟩⟩ ∈ Token.scan "0xFFFFFFFFFFFFFFFFF" := by
    decide +kernel
  have hvalue : (Number.value (signed false "0xFFFFFFFFFFFFFFFFF")).isNaN = true := by
    decide +kernel
  exact Bool.false_ne_true ((h _ _ ht rfl false).symm.trans hvalue)

/-- **There are no other literals**: what a program holds as a number is spelled by a number token
of its source, with a minus sign in front or without one. -/
theorem exists_token_of_holds {limit : Option ℕ} {source : String} {reading : Reading}
    {spelling : String} {span : Span} (h : parse limit source = .ok reading)
    (hholds : reading.program.Holds ⟨.number spelling, span⟩) :
    ∃ t ∈ Token.scan source, ∃ negative, t.kind = .number ∧ spelling = signed negative t.text := by
  obtain ⟨t, ht, hkind, hspelling⟩ := (hholds.ofSource h).form
  refine ⟨t, ht, ?_⟩
  rcases hspelling with rfl | rfl
  · exact ⟨false, hkind, rfl⟩
  · exact ⟨true, hkind, rfl⟩

end Reifier.Program
