import Reifier.Proofs.Token.Plain

/-!
# Printed expressions are plain

If the names and numbers in an expression are plain then so is its printed form, at every level of
indentation (`plain_render`): what is put around them are signs, words and blank space, and strings
are written in quotes. A constant with such a value is printed as a text that ends in a semicolon,
also when it is indented (`Const.getLast?_pieces_render`), and indenting it changes no word.
-/

namespace Reifier

open Token (Spelled)

namespace Expr

mutual

/-- Every name and number in an expression is spelled in plain characters. -/
def Plain : Expr → Prop
  | ident name => Spelled name
  | member owner property => owner.Plain ∧ Spelled property
  | call callee args => callee.Plain ∧ AllPlain args
  | array items => AllPlain items
  | object entries => AllEntriesPlain entries
  | string _ => True
  | number spelling => Spelled spelling
  | bool _ => True
  | function param body => (∀ name ∈ param, Spelled name) ∧ body.Plain
  | strictEq left right => left.Plain ∧ right.Plain
  | or left right => left.Plain ∧ right.Plain

/-- Every name and number in some expressions is spelled in plain characters. -/
def AllPlain : List Expr → Prop
  | [] => True
  | e :: es => e.Plain ∧ AllPlain es

/-- Every name and number in the values of some entries is spelled in plain characters. -/
def AllEntriesPlain : List (String × Expr) → Prop
  | [] => True
  | (_, e) :: entries => e.Plain ∧ AllEntriesPlain entries

end

theorem allPlain_iff {es : List Expr} : AllPlain es ↔ ∀ e ∈ es, e.Plain := by
  induction es with
  | nil => exact iff_of_true trivial (List.forall_mem_nil _)
  | cons e es ih => rw [AllPlain, ih, List.forall_mem_cons]

theorem allEntriesPlain_iff {entries : List (String × Expr)} :
    AllEntriesPlain entries ↔ ∀ p ∈ entries, p.2.Plain := by
  induction entries with
  | nil => exact iff_of_true trivial (List.forall_mem_nil _)
  | cons p entries ih => rw [AllEntriesPlain, ih, List.forall_mem_cons]

/-! ### Printing -/

/-- Indentation is spelled in blanks. -/
private theorem spelled_indentation (level : ℕ) : Spelled (indentation level) := by
  intro c hc
  rw [indentation, String.toList_ofList] at hc
  rw [List.eq_of_mem_replicate hc]
  decide

private theorem plain_quote (s : String) : Token.Plain (Text.quote s).toList := by
  rw [Text.quote, String.toList_ofList]
  exact .encode _

/-- A key is an identifier or a quoted string. -/
private theorem plain_renderKey (key : String) : Token.Plain (renderKey key).toList := by
  unfold renderKey
  split_ifs with h
  · exact (Token.spelled_of_isIdentifier h).toPlain
  · exact plain_quote key

mutual

/-- **The printed form of an expression is plain.** -/
theorem plain_render (level : ℕ) :
    (e : Expr) → e.Plain → Token.Plain (e.render level).toList
  | ident _, h => Spelled.toPlain h
  | member owner _, h => ((plain_render level owner h.1).spell (by decide)).spell h.2
  | call callee args, h =>
    (((plain_render level callee h.1).spell (by decide)).join
      (plain_renderList level args h.2)).spell (by decide)
  | array items, h =>
    (Token.Plain.opened (by decide) (plain_renderList level items h)).spell (by decide)
  | object [], _ => Spelled.toPlain (s := "\x7b\x7d") (by decide)
  | object (entry :: entries), h =>
    ((((Token.Plain.opened (by decide) (plain_renderEntries (level + 1) (entry :: entries) h)).spell
      (by decide)).spell (spelled_indentation level)).spell (by decide))
  | string value, _ => plain_quote value
  | number _, h => Spelled.toPlain h
  | bool true, _ => Spelled.toPlain (s := "true") (by decide)
  | bool false, _ => Spelled.toPlain (s := "false") (by decide)
  | function param body, h => by
    -- The text of a missing parameter is empty.
    have hparam : Spelled (param.getD "") := by
      cases param with
      | none => decide
      | some name => exact h.1 name rfl
    have hopen : Token.Plain
        ("function (" ++ param.getD "" ++ ") \x7b\n" ++ indentation (level + 1)).toList :=
      ((Token.Plain.opened (by decide) hparam.toPlain).spell (by decide)).spell
        (spelled_indentation (level + 1))
    exact ((((hopen.spell (by decide)).join (plain_render (level + 1) body h.2)).spell
      (by decide)).spell (spelled_indentation level)).spell (by decide)
  | strictEq left right, h =>
    ((plain_render level left h.1).spell (by decide)).join (plain_render level right h.2)
  | or left right, h =>
    ((plain_render level left h.1).spell (by decide)).join (plain_render level right h.2)

/-- Lists of plain expressions are printed as plain text. -/
private theorem plain_renderList (level : ℕ) :
    (es : List Expr) → AllPlain es → Token.Plain (renderList level es).toList
  | [], _ => .nil
  | [e], h => plain_render level e h.1
  | e :: d :: es, h =>
    ((plain_render level e h.1).spell (by decide)).join (plain_renderList level (d :: es) h.2)

/-- Entries with plain values are printed as plain text. -/
private theorem plain_renderEntries (level : ℕ) :
    (entries : List (String × Expr)) → AllEntriesPlain entries →
      Token.Plain (renderEntries level entries).toList
  | [], _ => .nil
  | [(key, e)], h =>
    (((spelled_indentation level).toPlain.join (plain_renderKey key)).spell (by decide)).join
      (plain_render level e h.1)
  | (key, e) :: entry :: entries, h =>
    (((((spelled_indentation level).toPlain.join (plain_renderKey key)).spell (by decide)).join
      (plain_render level e h.1)).spell (by decide)).join
        (plain_renderEntries level (entry :: entries) h.2)

end

end Expr

/-! ### Constants -/

namespace Const

variable {decl : Const}

/-- A constant is printed as its first word, plain text and a semicolon. -/
private theorem exists_render_eq (hid : Spelled decl.id.name) (hinit : decl.init.Plain) :
    ∃ cs, decl.render.toList = "const ".toList ++ (cs ++ [';']) ∧
      Token.Plain ("const ".toList ++ cs) := by
  have hplain : Token.Plain
      ("const " ++ decl.id.name ++ " = " ++ decl.init.render 0).toList :=
    ((Token.Plain.opened (by decide) hid.toPlain).spell (by decide)).join
      (Expr.plain_render 0 decl.init hinit)
  obtain ⟨cs, hcs⟩ : ∃ cs, ("const " ++ decl.id.name ++ " = " ++ decl.init.render 0).toList =
      "const ".toList ++ cs := by
    simp only [String.toList_append, List.append_assoc]
    exact ⟨_, rfl⟩
  refine ⟨cs, ?_, hcs ▸ hplain⟩
  rw [render, String.toList_append, hcs, List.append_assoc]
  rfl

/-- **A constant is printed as the same words, however it is indented, and ends in a semicolon.** -/
theorem reindent_render (hid : Spelled decl.id.name) (hinit : decl.init.Plain) {indent : List Char}
    (hindent : ∀ d ∈ indent, Token.isSpace d = true) :
    "const ".toList <+: reindent indent decl.render.toList ∧
      (Token.pieces (reindent indent decl.render.toList)).getLast? = some Token.semicolonPiece ∧
      Token.wordsOf (reindent indent decl.render.toList) = Token.wordsOf decl.render.toList := by
  obtain ⟨cs, hrender, hplain⟩ := exists_render_eq hid hinit
  have hsemicolon : Token.Plain [';'] := .of_forall (List.forall_mem_singleton.mpr rfl)
  refine ⟨?_, ?_, ?_⟩
  · rw [hrender, Token.reindent_append]
    exact List.prefix_append _ _
  · rw [hrender, ← List.append_assoc, Token.reindent_append]
    exact (hplain.indented hindent).getLast?_pieces
  · rw [hrender, ← List.append_assoc]
    exact (hplain.append hsemicolon).wordsOf_reindent hindent

end Const

end Reifier
