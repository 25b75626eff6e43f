import Reifier.Expr.Printer
import Reifier.Library
import Reifier.Proofs.Text.Quoted
import Reifier.Proofs.Token.Runs

/-!
# Printed combinators are unambiguous

Nothing is put into parentheses when an expression is printed, and names, numbers and truth values
are not marked as what they are: `true` may be a name or a truth value, and `a.b` one name or a
member. But in a call of the library the place of an expression says what can stand there
(`Slot`, `Fits`), and of two expressions for one place neither can be taken for the other, whatever
stands behind them (`Fits.readable`). So two expressions with the same printed form are equal.
-/

namespace Reifier

/-! ### Ends of texts -/

/-- A character that is not in a run stops it, whatever stands behind it. -/
private theorem eq_false_of_mem_head?_cons {p : Char → Bool} {c : Char} (h : p c = false)
    (cs : List Char) : ∀ d ∈ (c :: cs).head?, p d = false := by
  rintro d ⟨⟩
  exact h

/-- Two runs that are stopped by what stands behind them are the same if the texts are. -/
private theorem append_inj_of_run {p : Char → Bool} {run run' rest rest' : List Char}
    (hrun : ∀ c ∈ run, p c = true) (hrun' : ∀ c ∈ run', p c = true)
    (hrest : ∀ c ∈ rest.head?, p c = false) (hrest' : ∀ c ∈ rest'.head?, p c = false)
    (h : run ++ rest = run' ++ rest') : run = run' ∧ rest = rest' := by
  have htake := congrArg (List.takeWhile p) h
  rw [Token.takeWhile_append_eq hrest hrun, Token.takeWhile_append_eq hrest' hrun'] at htake
  subst htake
  exact ⟨rfl, List.append_cancel_left h⟩

/-- Two texts are cut alike at a character that is not in what stands behind it. -/
private theorem append_cons_inj {c : Char} {front front' back back' : List Char} (hback : c ∉ back)
    (hback' : c ∉ back') (h : front ++ c :: back = front' ++ c :: back') :
    front = front' ∧ back = back' := by
  have hreverse := congrArg List.reverse h
  rw [List.reverse_append, List.reverse_append, List.reverse_cons, List.reverse_cons,
    List.append_assoc, List.append_assoc] at hreverse
  have hstop : ∀ run : List Char, c ∉ run → ∀ d ∈ run.reverse, (d != c) = true := by
    intro run hrun d hd
    rw [bne_iff_ne]
    rintro rfl
    exact hrun (List.mem_reverse.mp hd)
  have hhead := eq_false_of_mem_head?_cons (p := (· != c)) (bne_self_eq_false c)
  obtain ⟨hruns, hrests⟩ := append_inj_of_run (hstop back hback) (hstop back' hback')
    (hhead front.reverse) (hhead front'.reverse) hreverse
  exact ⟨List.reverse_injective (List.cons.inj hrests).2, List.reverse_injective hruns⟩

private theorem Text.toList_quote (s : String) :
    (quote s).toList = '\'' :: (s.toList.flatMap Quoted.escape ++ ['\'']) := by
  rw [quote, String.toList_ofList, Quoted.encode]

/-- A string in quotes ends at the quote that closes it. -/
private theorem Text.quote_append_inj {s t : String} {rest rest' : List Char}
    (h : (quote s).toList ++ rest = (quote t).toList ++ rest') : s = t ∧ rest = rest' := by
  have hquote : ∀ (s : String) (rest : List Char), (quote s).toList ++ rest =
      '\'' :: (s.toList.flatMap Quoted.escape ++ '\'' :: rest) := fun s rest => by
    rw [toList_quote, List.cons_append, List.append_assoc]
    rfl
  rw [hquote, hquote] at h
  have htail := (List.cons.inj h).2
  have hruns := congrArg (Token.stringRun '\'') htail
  rw [Token.stringRun_flatMap_escape, Token.stringRun_flatMap_escape] at hruns
  have hbody := List.append_cancel_right (Token.Run.mk.inj hruns).1
  rw [hbody] at htail
  have hquoted : quote s = quote t := by rw [quote, quote, Quoted.encode, hbody, Quoted.encode]
  refine ⟨?_, (List.cons.inj (List.append_cancel_left htail)).2⟩
  rw [← Text.unquote_quote s, hquoted, Text.unquote_quote]

namespace Name

variable {s : String}

private theorem isPart_of_mem_toList (h : isIdentifier s = true) :
    ∀ c ∈ s.toList, isPart c = true :=
  fun _ hc => isPart_of_mem h hc

/-- An identifier is not empty. -/
private theorem exists_cons_of_isIdentifier (h : isIdentifier s = true) :
    ∃ c cs, s.toList = c :: cs ∧ isPart c = true := by
  obtain ⟨cs, hcs⟩ : ∃ cs, s.toList = cs := ⟨_, rfl⟩
  rw [isIdentifier, hcs] at h
  cases cs with
  | nil => cases h
  | cons c cs => exact ⟨c, cs, hcs, isPart_of_mem h List.mem_cons_self⟩

end Name

namespace Expr

/-! ### Printed characters -/

section Characters

variable (level : ℕ)

-- The equations of the printer that are used below, all by definition: those that Lean derives
-- from the mutual block are slow to generate, and every proof would wait for them.

private theorem render_ident (name : String) : (ident name).render level = name := rfl

private theorem render_member (owner : Expr) (property : String) :
    (member owner property).render level = owner.render level ++ "." ++ property := rfl

private theorem render_call (callee : Expr) (args : List Expr) :
    (call callee args).render level =
      callee.render level ++ "(" ++ renderList level args ++ ")" := rfl

private theorem render_array (items : List Expr) :
    (array items).render level = "[" ++ renderList level items ++ "]" := rfl

private theorem render_object_nil : (object []).render level = "\x7b\x7d" := rfl

private theorem render_object_cons (p : String × Expr) (ps : List (String × Expr)) :
    (object (p :: ps)).render level = "\x7b\n" ++ renderEntries (level + 1) (p :: ps) ++ "\n" ++
      indentation level ++ "\x7d" := rfl

private theorem render_string (value : String) :
    (string value).render level = Text.quote value := rfl

private theorem render_number (spelling : String) : (number spelling).render level = spelling := rfl

private theorem render_bool (value : Bool) :
    (bool value).render level = if value then "true" else "false" := rfl

private theorem render_function (param : Option String) (body : Expr) :
    (function param body).render level =
      "function (" ++ param.getD "" ++ ") \x7b\n" ++ indentation (level + 1) ++ "return " ++
        body.render (level + 1) ++ ";\n" ++ indentation level ++ "\x7d" := rfl

private theorem render_strictEq (left right : Expr) :
    (strictEq left right).render level = left.render level ++ " === " ++ right.render level := rfl

private theorem renderList_singleton (e : Expr) : renderList level [e] = e.render level := rfl

private theorem renderList_cons_cons (e d : Expr) (es : List Expr) :
    renderList level (e :: d :: es) = e.render level ++ ", " ++ renderList level (d :: es) := rfl

private theorem renderEntries_singleton (key : String) (e : Expr) :
    renderEntries level [(key, e)] =
      indentation level ++ renderKey key ++ ": " ++ e.render level := rfl

private theorem renderEntries_cons_cons (key : String) (e : Expr) (q : String × Expr)
    (ps : List (String × Expr)) : renderEntries level ((key, e) :: q :: ps) =
      indentation level ++ renderKey key ++ ": " ++ e.render level ++ ",\n" ++
        renderEntries level (q :: ps) := rfl

private theorem toList_render_member (owner : Expr) (property : String) :
    ((member owner property).render level).toList =
      (owner.render level).toList ++ '.' :: property.toList := by
  rw [render_member, String.toList_append, String.toList_append, List.append_assoc]
  rfl

private theorem toList_render_call (callee : Expr) (args : List Expr) :
    ((call callee args).render level).toList =
      (callee.render level).toList ++ '(' :: ((renderList level args).toList ++ [')']) := by
  rw [render_call]
  simp only [String.toList_append, List.append_assoc]
  rfl

private theorem toList_render_array (items : List Expr) :
    ((array items).render level).toList = '[' :: ((renderList level items).toList ++ [']']) := by
  rw [render_array]
  simp only [String.toList_append, List.append_assoc]
  rfl

/-- What is printed of a list behind an element. -/
def listTail : List Expr → List Char
  | [] => []
  | e :: es => ',' :: ' ' :: (renderList level (e :: es)).toList

/-- A list is its first expression and a tail of commas and expressions. -/
private theorem toList_renderList_cons (e : Expr) (es : List Expr) :
    (renderList level (e :: es)).toList = (e.render level).toList ++ listTail level es := by
  cases es with
  | nil => rw [renderList_singleton, listTail, List.append_nil]
  | cons d es =>
    rw [renderList_cons_cons, listTail]
    simp only [String.toList_append, List.append_assoc]
    rfl

/-- What is printed of entries behind one of them. -/
def entriesTail : List (String × Expr) → List Char
  | [] => []
  | p :: ps => ',' :: '\n' :: (renderEntries level (p :: ps)).toList

/-- Entries are the first one, indented, and a tail of commas and entries. -/
private theorem toList_renderEntries_cons (p : String × Expr) (ps : List (String × Expr)) :
    (renderEntries level (p :: ps)).toList = (indentation level).toList ++
      ((renderKey p.1).toList ++ ':' :: ' ' :: ((p.2.render level).toList ++
        entriesTail level ps)) := by
  obtain ⟨key, e⟩ := p
  cases ps with
  | nil =>
    rw [renderEntries_singleton, entriesTail, List.append_nil]
    simp only [String.toList_append, List.append_assoc]
    rfl
  | cons q ps =>
    rw [renderEntries_cons_cons, entriesTail]
    simp only [String.toList_append, List.append_assoc]
    rfl

private theorem toList_render_object_cons (p : String × Expr) (ps : List (String × Expr)) :
    ((object (p :: ps)).render level).toList =
      '\x7b' :: '\n' :: ((renderEntries (level + 1) (p :: ps)).toList ++
        '\n' :: ((indentation level).toList ++ ['\x7d'])) := by
  rw [render_object_cons]
  simp only [String.toList_append, List.append_assoc]
  rfl

private theorem toList_render_strictEq (left right : Expr) :
    ((strictEq left right).render level).toList =
      (left.render level).toList ++ ' ' :: ("=== ".toList ++ (right.render level).toList) := by
  rw [render_strictEq]
  simp only [String.toList_append, List.append_assoc]
  rfl

private theorem toList_render_function (param : Option String) (body : Expr) :
    ((function param body).render level).toList =
      "function".toList ++ ' ' :: '(' :: ((param.getD "").toList ++
        ')' :: (" \x7b\n".toList ++ ((indentation (level + 1)).toList ++ ("return ".toList ++
          ((body.render (level + 1)).toList ++ ';' :: '\n' ::
            ((indentation level).toList ++ ['\x7d'])))))) := by
  rw [render_function]
  simp only [String.toList_append, List.append_assoc]
  rfl

end Characters

end Expr

/-! ### Names -/

/-- A name, or a member of what is named so. -/
inductive Expr.IsDotted : Expr → Prop
  | ident {name : String} (h : Name.isIdentifier name = true) : IsDotted (.ident name)
  | member {owner : Expr} {property : String} (howner : IsDotted owner)
      (h : Name.isIdentifier property = true) : IsDotted (.member owner property)

namespace Expr

/-- The characters of names. -/
def isNameChar (c : Char) : Bool := Name.isPart c || c = '.'

/-- The characters of an identifier may stand in a dotted name. -/
private theorem isNameChar_of_isIdentifier {s : String} (h : Name.isIdentifier s = true) :
    ∀ c ∈ s.toList, isNameChar c = true := fun c hc => by
  rw [isNameChar, Name.isPart_of_mem_toList h c hc, Bool.true_or]

/-- There is no dot in an identifier. -/
private theorem dot_not_mem {s : String} (h : Name.isIdentifier s = true) : '.' ∉ s.toList :=
  fun hdot => absurd (Name.isPart_of_mem_toList h '.' hdot) (by decide)

end Expr

namespace Expr.IsDotted

variable {e e' : Expr} (level : ℕ)

/-- Every character of a dotted name is a part of a name or a dot. -/
private theorem isNameChar (h : e.IsDotted) :
    ∀ c ∈ (e.render level).toList, isNameChar c = true := by
  induction h with
  | ident hname =>
    rw [render_ident]
    exact isNameChar_of_isIdentifier hname
  | member _ hproperty ih =>
    rw [toList_render_member]
    exact List.forall_mem_append.mpr ⟨ih, List.forall_mem_cons.mpr
      ⟨by decide, isNameChar_of_isIdentifier hproperty⟩⟩

/-- A dotted name begins with a part of a name. -/
private theorem exists_cons (h : e.IsDotted) :
    ∃ c cs, (e.render level).toList = c :: cs ∧ Name.isPart c = true := by
  induction h with
  | ident hname =>
    rw [render_ident]
    exact Name.exists_cons_of_isIdentifier hname
  | member _ _ ih =>
    obtain ⟨c, cs, hcs, hc⟩ := ih
    rw [toList_render_member, hcs]
    exact ⟨c, _, rfl, hc⟩

/-- The last dot of a name stands before the last member. -/
private theorem eq_of_render_eq (h : e.IsDotted) (h' : e'.IsDotted)
    (heq : (e.render level).toList = (e'.render level).toList) : e = e' := by
  induction h generalizing e' with
  | @ident name hname =>
    cases h' with
    | ident _ =>
      rw [render_ident, render_ident] at heq
      rw [String.toList_injective heq]
    | member _ _ =>
      rw [render_ident, toList_render_member] at heq
      exact absurd (heq ▸ List.mem_append_right _ List.mem_cons_self) (dot_not_mem hname)
  | @member owner property _ hproperty ih =>
    cases h' with
    | ident hname =>
      rw [toList_render_member, render_ident] at heq
      exact absurd (heq ▸ List.mem_append_right _ List.mem_cons_self) (dot_not_mem hname)
    | member howner hproperty' =>
      rw [toList_render_member, toList_render_member] at heq
      obtain ⟨hfront, hback⟩ := append_cons_inj (dot_not_mem hproperty) (dot_not_mem hproperty') heq
      rw [ih howner hfront, String.toList_injective hback]

/-- Names are the same if what begins with them and goes on with no character of a name is. -/
private theorem append_inj (h : e.IsDotted) (h' : e'.IsDotted) {rest rest' : List Char}
    (hrest : ∀ c ∈ rest.head?, Expr.isNameChar c = false)
    (hrest' : ∀ c ∈ rest'.head?, Expr.isNameChar c = false)
    (heq : (e.render level).toList ++ rest = (e'.render level).toList ++ rest') :
    e = e' ∧ rest = rest' := by
  obtain ⟨hrun, hrests⟩ :=
    append_inj_of_run (h.isNameChar level) (h'.isNameChar level) hrest hrest' heq
  exact ⟨h.eq_of_render_eq level h' hrun, hrests⟩

end Expr.IsDotted

/-! ### Places -/

/-- What can stand at a place: the counterpart of a type, a string, a predicate, what a predicate
returns, what a value is compared with, a truth value, the descriptor of an interface, or a list or
an object of such. -/
inductive Slot where
  | type
  | text
  | predicate
  | test
  | literal
  | flag
  | descriptor
  | list (item : Slot)
  | entries (value : String → Slot)

/-- What the library has called: a combinator, or the one for enumerations of given strings. -/
inductive Library.Callee where
  | combinator (c : Combinator)
  | enumsOf

namespace Library.Callee

/-- The expression that is called. -/
def toExpr (lib : Library) : Callee → Expr
  | combinator c => lib.member c.name
  | enumsOf => .member (lib.member Combinator.enums.name) "of"

/-- What can stand as an argument, by its position. Behind those that are needed stands a display
name, or the descriptor of an interface. -/
def slot : Callee → ℕ → Slot
  | combinator .list, 0 => .type
  | combinator .maybe, 0 => .type
  | combinator .dict, 0 => .type
  | combinator .dict, 1 => .type
  | combinator .tuple, 0 => .list .type
  | combinator .union, 0 => .list .type
  | combinator .intersection, 0 => .list .type
  | combinator .refinement, 0 => .type
  | combinator .refinement, 1 => .predicate
  | combinator .interface, 0 => .entries fun _ => .type
  | combinator .interface, _ => .descriptor
  | combinator .irreducible, 1 => .predicate
  | enumsOf, 0 => .list .text
  | _, _ => .text

/-- What is called is a dotted name, the library being bound to an identifier. -/
private theorem isDotted_toExpr {lib : Library} (hlib : Name.isIdentifier lib.binding = true)
    (c : Callee) : (c.toExpr lib).IsDotted := by
  cases c with
  | combinator c => exact .member (.ident hlib) (by cases c <;> decide)
  | enumsOf => exact .member (.member (.ident hlib) (by decide)) (by decide)

/-- Different callees are printed from different expressions. -/
private theorem toExpr_injective (lib : Library) : Function.Injective (toExpr lib) := by
  have hname : Function.Injective Combinator.name := by
    intro c c' h
    cases c <;> cases c' <;> first | rfl | exact absurd h (by decide)
  intro c c' h
  cases c with
  | combinator c =>
    cases c' with
    | combinator c' => rw [hname (Expr.member.inj h).2]
    | enumsOf => exact nomatch (Expr.member.inj h).1
  | enumsOf =>
    cases c' with
    | combinator c' => exact nomatch (Expr.member.inj h).1
    | enumsOf => rfl

end Library.Callee

/-- The value at a key of a descriptor. -/
def Slot.ofKey (key : String) : Slot := if key = "strict" then .flag else .text

/-- A number begins with a digit or a sign, and has no semicolon in it. -/
structure IsNumeral (spelling : String) : Prop where
  head : ∃ c cs, spelling.toList = c :: cs ∧ (c.isDigit = true ∨ c = '-')
  numeric : ∀ c ∈ spelling.toList, Token.isNumeric c = true

/-- An expression can stand at a place in a call of the library. -/
inductive Fits (lib : Library) : Slot → Expr → Prop
  | name {e : Expr} (h : e.IsDotted) : Fits lib .type e
  | call (c : Library.Callee) {args : List Expr}
      (h : ∀ (i : ℕ) (e : Expr), args[i]? = some e → Fits lib (c.slot i) e) :
      Fits lib .type (.call (c.toExpr lib) args)
  | text (value : String) : Fits lib .text (.string value)
  | predicate {e : Expr} (h : e.IsDotted) : Fits lib .predicate e
  | function {param : Option String} {body : Expr}
      (hparam : ∀ name ∈ param, Name.isIdentifier name = true) (h : Fits lib .test body) :
      Fits lib .predicate (.function param body)
  | verdict (value : Bool) : Fits lib .test (.bool value)
  | strictEq {name : String} {value : Expr} (hname : Name.isIdentifier name = true)
      (h : Fits lib .literal value) : Fits lib .test (.strictEq (.ident name) value)
  | number {spelling : String} (h : IsNumeral spelling) : Fits lib .literal (.number spelling)
  | bool (value : Bool) : Fits lib .literal (.bool value)
  | flag (value : Bool) : Fits lib .flag (.bool value)
  | display (name : String) : Fits lib .descriptor (.string name)
  | descriptor {entries : List (String × Expr)}
      (h : Fits lib (.entries Slot.ofKey) (.object entries)) :
      Fits lib .descriptor (.object entries)
  | list {item : Slot} {items : List Expr} (h : ∀ e ∈ items, Fits lib item e) :
      Fits lib (.list item) (.array items)
  | entries {value : String → Slot} {entries : List (String × Expr)}
      (h : ∀ p ∈ entries, Fits lib (value p.1) p.2) : Fits lib (.entries value) (.object entries)

/-! ### Unique readability -/

/-- What stands behind a printed expression, if anything does: a comma, what closes a list, an end
of line or a semicolon. -/
def Stops (rest : List Char) : Prop := ∀ c ∈ rest.head?, c ∈ [',', ')', ']', '\n', ';']

theorem Stops.cons {c : Char} (h : c ∈ [',', ')', ']', '\n', ';']) (rest : List Char) :
    Stops (c :: rest) := by
  rintro _ ⟨⟩
  exact h

section Stop

variable {rest : List Char} (h : Stops rest)

include h

/-- A dotted name ends where an expression is stopped. -/
private theorem Stops.isNameChar : ∀ c ∈ rest.head?, Expr.isNameChar c = false := by
  have hall : [',', ')', ']', '\n', ';'].all (fun c => !Expr.isNameChar c) = true := by decide
  exact fun c hc => by simpa using List.all_eq_true.mp hall c (h c hc)

/-- A number ends where an expression is stopped. -/
private theorem Stops.isNumeric : ∀ c ∈ rest.head?, Token.isNumeric c = false := by
  have hall : [',', ')', ']', '\n', ';'].all (fun c => !Token.isNumeric c) = true := by decide
  exact fun c hc => by simpa using List.all_eq_true.mp hall c (h c hc)

private theorem Stops.ne_cons {c : Char} (hc : c ∉ [',', ')', ']', '\n', ';']) (cs : List Char) :
    rest ≠ c :: cs := by
  rintro rfl
  exact hc (h c rfl)

end Stop

/-- An expression is told from every other one that can stand at the same place, and from what
stands behind it. -/
def Readable (lib : Library) (slot : Slot) (e : Expr) : Prop :=
  ∀ (level : ℕ) (e' : Expr) (rest rest' : List Char), Fits lib slot e' → Stops rest → Stops rest' →
    (e.render level).toList ++ rest = (e'.render level).toList ++ rest' → e = e' ∧ rest = rest'

/-- What is printed for an expression does not begin with what closes a list. -/
def Expr.Opens (e : Expr) (level : ℕ) : Prop :=
  ∃ c cs, (e.render level).toList = c :: cs ∧ c ≠ ')' ∧ c ≠ ']'

namespace Fits

variable {lib : Library} {slot : Slot} {e e' : Expr} {rest rest' : List Char} {level : ℕ}

/-- A dotted name opens with a part of a name. -/
private theorem opens_of_isDotted (h : e.IsDotted) (level : ℕ) : e.Opens level := by
  obtain ⟨c, cs, hcs, hc⟩ := h.exists_cons level
  refine ⟨c, cs, hcs, ?_, ?_⟩ <;> rintro rfl <;> exact absurd hc (by decide)

private theorem opens_bool (value : Bool) (level : ℕ) : (Expr.bool value).Opens level := by
  rw [Expr.Opens, Expr.render_bool]
  cases value with
  | true => exact ⟨'t', _, rfl, by decide, by decide⟩
  | false => exact ⟨'f', _, rfl, by decide, by decide⟩

private theorem opens_string (value : String) (level : ℕ) : (Expr.string value).Opens level := by
  rw [Expr.Opens, Expr.render_string, Text.toList_quote]
  exact ⟨_, _, rfl, by decide, by decide⟩

/-- An object opens with a brace. -/
private theorem opens_object (entries : List (String × Expr)) (level : ℕ) :
    (Expr.object entries).Opens level := by
  cases entries with
  | nil =>
    rw [Expr.Opens, Expr.render_object_nil]
    exact ⟨'\x7b', _, rfl, by decide, by decide⟩
  | cons p ps =>
    rw [Expr.Opens, Expr.toList_render_object_cons]
    exact ⟨_, _, rfl, by decide, by decide⟩

/-- **No expression that fits opens with what closes a list.** -/
private theorem opens (hlib : Name.isIdentifier lib.binding = true) (h : Fits lib slot e)
    (level : ℕ) : e.Opens level := by
  cases h with
  | name h => exact opens_of_isDotted h level
  | call c _ =>
    obtain ⟨d, ds, hds, hd⟩ := opens_of_isDotted (c.isDotted_toExpr hlib) level
    rw [Expr.Opens, Expr.toList_render_call, hds]
    exact ⟨d, _, rfl, hd⟩
  | text value => exact opens_string value level
  | predicate h => exact opens_of_isDotted h level
  | function _ _ =>
    rw [Expr.Opens, Expr.toList_render_function]
    exact ⟨'f', _, rfl, by decide, by decide⟩
  | verdict value => exact opens_bool value level
  | strictEq hname _ =>
    obtain ⟨d, ds, hds, hd⟩ := opens_of_isDotted (.ident hname) level
    rw [Expr.Opens, Expr.toList_render_strictEq, hds]
    exact ⟨d, _, rfl, hd⟩
  | number h =>
    obtain ⟨c, cs, hcs, hc⟩ := h.head
    rw [Expr.Opens, Expr.render_number]
    refine ⟨c, cs, hcs, ?_, ?_⟩ <;> rintro rfl <;> exact absurd hc (by decide)
  | bool value => exact opens_bool value level
  | flag value => exact opens_bool value level
  | display name => exact opens_string name level
  | descriptor _ => exact opens_object _ level
  | list _ =>
    rw [Expr.Opens, Expr.toList_render_array]
    exact ⟨_, _, rfl, by decide, by decide⟩
  | entries _ => exact opens_object _ level

/-! ### Lists and objects -/

/-- Behind an expression in a list stands a comma or what closes the list. -/
private theorem stops_listTail {close : Char} (hclose : close = ')' ∨ close = ']') (level : ℕ)
    (es : List Expr) (rest : List Char) : Stops (Expr.listTail level es ++ close :: rest) := by
  cases es with
  | nil =>
    refine .cons ?_ rest
    rcases hclose with rfl | rfl <;> decide
  | cons e es => exact .cons (by decide) _

/-- What closes a list is not taken for its first item. -/
private theorem nil_ne_renderList {close : Char} (hclose : close = ')' ∨ close =
    ']') (h : e.Opens level) {es : List Expr} : (Expr.renderList level []).toList ++ close :: rest ≠
      (Expr.renderList level (e :: es)).toList ++ close :: rest' := by
  obtain ⟨c, cs, hcs, hparen, hbracket⟩ := h
  intro heq
  rw [Expr.toList_renderList_cons, hcs] at heq
  obtain rfl : close = c := (List.cons.inj heq).1
  exact hclose.elim hparen hbracket

/-- A list is read item by item up to what closes it. -/
private theorem readable_renderList (hlib : Name.isIdentifier lib.binding = true) {close : Char}
    (hclose : close = ')' ∨ close = ']') {slot : ℕ → Slot} {es es' : List Expr}
    (hfits : ∀ (i : ℕ) (e : Expr), es[i]? = some e → Fits lib (slot i) e)
    (hread : ∀ (i : ℕ) (e : Expr), es[i]? = some e → Readable lib (slot i) e)
    (hfits' : ∀ (i : ℕ) (e : Expr), es'[i]? = some e → Fits lib (slot i) e)
    (heq : (Expr.renderList level es).toList ++ close :: rest =
      (Expr.renderList level es').toList ++ close :: rest') : es = es' ∧ rest = rest' := by
  induction es generalizing es' slot with
  | nil =>
    cases es' with
    | nil => exact ⟨rfl, (List.cons.inj heq).2⟩
    | cons e' es' => exact (nil_ne_renderList hclose ((hfits' 0 e' rfl).opens hlib level) heq).elim
  | cons e es ih =>
    cases es' with
    | nil => exact (nil_ne_renderList hclose ((hfits 0 e rfl).opens hlib level) heq.symm).elim
    | cons e' es' =>
      rw [Expr.toList_renderList_cons, Expr.toList_renderList_cons, List.append_assoc,
        List.append_assoc] at heq
      obtain ⟨rfl, htails⟩ := hread 0 e rfl level e' _ _ (hfits' 0 e' rfl)
        (stops_listTail hclose level es rest) (stops_listTail hclose level es' rest') heq
      have hne : close ≠ ',' := by rcases hclose with rfl | rfl <;> decide
      cases es with
      | nil =>
        cases es' with
        | nil => exact ⟨rfl, (List.cons.inj htails).2⟩
        | cons d' ds' => exact (hne (List.cons.inj htails).1).elim
      | cons d ds =>
        cases es' with
        | nil => exact (hne (List.cons.inj htails).1.symm).elim
        | cons d' ds' =>
          have hrest := (List.cons.inj (List.cons.inj htails).2).2
          obtain ⟨hall, hrests⟩ := ih
            (fun i e he => hfits (i + 1) e he) (fun i e he => hread (i + 1) e he)
            (fun i e he => hfits' (i + 1) e he) hrest
          exact ⟨by rw [hall], hrests⟩

/-- Behind the value of an entry stands a comma or the line feed before the brace. -/
private theorem stops_entriesTail (level : ℕ) (ps : List (String × Expr)) (rest : List Char) :
    Stops (Expr.entriesTail level ps ++ '\n' :: rest) := by
  cases ps <;> exact .cons (by decide) _

/-- A key ends at the colon, in quotes or not. -/
private theorem renderKey_append_inj {key key' : String}
    (h : (Expr.renderKey key).toList ++ ':' :: rest =
      (Expr.renderKey key').toList ++ ':' :: rest') :
    key = key' ∧ rest = rest' := by
  have hmixed : ∀ {bare quoted : String} {rest rest' : List Char},
      Name.isIdentifier bare = true → bare.toList ++ ':' :: rest ≠
        (Text.quote quoted).toList ++ rest' := by
    intro bare quoted rest rest' hbare heq
    obtain ⟨c, cs, hcs, hc⟩ := Name.exists_cons_of_isIdentifier hbare
    rw [hcs, Text.toList_quote] at heq
    obtain rfl : c = '\'' := (List.cons.inj heq).1
    exact absurd hc (by decide)
  have hcolon := eq_false_of_mem_head?_cons (p := Name.isPart) (c := ':') (by decide)
  unfold Expr.renderKey at h
  split_ifs at h with hbare hbare' hbare'
  · obtain ⟨hkeys, hrests⟩ := append_inj_of_run (Name.isPart_of_mem_toList hbare)
      (Name.isPart_of_mem_toList hbare') (hcolon rest) (hcolon rest') h
    exact ⟨String.toList_injective hkeys, (List.cons.inj hrests).2⟩
  · exact (hmixed hbare h).elim
  · exact (hmixed hbare' h.symm).elim
  · obtain ⟨hkeys, hrests⟩ := Text.quote_append_inj h
    exact ⟨hkeys, (List.cons.inj hrests).2⟩

/-- Entries are read one by one up to the end of the line. -/
private theorem readable_renderEntries {value : String → Slot} {ps ps' : List (String × Expr)}
    (hne : ps ≠ []) (hne' : ps' ≠ []) (hread : ∀ p ∈ ps, Readable lib (value p.1) p.2)
    (hfits' : ∀ p ∈ ps', Fits lib (value p.1) p.2)
    (heq : (Expr.renderEntries level ps).toList ++ '\n' :: rest =
      (Expr.renderEntries level ps').toList ++ '\n' :: rest') : ps = ps' ∧ rest = rest' := by
  induction ps generalizing ps' with
  | nil => exact (hne rfl).elim
  | cons p ps ih =>
    obtain ⟨p', ps', rfl⟩ := List.exists_cons_of_ne_nil hne'
    obtain ⟨hp, hps⟩ := List.forall_mem_cons.mp hread
    obtain ⟨hp', hps'⟩ := List.forall_mem_cons.mp hfits'
    obtain ⟨key, e⟩ := p
    obtain ⟨key', e'⟩ := p'
    rw [Expr.toList_renderEntries_cons, Expr.toList_renderEntries_cons] at heq
    simp only [List.append_assoc, List.cons_append] at heq
    obtain ⟨rfl, hvalues⟩ := renderKey_append_inj (List.append_cancel_left heq)
    obtain ⟨rfl, htails⟩ := hp level e' _ _ hp' (stops_entriesTail level ps rest)
      (stops_entriesTail level ps' rest') (List.cons.inj hvalues).2
    cases ps with
    | nil =>
      cases ps' with
      | nil => exact ⟨rfl, (List.cons.inj htails).2⟩
      | cons q' qs' => exact absurd (List.cons.inj htails).1 (by decide)
    | cons q qs =>
      cases ps' with
      | nil => exact absurd (List.cons.inj htails).1 (by decide)
      | cons q' qs' =>
        have hrest := (List.cons.inj (List.cons.inj htails).2).2
        obtain ⟨hall, hrests⟩ := ih (List.cons_ne_nil q qs) (List.cons_ne_nil q' qs') hps hps' hrest
        exact ⟨by rw [hall], hrests⟩

/-- An object can be told from what follows it if its values can. Whether it is empty is told by
what stands behind its brace. -/
private theorem readable_object {value : String → Slot} {ps : List (String × Expr)}
    (hread : ∀ p ∈ ps, Readable lib (value p.1) p.2) :
    Readable lib (.entries value) (.object ps) := by
  intro level e' rest rest' h' _ _ heq
  -- An object without entries closes its brace on the same line.
  have hnil : ∀ (p : String × Expr) (ps : List (String × Expr)) (rest rest' : List Char),
      ((Expr.object []).render level).toList ++ rest ≠
        ((Expr.object (p :: ps)).render level).toList ++ rest' := by
    intro p ps rest rest' h
    rw [Expr.render_object_nil, Expr.toList_render_object_cons] at h
    exact absurd (List.cons.inj (List.cons.inj h).2).1 (by decide)
  cases h' with
  | @entries _ ps' hfits' =>
    cases ps with
    | nil =>
      cases ps' with
      | nil => exact ⟨rfl, List.append_cancel_left heq⟩
      | cons p' ps' => exact (hnil p' ps' rest rest' heq).elim
    | cons p ps =>
      cases ps' with
      | nil => exact (hnil p ps rest' rest heq.symm).elim
      | cons p' ps' =>
        rw [Expr.toList_render_object_cons, Expr.toList_render_object_cons] at heq
        simp only [List.append_assoc, List.cons_append] at heq
        obtain ⟨hall, hrests⟩ := readable_renderEntries (List.cons_ne_nil p ps)
          (List.cons_ne_nil p' ps') hread hfits' (List.cons.inj (List.cons.inj heq).2).2
        refine ⟨by rw [hall], ?_⟩
        exact (List.cons.inj (List.append_cancel_left hrests)).2

/-! ### Expressions of different forms -/

/-- Behind what looks like a name there is a blank. -/
private theorem not_stops_of_append_space {run run' : List Char}
    (hrun : ∀ c ∈ run, Expr.isNameChar c = true) (hrun' : ∀ c ∈ run', Expr.isNameChar c = true)
    (hrest : Stops rest) : run ++ rest ≠ run' ++ ' ' :: rest' := by
  intro heq
  obtain ⟨-, hrests⟩ := append_inj_of_run hrun hrun' hrest.isNameChar
    (eq_false_of_mem_head?_cons (by decide) rest') heq
  exact hrest.ne_cons (by decide) _ hrests

private theorem isNameChar_of_mem_bool {value : Bool} :
    ∀ c ∈ ((Expr.bool value).render level).toList, Expr.isNameChar c = true := by
  rw [Expr.render_bool]
  cases value <;> exact List.all_eq_true.mp (by decide)

/-- No dotted name is followed by what makes it a function. -/
private theorem dotted_ne_function (h : e.IsDotted) (hrest : Stops rest) (param : Option String)
    (body : Expr) : (e.render level).toList ++ rest ≠
      ((Expr.function param body).render level).toList ++ rest' := by
  rw [Expr.toList_render_function, List.append_assoc]
  have hword : "function".toList.all Expr.isNameChar = true := by decide
  exact not_stops_of_append_space (h.isNameChar level) (List.all_eq_true.mp hword) hrest

/-- No truth value is followed by what makes it a comparison. -/
private theorem bool_ne_strictEq {name : String} (hname : Name.isIdentifier name = true)
    (hrest : Stops rest) (value : Bool) (right : Expr) :
    ((Expr.bool value).render level).toList ++ rest ≠
      ((Expr.strictEq (.ident name) right).render level).toList ++ rest' := by
  rw [Expr.toList_render_strictEq, List.append_assoc]
  exact not_stops_of_append_space isNameChar_of_mem_bool
    (Expr.IsDotted.isNameChar level (.ident hname)) hrest

/-- A truth value is no number, since no number begins with a letter. -/
private theorem bool_ne_number {spelling : String} (h : IsNumeral spelling) (value : Bool) :
    ((Expr.bool value).render level).toList ++ rest ≠
      ((Expr.number spelling).render level).toList ++ rest' := by
  intro heq
  obtain ⟨c, cs, hcs, hc⟩ := h.head
  rw [Expr.render_bool, Expr.render_number, hcs] at heq
  cases value with
  | true =>
    obtain rfl : 't' = c := (List.cons.inj heq).1
    exact absurd hc (by decide)
  | false =>
    obtain rfl : 'f' = c := (List.cons.inj heq).1
    exact absurd hc (by decide)

/-- A string opens with a quote and an object with a brace. -/
private theorem string_ne_object (value : String) (ps : List (String × Expr)) :
    ((Expr.string value).render level).toList ++ rest ≠
      ((Expr.object ps).render level).toList ++ rest' := by
  intro heq
  rw [Expr.render_string, Text.toList_quote] at heq
  cases ps with
  | nil =>
    rw [Expr.render_object_nil] at heq
    exact absurd (List.cons.inj heq).1 (by decide)
  | cons p ps =>
    rw [Expr.toList_render_object_cons] at heq
    exact absurd (List.cons.inj heq).1 (by decide)

/-! ### All expressions -/

/-- The parameter of a function ends at the parenthesis, and what it returns at the semicolon. -/
private theorem function_append_inj {param param' : Option String} {body body' : Expr}
    (hparam : ∀ name ∈ param, Name.isIdentifier name = true)
    (hparam' : ∀ name ∈ param', Name.isIdentifier name = true) (hbody : Readable lib .test body)
    (hbody' : Fits lib .test body')
    (heq : ((Expr.function param body).render level).toList ++ rest =
      ((Expr.function param' body').render level).toList ++ rest') :
    Expr.function param body = .function param' body' ∧ rest = rest' := by
  have hpart : ∀ {param : Option String}, (∀ name ∈ param, Name.isIdentifier name = true) →
      ∀ c ∈ (param.getD "").toList, Name.isPart c = true := by
    intro param h
    cases param with
    | none => exact List.forall_mem_nil _
    | some name => exact Name.isPart_of_mem_toList (h name rfl)
  have hclose := eq_false_of_mem_head?_cons (p := Name.isPart) (c := ')') (by decide)
  have hempty : ∀ {name : String}, Name.isIdentifier name = true → "" ≠ name := by
    rintro name h rfl
    cases h
  -- Without a parameter nothing stands in the parentheses, and no name is empty.
  have hparams : param.getD "" = param'.getD "" → param = param' := by
    intro h
    cases param with
    | none =>
      cases param' with
      | none => rfl
      | some name' => exact (hempty (hparam' name' rfl) h).elim
    | some name =>
      cases param' with
      | none => exact (hempty (hparam name rfl) h.symm).elim
      | some name' => exact congrArg some h
  rw [Expr.toList_render_function, Expr.toList_render_function] at heq
  simp only [List.append_assoc, List.cons_append] at heq
  have hheads := (List.cons.inj (List.cons.inj (List.append_cancel_left heq)).2).2
  -- The parameter ends where the parenthesis closes, and the body is readable.
  obtain ⟨hnames, hbodies⟩ := append_inj_of_run (hpart hparam) (hpart hparam') (hclose _)
    (hclose _) hheads
  have hreturns := List.append_cancel_left (List.append_cancel_left
    (List.append_cancel_left (List.cons.inj hbodies).2))
  obtain ⟨rfl, hends⟩ := hbody (level + 1) body' _ _ hbody' (.cons (by decide) _)
    (.cons (by decide) _) hreturns
  have hrests := List.append_cancel_left (List.cons.inj (List.cons.inj hends).2).2
  exact ⟨by rw [hparams (String.toList_injective hnames)], (List.cons.inj hrests).2⟩

/-- What is compared ends at the blank before the operator. -/
private theorem strictEq_append_inj {name name' : String} {value value' : Expr}
    (hname : Name.isIdentifier name = true) (hname' : Name.isIdentifier name' = true)
    (hvalue : Readable lib .literal value) (hvalue' : Fits lib .literal value')
    (hrest : Stops rest) (hrest' : Stops rest')
    (heq : ((Expr.strictEq (.ident name) value).render level).toList ++ rest =
      ((Expr.strictEq (.ident name') value').render level).toList ++ rest') :
    Expr.strictEq (.ident name) value = .strictEq (.ident name') value' ∧ rest = rest' := by
  have hspace := eq_false_of_mem_head?_cons (p := Expr.isNameChar) (c := ' ') (by decide)
  rw [Expr.toList_render_strictEq, Expr.toList_render_strictEq] at heq
  simp only [List.append_assoc, List.cons_append] at heq
  obtain ⟨hlefts, hrights⟩ := Expr.IsDotted.append_inj level (.ident hname) (.ident hname')
    (hspace _) (hspace _) heq
  obtain ⟨rfl, hrests⟩ := hvalue level value' _ _ hvalue' hrest hrest'
    (List.append_cancel_left (List.cons.inj hrights).2)
  exact ⟨by rw [hlefts], hrests⟩

/-- Names and calls are told apart by what stands behind the longest name. -/
private theorem name_ne_call (hlib : Name.isIdentifier lib.binding = true) (h : e.IsDotted)
    (c : Library.Callee) (args : List Expr) (hrest : Stops rest) :
    (e.render level).toList ++ rest ≠
      ((Expr.call (c.toExpr lib) args).render level).toList ++ rest' := by
  intro heq
  have hparen := eq_false_of_mem_head?_cons (p := Expr.isNameChar) (c := '(') (by decide)
  rw [Expr.toList_render_call, List.append_assoc] at heq
  obtain ⟨-, hrests⟩ := h.append_inj level (c.isDotted_toExpr hlib) hrest.isNameChar (hparen _) heq
  exact hrest.ne_cons (by decide) _ hrests

/-- A call ends at the parenthesis behind its arguments. -/
private theorem call_append_inj (hlib : Name.isIdentifier lib.binding = true)
    {c c' : Library.Callee} {args args' : List Expr}
    (hargs : ∀ (i : ℕ) (e : Expr), args[i]? = some e → Fits lib (c.slot i) e)
    (hread : ∀ (i : ℕ) (e : Expr), args[i]? = some e → Readable lib (c.slot i) e)
    (hargs' : ∀ (i : ℕ) (e : Expr), args'[i]? = some e → Fits lib (c'.slot i) e)
    (heq : ((Expr.call (c.toExpr lib) args).render level).toList ++ rest =
      ((Expr.call (c'.toExpr lib) args').render level).toList ++ rest') :
    Expr.call (c.toExpr lib) args = .call (c'.toExpr lib) args' ∧ rest = rest' := by
  have hparen := eq_false_of_mem_head?_cons (p := Expr.isNameChar) (c := '(') (by decide)
  rw [Expr.toList_render_call, Expr.toList_render_call] at heq
  simp only [List.append_assoc, List.cons_append] at heq
  obtain ⟨hcallee, hlists⟩ := (c.isDotted_toExpr hlib).append_inj level
    (c'.isDotted_toExpr hlib) (hparen _) (hparen _) heq
  obtain rfl := Library.Callee.toExpr_injective lib hcallee
  obtain ⟨hall, hends⟩ := readable_renderList hlib (.inl rfl) hargs hread hargs'
    (List.cons.inj hlists).2
  exact ⟨by rw [hall], hends⟩

/-- A truth value is read off the front of a text. -/
private theorem bool_append_inj {value value' : Bool} (hrest : Stops rest) (hrest' : Stops rest')
    (heq : ((Expr.bool value).render level).toList ++ rest =
      ((Expr.bool value').render level).toList ++ rest') :
    Expr.bool value = Expr.bool value' ∧ rest = rest' := by
  obtain ⟨hruns, hrests⟩ := append_inj_of_run isNameChar_of_mem_bool isNameChar_of_mem_bool
    hrest.isNameChar hrest'.isNameChar heq
  refine ⟨?_, hrests⟩
  rw [Expr.render_bool, Expr.render_bool] at hruns
  cases value <;> cases value' <;> first | rfl | exact absurd hruns (by decide)

/-- A string is read off the front of a text, since its closing quote is found. -/
private theorem string_append_inj {value value' : String}
    (heq : ((Expr.string value).render level).toList ++ rest =
      ((Expr.string value').render level).toList ++ rest') :
    Expr.string value = .string value' ∧ rest = rest' := by
  rw [Expr.render_string, Expr.render_string] at heq
  obtain ⟨rfl, hrests⟩ := Text.quote_append_inj heq
  exact ⟨rfl, hrests⟩

/-- A number is read off the front of a text that stops it. -/
private theorem number_append_inj {spelling spelling' : String} (h : IsNumeral spelling)
    (h' : IsNumeral spelling') (hrest : Stops rest) (hrest' : Stops rest')
    (heq : ((Expr.number spelling).render level).toList ++ rest =
      ((Expr.number spelling').render level).toList ++ rest') :
    Expr.number spelling = .number spelling' ∧ rest = rest' := by
  rw [Expr.render_number, Expr.render_number] at heq
  obtain ⟨hruns, hrests⟩ := append_inj_of_run h.numeric h'.numeric hrest.isNumeric
    hrest'.isNumeric heq
  exact ⟨by rw [String.toList_injective hruns], hrests⟩

/-- An array is read off the front of a text if its items are. -/
private theorem array_append_inj (hlib : Name.isIdentifier lib.binding = true) {item : Slot}
    {items items' : List Expr} (h : ∀ e ∈ items, Fits lib item e)
    (hread : ∀ e ∈ items, Readable lib item e) (h' : ∀ e ∈ items', Fits lib item e)
    (heq : ((Expr.array items).render level).toList ++ rest =
      ((Expr.array items').render level).toList ++ rest') :
    Expr.array items = .array items' ∧ rest = rest' := by
  rw [Expr.toList_render_array, Expr.toList_render_array] at heq
  simp only [List.append_assoc, List.cons_append] at heq
  obtain ⟨hall, hends⟩ := readable_renderList hlib (.inr rfl)
    (fun _ _ he => h _ (List.mem_of_getElem? he)) (fun _ _ he => hread _ (List.mem_of_getElem? he))
    (fun _ _ he => h' _ (List.mem_of_getElem? he)) (List.cons.inj heq).2
  exact ⟨by rw [hall], hends⟩

/-- **Unique readability.** Of two expressions that can stand at the same place neither can be taken
for the other, whatever stands behind them. -/
theorem readable (hlib : Name.isIdentifier lib.binding = true) (h : Fits lib slot e) :
    Readable lib slot e := by
  -- The slot leaves few forms for the other expression, and the first characters tell them apart.
  induction h with
  | name h =>
    intro level e' rest rest' h' hrest hrest' heq
    cases h' with
    | name h' => exact h.append_inj level h' hrest.isNameChar hrest'.isNameChar heq
    | call c' _ => exact (name_ne_call hlib h c' _ hrest heq).elim
  | call c hargs ih =>
    intro level e' rest rest' h' hrest hrest' heq
    cases h' with
    | name h' => exact (name_ne_call hlib h' c _ hrest' heq.symm).elim
    | call c' hargs' => exact call_append_inj hlib hargs ih hargs' heq
  | text value =>
    intro level e' rest rest' h' _ _ heq
    cases h' with
    | text value' => exact string_append_inj heq
  | predicate h =>
    intro level e' rest rest' h' hrest hrest' heq
    cases h' with
    | predicate h' => exact h.append_inj level h' hrest.isNameChar hrest'.isNameChar heq
    | function _ _ => exact (dotted_ne_function h hrest _ _ heq).elim
  | function hparam h ih =>
    intro level e' rest rest' h' hrest hrest' heq
    cases h' with
    | predicate h' => exact (dotted_ne_function h' hrest' _ _ heq.symm).elim
    | function hparam' h' => exact function_append_inj hparam hparam' ih h' heq
  | verdict value =>
    intro level e' rest rest' h' hrest hrest' heq
    cases h' with
    | verdict value' => exact bool_append_inj hrest hrest' heq
    | strictEq hname' _ => exact (bool_ne_strictEq hname' hrest _ _ heq).elim
  | strictEq hname h ih =>
    intro level e' rest rest' h' hrest hrest' heq
    cases h' with
    | verdict value' => exact (bool_ne_strictEq hname hrest' _ _ heq.symm).elim
    | strictEq hname' h' => exact strictEq_append_inj hname hname' ih h' hrest hrest' heq
  | number h =>
    intro level e' rest rest' h' hrest hrest' heq
    cases h' with
    | number h' => exact number_append_inj h h' hrest hrest' heq
    | bool value' => exact (bool_ne_number h value' heq.symm).elim
  | bool value =>
    intro level e' rest rest' h' hrest hrest' heq
    cases h' with
    | number h' => exact (bool_ne_number h' value heq).elim
    | bool value' => exact bool_append_inj hrest hrest' heq
  | flag value =>
    intro level e' rest rest' h' hrest hrest' heq
    cases h' with
    | flag value' => exact bool_append_inj hrest hrest' heq
  | display name =>
    intro level e' rest rest' h' _ _ heq
    cases h' with
    | display name' => exact string_append_inj heq
    | descriptor _ => exact (string_ne_object _ _ heq).elim
  | descriptor _ ih =>
    intro level e' rest rest' h' hrest hrest' heq
    cases h' with
    | display name' => exact (string_ne_object _ _ heq.symm).elim
    | descriptor h' => exact ih level _ rest rest' h' hrest hrest' heq
  | list h ih =>
    intro level e' rest rest' h' _ _ heq
    cases h' with
    | list h' => exact array_append_inj hlib h ih h' heq
  | entries _ ih => exact readable_object ih

/-- Expressions for one place are equal if their printed forms are. -/
theorem eq_of_render_eq (hlib : Name.isIdentifier lib.binding = true) (h : Fits lib slot e)
    (h' : Fits lib slot e') (heq : e.render level = e'.render level) : e = e' := by
  have hstops : Stops [] := by
    rintro _ ⟨⟩
  refine (h.readable hlib level e' [] [] h' hstops hstops ?_).1
  rw [heq]

end Fits

end Reifier
