import Reifier.Proofs.Parser.Placement
import Reifier.Proofs.Parser.Taking

/-!
# Parsers and brackets

Kinds of tokens are balanced if every bracket among them is closed by the one that fits it
(`Token.Kind.Balanced`). Read from the left, tokens leave some brackets open, which are known by
what has to close them (`Token.Kind.Leaves`); tokens that leave none are balanced. Of some words it
is watched besides whether an identifier stands directly behind one of them (`Token.Apart`).

`p.Turns words s s'` says of a parser what its tokens leave, if `s` was left before (`Standing`):
they leave `s'` if the parser is done. It reports nothing then; and if it fails, it reports once,
where it stops, and has closed no bracket but its own. A parser that leaves the same brackets open,
whichever these are, takes balanced tokens (`Parser.Turns.exists_balanced`).
-/

namespace Reifier

namespace Token.Kind

/-! ### Balanced tokens -/

/-- The bracket that closes a bracket. -/
def closing? : Kind → Option Kind
  | braceOpen => some braceClose
  | braceBarOpen => some barBraceClose
  | parenOpen => some parenClose
  | bracketOpen => some bracketClose
  | _ => none

/-- Neither opens nor closes a bracket. -/
def IsFlat (kind : Kind) : Prop := kind.isOpen = false ∧ kind.isClose = false

instance (kind : Kind) : Decidable kind.IsFlat := inferInstanceAs (Decidable (_ ∧ _))

/-- Neither a bracket nor an identifier. -/
def IsMark (kind : Kind) : Prop := kind.IsFlat ∧ kind ≠ identifier

instance (kind : Kind) : Decidable kind.IsMark := inferInstanceAs (Decidable (_ ∧ _))

/-- Every bracket is closed by the one that fits it, and none closes another one. -/
inductive Balanced : List Kind → Prop
  | nil : Balanced []
  | flat {kind : Kind} {kinds : List Kind} (h : kind.IsFlat) (rest : Balanced kinds) :
      Balanced (kind :: kinds)
  | pair {opening close : Kind} {inner kinds : List Kind} (h : opening.closing? = some close)
      (inside : Balanced inner) (rest : Balanced kinds) :
      Balanced (opening :: (inner ++ close :: kinds))

/-- Balanced tokens can be put together. -/
theorem Balanced.append {kinds more : List Kind} (h : Balanced kinds) (h' : Balanced more) :
    Balanced (kinds ++ more) := by
  induction h with
  | nil => exact h'
  | flat hkind _ ih => exact .flat hkind ih
  | @pair opening close inner kinds hclose inside _ _ ih =>
    rw [List.cons_append, List.append_assoc, List.cons_append]
    exact .pair hclose inside ih

/-- Read from the left, tokens leave brackets open that the kinds in the first list close, the one
opened last standing first. -/
inductive Leaves : List Kind → List Kind → Prop
  | nil {kinds : List Kind} (h : Balanced kinds) : Leaves [] kinds
  | cons {awaited kinds inner : List Kind} {opening close : Kind} (outside : Leaves awaited kinds)
      (h : opening.closing? = some close) (inside : Balanced inner) :
      Leaves (close :: awaited) (kinds ++ opening :: inner)

namespace Leaves

variable {awaited kinds more : List Kind} {kind close : Kind}

/-- Balanced tokens leave what was open before them. -/
theorem append (h : Leaves awaited kinds) (hmore : Balanced more) :
    Leaves awaited (kinds ++ more) := by
  cases h with
  | nil h => exact .nil (h.append hmore)
  | cons outside h inside =>
    rw [List.append_assoc, List.cons_append]
    exact .cons outside h (inside.append hmore)

/-- A token that is no bracket leaves what was open before it. -/
private theorem flat (h : Leaves awaited kinds) (hkind : kind.IsFlat) :
    Leaves awaited (kinds ++ [kind]) :=
  h.append (.flat hkind .nil)

/-- A bracket opens. -/
theorem enter (h : Leaves awaited kinds) (hclose : kind.closing? = some close) :
    Leaves (close :: awaited) (kinds ++ [kind]) :=
  .cons h hclose .nil

/-- The bracket that was opened last is closed. -/
private theorem leave (h : Leaves (close :: awaited) kinds) :
    Leaves awaited (kinds ++ [close]) := by
  cases h with
  | cons outside h inside =>
    rw [List.append_assoc, List.cons_append]
    exact outside.append (.pair h inside .nil)

end Leaves

/-- Tokens that leave nothing open are balanced. -/
private theorem balanced_of_leaves {kinds : List Kind} (h : Leaves [] kinds) : Balanced kinds := by
  cases h with
  | nil h => exact h

end Token.Kind

/-! ### Words -/

namespace Token

/-- Whether a token is one of some words. -/
def isOneOf (words : List String) (t : Token) : Bool :=
  decide (t.kind = .identifier ∧ t.text ∈ words)

/-- No identifier stands directly behind one of the words. -/
def Apart (words : List String) (ts : List Token) : Prop :=
  ts.IsChain fun t u => t.isOneOf words = true → u.kind ≠ .identifier

theorem isOneOf_of_ne {words : List String} {t : Token} (h : t.kind ≠ .identifier) :
    t.isOneOf words = false := decide_eq_false fun ht => h ht.1

end Token

open Token (Apart)
open Token.Kind (IsFlat IsMark Balanced Leaves)

/-! ### Standings -/

/-- What is known behind tokens: which kinds close the brackets that they leave open, and whether
the last of them may be one of some words. -/
structure Standing where
  awaited : List Token.Kind
  behindWord : Bool

/-- The standing behind tokens in which no identifier stands behind one of the words. -/
structure Standing.Behind (words : List String) (s : Standing) (ts : List Token) : Prop where
  leaves : Leaves s.awaited (ts.map Token.kind)
  apart : Apart words ts
  last : s.behindWord = false → ∀ t ∈ ts.getLast?, t.isOneOf words = false

namespace Standing.Behind

variable {words : List String} {s s' : Standing} {ts : List Token} {t : Token}
  {opened : List Token.Kind} {behindWord : Bool}

protected theorem nil (words : List String) (behindWord : Bool) :
    Behind words ⟨[], behindWord⟩ [] :=
  ⟨.nil .nil, .nil, fun _ _ ht => nomatch ht⟩

/-- The last token may always be one of the words. -/
private theorem loosen (h : Behind words ⟨opened, false⟩ ts) (behindWord : Bool) :
    Behind words ⟨opened, behindWord⟩ ts := ⟨h.leaves, h.apart, fun _ => h.last rfl⟩

/-- Less is known if the last token may be one of the words. -/
private theorem tighten (h : Behind words ⟨opened, behindWord⟩ ts) :
    Behind words ⟨opened, true⟩ ts :=
  ⟨h.leaves, h.apart, nofun⟩

/-- One token more. -/
theorem take (h : Behind words s ts)
    (hleaves : ∀ kinds, Leaves s.awaited kinds → Leaves s'.awaited (kinds ++ [t.kind]))
    (hword : s.behindWord = true → t.kind ≠ .identifier)
    (hlast : s'.behindWord = false → t.isOneOf words = false) :
    Behind words s' (ts ++ [t]) := by
  refine ⟨?_, List.isChain_append.mpr ⟨h.apart, .singleton t, ?_⟩, fun hbehind u hu => ?_⟩
  · rw [List.map_append]
    exact hleaves _ h.leaves
  · rintro u hu _ ⟨⟩ hone
    cases hbehind : s.behindWord with
    | true => exact hword hbehind
    | false => exact absurd hone (by rw [h.last hbehind u hu]; exact Bool.false_ne_true)
  · rw [List.getLast?_concat] at hu
    cases hu
    exact hlast hbehind

end Standing.Behind

/-! ### Cursors -/

/-- The kinds of the tokens of lexemes. -/
def Lexeme.kinds (run : List Lexeme) : List Token.Kind := run.map (·.token.kind)

/-- Tokens have been taken between two cursors, and nothing has been reported. -/
structure Cursor.Quiet (c d : Cursor) : Prop where
  tokens : d.tokens <:+ c.tokens
  endOffset : d.endOffset = c.endOffset
  diagnostics : d.diagnostics = c.diagnostics
  lastReport : d.lastReport = c.lastReport

/-- The lexemes that have been taken from `c` on leave a standing; nothing has been reported. -/
structure Cursor.Walked (words : List String) (c : Cursor) (s : Standing) (d : Cursor) : Prop
    extends c.Quiet d where
  taken : ∃ run, c.rest = run ++ d.rest ∧ s.Behind words (run.map (·.token))

/-- From `c` on lexemes have been taken, and then something has been reported. -/
def Cursor.Stopped (words : List String) (c d : Cursor) : Prop :=
  ∃ mid s kind detail, c.Walked words s mid ∧ d = mid.report kind detail

namespace Cursor

variable {words : List String} {c d : Cursor} {s s' : Standing} {opened : List Token.Kind}
  {behindWord : Bool}

protected theorem Quiet.refl (c : Cursor) : c.Quiet c := ⟨List.suffix_rfl, rfl, rfl, rfl⟩

/-- Quiet moves one after the other are quiet. -/
protected theorem Quiet.trans {e : Cursor} (h : c.Quiet d) (h' : d.Quiet e) : c.Quiet e :=
  ⟨h'.tokens.trans h.tokens, h'.endOffset.trans h.endOffset,
    h'.diagnostics.trans h.diagnostics, h'.lastReport.trans h.lastReport⟩

theorem Quiet.took {l : Lexeme} {ls : List Lexeme} (hrest : c.rest = l :: ls) :
    c.Quiet (c.took l ls) := by
  refine ⟨?_, rfl, rfl, rfl⟩
  rw [Cursor.tokens, Cursor.tokens, hrest]
  exact List.suffix_cons _ _

theorem Quiet.settled (c : Cursor) : c.Quiet c.settled := by
  refine ⟨by rw [settled_tokens], ?_, ?_, ?_⟩ <;> unfold Cursor.settled <;> split <;> rfl

theorem Walked.refl (words : List String) (behindWord : Bool) (c : Cursor) :
    c.Walked words ⟨[], behindWord⟩ c :=
  ⟨.refl c, [], rfl, .nil words behindWord⟩

/-- If the last token is known to be none of the words, it may be forgotten. -/
theorem Walked.loosen (h : c.Walked words ⟨opened, false⟩ d) (behindWord : Bool) :
    c.Walked words ⟨opened, behindWord⟩ d := by
  obtain ⟨run, hrest, hbehind⟩ := h.taken
  exact ⟨h.toQuiet, run, hrest, hbehind.loosen behindWord⟩

/-- It may always be forgotten what the last token is. -/
private theorem Walked.tighten (h : c.Walked words ⟨opened, behindWord⟩ d) :
    c.Walked words ⟨opened, true⟩ d := by
  obtain ⟨run, hrest, hbehind⟩ := h.taken
  exact ⟨h.toQuiet, run, hrest, hbehind.tighten⟩

/-- If no words are watched, the last token is none of them. -/
private theorem Walked.unwatched (h : c.Walked [] ⟨opened, true⟩ d) :
    c.Walked [] ⟨opened, false⟩ d := by
  obtain ⟨run, hrest, hbehind⟩ := h.taken
  exact ⟨h.toQuiet, run, hrest, hbehind.leaves, hbehind.apart,
    fun _ _ _ => decide_eq_false fun hone => List.not_mem_nil hone.2⟩

/-- One more lexeme has been taken; what it leaves is known from what was left before it. -/
theorem Walked.took {l : Lexeme} {ls : List Lexeme} (h : c.Walked words s d)
    (hrest : d.rest = l :: ls)
    (hbehind : ∀ ts, s.Behind words ts → s'.Behind words (ts ++ [l.token])) :
    c.Walked words s' (d.took l ls) := by
  obtain ⟨run, hrun, hs⟩ := h.taken
  refine ⟨h.toQuiet.trans (.took hrest), run ++ [l], ?_, ?_⟩
  · rw [hrun, hrest, List.append_assoc]
    rfl
  · rw [List.map_append]
    exact hbehind _ hs

/-- Behind a mark as many brackets are open as before it. -/
theorem Walked.took_mark {l : Lexeme} {ls : List Lexeme}
    (h : c.Walked words ⟨opened, behindWord⟩ d) (hrest : d.rest = l :: ls)
    (hmark : l.token.kind.IsMark) : c.Walked words ⟨opened, false⟩ (d.took l ls) :=
  h.took hrest fun _ hts => hts.take (fun _ hkinds => hkinds.flat hmark.1) (fun _ => hmark.2)
    fun _ => Token.isOneOf_of_ne hmark.2

/-- The next token is of one of two kinds. -/
theorem kind_of_hasKind_or {kind kind' : Token.Kind} {l : Lexeme} {ls : List Lexeme}
    (h : (c.hasKind 0 kind || c.hasKind 0 kind') = true) (hrest : c.rest = l :: ls) :
    l.token.kind = kind ∨ l.token.kind = kind' :=
  (Bool.or_eq_true_iff.mp h).imp (kind_of_hasKind · hrest) (kind_of_hasKind · hrest)

private theorem Walked.entered (h : c.Walked words s d) : c.Walked words s d.entered :=
  ⟨⟨h.tokens, h.endOffset, h.diagnostics, h.lastReport⟩, h.taken⟩

private theorem Walked.left (h : c.Walked words s d) : c.Walked words s d.left :=
  ⟨⟨h.tokens, h.endOffset, h.diagnostics, h.lastReport⟩, h.taken⟩

theorem Walked.stopped (h : c.Walked words s d) (kind : Diagnostic.Kind) (detail : Option String) :
    c.Stopped words (d.report kind detail) := ⟨d, s, kind, detail, h, rfl⟩

private theorem Stopped.left (h : c.Stopped words d) : c.Stopped words d.left := by
  obtain ⟨mid, s, kind, detail, hwalked, rfl⟩ := h
  rw [left_report]
  exact hwalked.left.stopped kind detail

end Cursor

/-! ### Parsers -/

namespace Parser

variable {α β : Type} {words : List String} {s mid s' : Standing} {opened left : List Token.Kind}
  {behindWord : Bool}

/-- From the standing `s` on the parser takes lexemes, up to the standing `s'` if it is done. It
reports nothing unless it fails, and then where it stops. -/
def Turns (words : List String) (s s' : Standing) (p : Parser α) : Prop :=
  ∀ c₀ : Cursor, Triple (c₀.Walked words s) p (fun _ => c₀.Walked words s') (c₀.Stopped words)

/-- The same where something is known of the cursor. -/
def TurnsWhere (words : List String) (pre : Cursor → Prop) (s s' : Standing) (p : Parser α) :
    Prop :=
  ∀ c₀ : Cursor, Triple (fun c => c₀.Walked words s c ∧ pre c) p (fun _ => c₀.Walked words s')
    (c₀.Stopped words)

namespace TurnsWhere

variable {pre pre' : Cursor → Prop}

theorem anti {p : Parser α} (h : TurnsWhere words pre s s' p) (hpre : ∀ c, pre' c → pre c) :
    TurnsWhere words pre' s s' p :=
  fun c₀ => (h c₀).anti fun c hc => ⟨hc.1, hpre c hc.2⟩

/-- The last token may always be one of the words. -/
theorem loosen {p : Parser α} (h : TurnsWhere words pre s ⟨left, false⟩ p) :
    TurnsWhere words pre s ⟨left, behindWord⟩ p :=
  fun c₀ => (h c₀).mono (fun _ => id) (fun _ _ hc => hc.loosen behindWord) fun _ => id

/-- What has been seen is known afterwards. -/
theorem look_bind {view : Cursor → α} {f : α → Parser β}
    (hf : ∀ a, TurnsWhere words (fun c => pre c ∧ view c = a) s s' (f a)) :
    TurnsWhere words pre s s' (look view >>= f) :=
  fun c₀ => .look_bind fun a c hc => hf a c₀ c ⟨hc.1.1, hc.1.2, hc.2⟩

/-- A sequence turns one standing into the next. -/
theorem bind {p : Parser α} {f : α → Parser β} (hp : TurnsWhere words pre s mid p)
    (hf : ∀ a, Turns words mid s' (f a)) : TurnsWhere words pre s s' (p >>= f) :=
  fun c₀ => .bind (hp c₀) fun a => hf a c₀

/-! ### Taking -/

variable {g : Token → Parser β}

/-- The token that is taken changes the standing. -/
theorem advance_bind (hbehind : ∀ c l ls, pre c → c.rest = l :: ls → ∀ ts, s.Behind words ts →
      mid.Behind words (ts ++ [l.token]))
    (hg : ∀ t, Turns words mid s' (g t)) : TurnsWhere words pre s s' (Parser.advance >>= g) := by
  intro c₀
  have htake : ∀ c l ls, c₀.Walked words s c ∧ pre c → c.rest = l :: ls →
      c₀.Walked words mid (c.took l ls) := fun c l ls hc hrest =>
    hc.1.took hrest (hbehind c l ls hc.2 hrest)
  exact .advance_bind htake fun t => hg t c₀

/-- A mark that is known to come next leaves what was open. -/
theorem take_mark_bind (kind : Token.Kind) (hpre : ∀ c, pre c → c.hasKind 0 kind = true)
    (hmark : kind.IsMark) (hg : ∀ t, Turns words ⟨opened, false⟩ s' (g t)) :
    TurnsWhere words pre ⟨opened, behindWord⟩ s' (Parser.advance >>= g) := by
  intro c₀
  have htake : ∀ c l ls, c₀.Walked words ⟨opened, behindWord⟩ c ∧ pre c → c.rest = l :: ls →
      c₀.Walked words ⟨opened, false⟩ (c.took l ls) := by
    intro c l ls hc hrest
    obtain rfl := Cursor.kind_of_hasKind (hpre c hc.2) hrest
    exact hc.1.took_mark hrest hmark
  exact .advance_bind htake fun t => hg t c₀

/-- A bracket that is known to come next has to be closed behind it. -/
theorem take_open_bind (kind : Token.Kind) {close : Token.Kind}
    (hpre : ∀ c, pre c → c.hasKind 0 kind = true) (hclose : kind.closing? = some close)
    (hg : ∀ t, Turns words ⟨close :: opened, false⟩ s' (g t)) :
    TurnsWhere words pre ⟨opened, behindWord⟩ s' (Parser.advance >>= g) := by
  refine advance_bind (fun c l ls hc hrest ts hts => ?_) hg
  obtain rfl := Cursor.kind_of_hasKind (hpre c hc) hrest
  have hname : l.token.kind ≠ .identifier := by
    intro hkind
    rw [hkind] at hclose
    cases hclose
  exact hts.take (fun _ hkinds => hkinds.enter hclose) (fun _ => hname)
    fun _ => Token.isOneOf_of_ne hname

/-- A bracket that is known to come next and closes the one opened last. -/
theorem take_close_bind (close : Token.Kind) (hpre : ∀ c, pre c → c.hasKind 0 close = true)
    (hname : close ≠ .identifier) (hg : ∀ t, Turns words ⟨opened, false⟩ s' (g t)) :
    TurnsWhere words pre ⟨close :: opened, behindWord⟩ s' (Parser.advance >>= g) := by
  refine advance_bind (fun c l ls hc hrest ts hts => ?_) hg
  obtain rfl := Cursor.kind_of_hasKind (hpre c hc) hrest
  exact hts.take (fun _ hkinds => hkinds.leave) (fun _ => hname)
    fun _ => Token.isOneOf_of_ne hname

/-- An identifier, which is not behind one of the words, may be one of them. -/
theorem take_name_bind (hpre : ∀ c, pre c → c.hasKind 0 .identifier = true)
    (hg : ∀ t, Turns words ⟨opened, true⟩ s' (g t)) :
    TurnsWhere words pre ⟨opened, false⟩ s' (Parser.advance >>= g) := by
  refine advance_bind (fun c l ls hc hrest ts hts => ?_) hg
  have hkind := Cursor.kind_of_hasKind (hpre c hc) hrest
  refine hts.take (fun _ hkinds => ?_) nofun nofun
  rw [hkind]
  exact hkinds.flat (by decide)

/-- A word that is not watched. -/
theorem take_word_bind {word : String} (hword : word ∉ words)
    (hpre : ∀ c, pre c → c.isWord 0 word = true)
    (hg : ∀ t, Turns words ⟨opened, false⟩ s' (g t)) :
    TurnsWhere words pre ⟨opened, false⟩ s' (Parser.advance >>= g) := by
  refine advance_bind (fun c l ls hc hrest ts hts => ?_) hg
  obtain ⟨hkind, htext⟩ := Token.Word.ext_iff.mp (Cursor.word_of_isWord (hpre c hc) hrest)
  refine hts.take (fun _ hkinds => ?_) nofun fun _ => decide_eq_false fun hone => ?_
  · rw [show l.token.kind = .identifier from hkind]
    exact hkinds.flat (by decide)
  · rw [show l.token.text = word from htext] at hone
    exact hword hone.2

end TurnsWhere

namespace Turns

variable {p : Parser α} {f : α → Parser β}

/-! ### Sequence -/

protected theorem pure (a : α) : Turns words s s (pure a : Parser α) :=
  fun _ => .pure fun _ => id

theorem loosen (h : Turns words s ⟨left, false⟩ p) : Turns words s ⟨left, behindWord⟩ p :=
  fun c₀ => (h c₀).mono (fun _ => id) (fun _ _ hc => hc.loosen behindWord) fun _ => id

theorem tighten (h : Turns words ⟨opened, true⟩ s' p) : Turns words ⟨opened, behindWord⟩ s' p :=
  fun c₀ => (h c₀).anti fun _ hc => hc.tighten

/-- If no words are watched, every token may stand in front. -/
theorem unwatched (h : Turns [] ⟨opened, false⟩ s' p) : Turns [] ⟨opened, behindWord⟩ s' p :=
  fun c₀ => (h c₀).anti fun _ hc => hc.tighten.unwatched

/-- A sequence turns one standing into the next. -/
protected theorem bind (hp : Turns words s mid p) (hf : ∀ a, Turns words mid s' (f a)) :
    Turns words s s' (p >>= f) :=
  fun c₀ => .bind (hp c₀) fun a => hf a c₀

protected theorem halt (cause : Halt) : Turns words s s' (halt cause : Parser α) :=
  fun _ => .halt cause

protected theorem reject (kind : Diagnostic.Kind) (detail : Option String) :
    Turns words s s' (reject kind detail : Parser α) :=
  fun _ => .reject fun _ hc => hc.stopped kind detail

theorem toWhere (h : Turns words s s' p) (pre : Cursor → Prop) : TurnsWhere words pre s s' p :=
  fun c₀ c hc => h c₀ c hc.1

/-! ### Looking -/

theorem look_bind {view : Cursor → α} (hf : ∀ a, Turns words s s' (f a)) :
    Turns words s s' (look view >>= f) :=
  fun c₀ => .look_bind fun a c hc => hf a c₀ c hc.1

/-- What has been seen is known afterwards. -/
theorem test {view : Cursor → Bool} {a b : Parser β}
    (ha : TurnsWhere words (view · = true) s s' a) (hb : Turns words s s' b) :
    Turns words s s' (look view >>= fun yes => if yes = true then a else b) :=
  fun c₀ => .test (ha c₀) (hb c₀)

/-- Nothing need be known of what has been seen. -/
theorem choose {view : Cursor → Bool} {a b : Parser β} (ha : Turns words s s' a)
    (hb : Turns words s s' b) :
    Turns words s s' (look view >>= fun yes => if yes = true then a else b) :=
  test (ha.toWhere _) hb

/-- What the kind of the next token decides. -/
theorem nextKind_bind {f : Option Token.Kind → Parser β} (hnone : Turns words s s' (f none))
    (hsome : ∀ kind, TurnsWhere words (·.hasKind 0 kind = true) s s' (f (some kind))) :
    Turns words s s' (nextKind >>= f) := by
  refine fun c₀ => .look_bind fun kind? => ?_
  cases kind? with
  | none => exact fun c hc => hnone c₀ c hc.1
  | some kind =>
    refine fun c hc => hsome kind c₀ c ⟨hc.1, ?_⟩
    obtain ⟨l, hl, hkind⟩ := Option.map_eq_some_iff.mp hc.2
    obtain ⟨ls, hrest⟩ := List.head?_eq_some_iff.mp hl
    exact Cursor.hasKind_zero_iff.mpr ⟨l, ls, hrest, decide_eq_true hkind⟩

/-! ### Taking what passes a test -/

section Kinds

variable {kind close : Token.Kind} {g : Token → Parser β}

/-- A mark leaves what was open. -/
theorem expect_mark_bind {spelling : String} (hmark : kind.IsMark)
    (hg : ∀ t, Turns words ⟨opened, false⟩ s' (g t)) :
    Turns words ⟨opened, behindWord⟩ s' (expect kind spelling >>= g) := by
  rw [Parser.expect_bind]
  exact test (.take_mark_bind kind (fun _ => id) hmark hg) (.reject _ _)

/-- An opening bracket has to be closed behind it. -/
theorem expect_open_bind {spelling : String} (hclose : kind.closing? = some close)
    (hg : ∀ t, Turns words ⟨close :: opened, false⟩ s' (g t)) :
    Turns words ⟨opened, behindWord⟩ s' (expect kind spelling >>= g) := by
  rw [Parser.expect_bind]
  exact test (.take_open_bind kind (fun _ => id) hclose hg) (.reject _ _)

/-- A closing bracket closes the one opened last. -/
theorem expect_close_bind {spelling : String} (hname : close ≠ .identifier)
    (hg : ∀ t, Turns words ⟨opened, false⟩ s' (g t)) :
    Turns words ⟨close :: opened, behindWord⟩ s' (expect close spelling >>= g) := by
  rw [Parser.expect_bind]
  exact test (.take_close_bind close (fun _ => id) hname hg) (.reject _ _)

/-- An optional mark leaves what was open. -/
theorem eat_mark_bind {f : Bool → Parser β} (hmark : kind.IsMark)
    (htrue : Turns words ⟨opened, false⟩ s' (f true))
    (hfalse : Turns words ⟨opened, behindWord⟩ s' (f false)) :
    Turns words ⟨opened, behindWord⟩ s' (eat kind >>= f) := by
  rw [Parser.eat_bind]
  exact test (.take_mark_bind kind (fun _ => id) hmark fun _ => htrue) hfalse

/-- It may be of no importance whether a token is taken. -/
theorem eat_any_bind {f : Bool → Parser β} (hmark : kind.IsMark)
    (hf : ∀ yes, Turns words ⟨opened, true⟩ s' (f yes)) :
    Turns words ⟨opened, behindWord⟩ s' (eat kind >>= f) :=
  eat_mark_bind hmark (hf true).tighten (hf false).tighten

/-- An optional opening bracket has to be closed if it is there. -/
theorem eat_open_bind {f : Bool → Parser β} (hclose : kind.closing? = some close)
    (htrue : Turns words ⟨close :: opened, false⟩ s' (f true))
    (hfalse : Turns words ⟨opened, behindWord⟩ s' (f false)) :
    Turns words ⟨opened, behindWord⟩ s' (eat kind >>= f) := by
  rw [Parser.eat_bind]
  exact test (.take_open_bind kind (fun _ => id) hclose fun _ => htrue) hfalse

/-- A word that is not watched may be there or not. -/
theorem eatWord_bind {word : String} {f : Bool → Parser β} (hword : word ∉ words)
    (hf : ∀ yes, Turns words ⟨opened, false⟩ s' (f yes)) :
    Turns words ⟨opened, false⟩ s' (eatWord word >>= f) := by
  rw [Parser.eatWord_bind]
  exact test (.take_word_bind hword (fun _ => id) fun _ => hf true) (hf false)

theorem expectWord_bind {word : String} (hword : word ∉ words)
    (hg : ∀ t, Turns words ⟨opened, false⟩ s' (g t)) :
    Turns words ⟨opened, false⟩ s' (expectWord word >>= g) := by
  rw [Parser.expectWord_bind]
  exact test (.take_word_bind hword (fun _ => id) hg) (.reject _ _)

end Kinds

/-! ### Repeating -/

protected theorem rounds {loop : ℕ → Parser α} (h : ∀ n, Turns words s s' (loop n)) :
    Turns words s s' (rounds loop) :=
  fun c₀ => .rounds fun n => h n c₀

variable (hp : ∀ opened, Turns words ⟨opened, false⟩ ⟨opened, true⟩ p)
include hp

protected theorem after? {kind : Token.Kind} (hmark : kind.IsMark) :
    Turns words ⟨opened, true⟩ ⟨opened, true⟩ (after? kind p) :=
  eat_mark_bind hmark ((hp _).bind fun _ => .pure _) (.pure _)

/-- Every operand is closed in itself, and its sign is a mark. -/
protected theorem operands {operator : Token.Kind} (hmark : operator.IsMark) :
    Turns words ⟨opened, true⟩ ⟨opened, true⟩ (operands operator p) := by
  refine .rounds fun n => ?_
  induction n with
  | zero => exact .halt _
  | succ n ih =>
    exact eat_mark_bind hmark ((hp _).bind fun _ => ih.bind fun _ => .pure _) (.pure _)

/-- Every item is closed in itself, with marks between them. -/
protected theorem items {close : Token.Kind} :
    Turns words ⟨opened, false⟩ ⟨opened, true⟩ (items close p) := by
  refine .rounds fun n => ?_
  induction n with
  | zero => exact .halt _
  | succ n ih =>
    exact choose (.loosen (.pure _)) ((hp _).bind fun _ =>
      eat_mark_bind (by decide) (ih.bind fun _ => .pure _) (.pure _))

protected theorem commaSeparated :
    Turns words ⟨opened, false⟩ ⟨opened, true⟩ (commaSeparated p) :=
  (hp _).bind fun _ => (Turns.operands hp (by decide)).bind fun _ => .pure _

/-! ### Nesting -/

omit hp in
/-- Entering a level takes no lexeme, and a limit that is exhausted halts the parser. -/
protected theorem nesting (hp : Turns words s s' p) (limit : Option ℕ) :
    Turns words s s' (nesting limit p) := by
  intro c₀
  have hinside : Triple (c₀.Walked words s) p (fun _ c => c₀.Walked words s' c.left)
      fun c => c₀.Stopped words c.left :=
    (hp c₀).mono (fun _ => id) (fun _ _ hc => hc.left) fun _ hc => hc.left
  exact .nesting (fun c hc _ => hc.entered) hinside

omit hp in
/-- **What leaves the same brackets open is balanced.** -/
theorem exists_balanced {pre : Cursor → Prop} {behindWord : Bool}
    (h : TurnsWhere words pre ⟨[], false⟩ ⟨[], behindWord⟩ p) {c next : Cursor} {a : α}
    (hc : pre c) (hrun : p c = .done a next) :
    ∃ run, c.rest = run ++ next.rest ∧ Balanced (Lexeme.kinds run) := by
  have hdone := h c c ⟨.refl words false c, hc⟩
  rw [hrun] at hdone
  obtain ⟨run, hrest, hbehind⟩ := hdone.taken
  have hleaves := hbehind.leaves
  rw [List.map_map] at hleaves
  exact ⟨run, hrest, Token.Kind.balanced_of_leaves hleaves⟩

end Turns

end Parser

end Reifier
