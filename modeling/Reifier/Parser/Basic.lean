import Reifier.Diagnostic.Basic
import Reifier.Token.Lexeme

/-!
# Parsers

A parser reads lexemes from a cursor. It is `done` with a value, or `failed`, having reported why,
or `halted` when no parser may go on after it. In all cases the cursor says how far it came, and
what it has recorded and reported stays.

The comments before a lexeme are recorded when the lexeme is taken, or before that when a parser
asks for them (`settle`). Of two reports in a row that begin at the same place the second is
dropped.

What may be nested is read by `nesting`, which counts the levels that are open and halts when there
are as many as a limit allows.
-/

namespace Reifier

/-- Why nothing more may be read: types are nested more deeply than allowed, or a lexeme was asked
for after the last one. No production of the grammar does the second. -/
inductive Halt where
  | tooDeep
  | overrun
deriving DecidableEq

/-- How far a source has been read, and what has been found so far; `depth` is the number of levels
of nesting that are open. -/
structure Cursor where
  rest : List Lexeme
  endOffset : Nat
  lastEnd : Nat
  comments : List Comment
  diagnostics : List Diagnostic
  lastReport : Option Nat
  depth : Nat

namespace Cursor

/-- The offset at which the next token begins; the end of the source after the last one. -/
def nextStart (c : Cursor) : Nat :=
  match c.rest with
  | [] => c.endOffset
  | l :: _ => l.token.span.start

/-- The place of the next token; the empty place at the end of the source after the last one. -/
def nextSpan (c : Cursor) : Span :=
  match c.rest with
  | [] => Span.point c.endOffset
  | l :: _ => l.token.span

/-- Whether the lexeme `n` places ahead has a given kind. -/
def hasKind (c : Cursor) (n : Nat) (kind : Token.Kind) : Bool :=
  c.rest[n]?.any (·.hasKind kind)

/-- Whether the lexeme `n` places ahead is a given word. -/
def isWord (c : Cursor) (n : Nat) (word : String) : Bool :=
  c.rest[n]?.any (·.isWord word)

/-- Whether a line break stands before the next token. -/
def lineBreakAhead (c : Cursor) : Bool := c.rest.head?.any (·.before.lineBreak)

/-- From `start` to the end of the last token taken. -/
def spanFrom (c : Cursor) (start : Nat) : Span := ⟨start, max c.lastEnd start⟩

/-- The comments before the next token that are not yet recorded. -/
def commentsAhead (c : Cursor) : List Comment :=
  match c.rest with
  | [] => []
  | l :: _ => l.before.comments

/-- Records the comments before the next token. -/
def settled (c : Cursor) : Cursor :=
  match c.rest with
  | [] => c
  | l :: ls =>
    { c with
      rest := { l with before := Trivia.none } :: ls
      comments := c.comments ++ l.before.comments }

/-- Reports that something is wrong at the next token. -/
def report (c : Cursor) (kind : Diagnostic.Kind) (detail : Option String) : Cursor :=
  if c.lastReport = some c.nextStart then c
  else
    { c with
      diagnostics := c.diagnostics ++ [⟨kind, c.nextSpan, detail⟩]
      lastReport := some c.nextStart }

/-- Takes the next lexeme, behind which the lexemes `ls` are left. -/
def took (c : Cursor) (l : Lexeme) (ls : List Lexeme) : Cursor :=
  { c with
    rest := ls
    lastEnd := l.token.span.stop
    comments := c.comments ++ l.before.comments }

/-- The next lexeme has a kind if there is one and it does. -/
theorem hasKind_zero_iff {c : Cursor} {kind : Token.Kind} :
    c.hasKind 0 kind = true ↔ ∃ l ls, c.rest = l :: ls ∧ l.hasKind kind = true := by
  unfold hasKind
  cases c.rest with
  | nil => simp
  | cons l ls => simp

/-- A lexeme has one kind. -/
theorem hasKind_inj {c : Cursor} {n : Nat} {kind kind' : Token.Kind} (h : c.hasKind n kind = true)
    (h' : c.hasKind n kind' = true) : kind = kind' := by
  unfold hasKind at h h'
  cases hl : c.rest[n]? with
  | none => simp [hl] at h
  | some l =>
    simp only [hl, Option.any_some, Lexeme.hasKind, decide_eq_true_eq] at h h'
    exact h.symm.trans h'

/-- Looking ahead from behind the next lexeme is looking one further. -/
theorem hasKind_took {c : Cursor} {l : Lexeme} {ls : List Lexeme} (h : c.rest = l :: ls) (n : Nat)
    (kind : Token.Kind) : (c.took l ls).hasKind n kind = c.hasKind (n + 1) kind := by
  unfold hasKind
  rw [h]
  rfl

/-- Opens one level more. -/
def entered (c : Cursor) : Cursor := { c with depth := c.depth + 1 }

/-- Closes one level. -/
def left (c : Cursor) : Cursor := { c with depth := c.depth - 1 }

end Cursor

/-! ### Outcomes -/

/-- What a parser comes to. -/
inductive Outcome (α : Type) where
  | done (value : α) (next : Cursor)
  | failed (next : Cursor)
  | halted (cause : Halt) (next : Cursor)

/-- The cursor at which a parser stops. -/
def Outcome.cursor {α : Type} : Outcome α → Cursor
  | .done _ next => next
  | .failed next => next
  | .halted _ next => next

/-- Reads from a cursor. -/
def Parser (α : Type) := Cursor → Outcome α

namespace Parser

variable {α β : Type}

/-- Reads nothing and is done. -/
protected def pure (value : α) : Parser α := fun c => .done value c

/-- Reads on with what the first parser was done with. -/
protected def bind (p : Parser α) (f : α → Parser β) : Parser β := fun c =>
  match p c with
  | .done a next => f a next
  | .failed next => .failed next
  | .halted cause next => .halted cause next

instance : Monad Parser where
  pure := Parser.pure
  bind := Parser.bind

/-- A sequence of parsers by the outcome of the first one. -/
theorem bind_apply (p : Parser α) (f : α → Parser β) (c : Cursor) :
    (p >>= f) c = match p c with
      | .done a next => f a next
      | .failed next => .failed next
      | .halted cause next => .halted cause next := rfl

theorem bind_of_done {p : Parser α} {c next : Cursor} {a : α} (h : p c = .done a next)
    (f : α → Parser β) : (p >>= f) c = f a next := by
  rw [bind_apply, h]

theorem bind_of_failed {p : Parser α} {c next : Cursor} (h : p c = .failed next)
    (f : α → Parser β) : (p >>= f) c = .failed next := by
  rw [bind_apply, h]

theorem bind_of_halted {p : Parser α} {c next : Cursor} {cause : Halt}
    (h : p c = .halted cause next) (f : α → Parser β) : (p >>= f) c = .halted cause next := by
  rw [bind_apply, h]

/-- What is done in two parts. -/
theorem exists_of_bind_eq_done {p : Parser α} {f : α → Parser β} {c next : Cursor} {b : β}
    (h : (p >>= f) c = .done b next) : ∃ a mid, p c = .done a mid ∧ f a mid = .done b next := by
  cases hp : p c with
  | done a mid =>
    rw [bind_of_done hp] at h
    exact ⟨a, mid, rfl, h⟩
  | failed mid =>
    rw [bind_of_failed hp] at h
    cases h
  | halted cause mid =>
    rw [bind_of_halted hp] at h
    cases h

instance : LawfulMonad Parser := LawfulMonad.mk' Parser
  (fun p => by
    funext c
    change (p >>= fun a => Pure.pure a) c = p c
    rw [bind_apply]
    cases p c <;> rfl)
  (fun _ _ => rfl)
  (fun p f g => by
    funext c
    simp only [bind_apply]
    cases p c <;> rfl)

/-! ### Looking -/

/-- Something that can be seen from the cursor. -/
def look (f : Cursor → α) : Parser α := fun c => .done (f c) c

/-- Whether there is no more token. -/
def atEnd : Parser Bool := look (·.rest.isEmpty)

/-- Whether the next token has a given kind. -/
def nextIs (kind : Token.Kind) : Parser Bool := look (·.hasKind 0 kind)

/-- Whether the next token is a given word. -/
def nextIsWord (word : String) : Parser Bool := look (·.isWord 0 word)

/-- The kind of the next token. -/
def nextKind : Parser (Option Token.Kind) := look (·.rest.head?.map (·.token.kind))

/-- The text of the next token; empty after the last one. -/
def nextText : Parser String := look fun c => (c.rest.head?.map (·.token.text)).getD ""

/-- The offset at which the next token begins. -/
def nextStart : Parser Nat := look Cursor.nextStart

/-- From `start` to the end of the last token taken. -/
def spanFrom (start : Nat) : Parser Span := look (·.spanFrom start)

/-! ### Taking -/

/-- Reads nothing more. -/
def halt (cause : Halt) : Parser α := fun c => .halted cause c

/-- Reports that something is wrong at the next token, and fails. -/
def reject (kind : Diagnostic.Kind) (detail : Option String) : Parser α := fun c =>
  .failed (c.report kind detail)

/-- Records the comments before the next token, and gives their places. -/
def settle : Parser (List CommentId) := fun c =>
  .done (List.range' c.comments.length c.commentsAhead.length) c.settled

/-- Takes the next token. -/
def advance : Parser Token := fun c =>
  match c.rest with
  | [] => .halted .overrun c
  | l :: ls => .done l.token (c.took l ls)

/-- Takes the next token if it has a given kind, and says whether it has. -/
def eat (kind : Token.Kind) : Parser Bool := do
  if ← nextIs kind then
    let _ ← advance
    return true
  else return false

/-- Takes the next token if it is a given word, and says whether it is. -/
def eatWord (word : String) : Parser Bool := do
  if ← nextIsWord word then
    let _ ← advance
    return true
  else return false

/-- What a parser reads after a token of a given kind, if such a token stands ahead. -/
def after? (kind : Token.Kind) (p : Parser α) : Parser (Option α) := do
  if ← eat kind then
    let a ← p
    return some a
  else return none

/-- Takes the next token, which has to have a given kind. -/
def expect (kind : Token.Kind) (spelling : String) : Parser Token := do
  if ← nextIs kind then advance
  else reject .expectedToken (some spelling)

/-- Takes the next token, which has to be a given word. -/
def expectWord (word : String) : Parser Token := do
  if ← nextIsWord word then advance
  else reject .expectedToken (some word)

theorem look_bind_apply (view : Cursor → α) (f : α → Parser β) (c : Cursor) :
    (look view >>= f) c = f (view c) c := rfl

/-- A test that holds chooses the first branch. -/
theorem test_of_true {view : Cursor → Bool} {c : Cursor} (h : view c = true) (a b : Parser β) :
    (look view >>= fun yes => if yes = true then a else b) c = a c := by
  rw [look_bind_apply, h]
  rfl

/-- A test that does not hold chooses the second branch. -/
theorem test_of_not {view : Cursor → Bool} {c : Cursor} (h : ¬ view c = true) (a b : Parser β) :
    (look view >>= fun yes => if yes = true then a else b) c = b c := by
  rw [look_bind_apply, eq_false_of_ne_true h]
  rfl

theorem advance_of_rest {c : Cursor} {l : Lexeme} {ls : List Lexeme} (h : c.rest = l :: ls) :
    advance c = .done l.token (c.took l ls) := by
  rw [advance, h]

/-- A mark that comes next is taken. -/
theorem eat_of_hasKind {c : Cursor} {kind : Token.Kind} (h : c.hasKind 0 kind = true) {l : Lexeme}
    {ls : List Lexeme} (hrest : c.rest = l :: ls) : eat kind c = .done true (c.took l ls) := by
  rw [eat, nextIs, test_of_true h, bind_of_done (advance_of_rest hrest)]
  rfl

/-- Any other mark is left where it is. -/
theorem eat_of_not {c : Cursor} {kind : Token.Kind} (h : ¬ c.hasKind 0 kind = true) :
    eat kind c = .done false c := by
  rw [eat, nextIs, test_of_not h]
  rfl

theorem reject_bind (kind : Diagnostic.Kind) (detail : Option String) (f : α → Parser β) :
    (reject kind detail >>= f) = reject kind detail := rfl

/-- Eating a mark is a test and, if it holds, one lexeme taken. -/
theorem eat_bind (kind : Token.Kind) (f : Bool → Parser α) :
    (eat kind >>= f) =
      nextIs kind >>= fun yes => if yes = true then advance >>= fun _ => f true else f false := by
  simp only [eat, bind_assoc]
  congr 1
  funext yes
  cases yes <;> simp

theorem eatWord_bind (word : String) (f : Bool → Parser α) :
    (eatWord word >>= f) =
      nextIsWord word >>= fun yes =>
        if yes = true then advance >>= fun _ => f true else f false := by
  simp only [eatWord, bind_assoc]
  congr 1
  funext yes
  cases yes <;> simp

/-- Expecting a mark is a test that rejects where it does not hold. -/
theorem expect_bind (kind : Token.Kind) (spelling : String) (f : Token → Parser α) :
    (expect kind spelling >>= f) =
      nextIs kind >>= fun yes =>
        if yes = true then advance >>= f else reject .expectedToken (some spelling) := by
  simp only [expect, bind_assoc]
  congr 1
  funext yes
  cases yes <;> rfl

theorem expectWord_bind (word : String) (f : Token → Parser α) :
    (expectWord word >>= f) =
      nextIsWord word >>= fun yes =>
        if yes = true then advance >>= f else reject .expectedToken (some word) := by
  simp only [expectWord, bind_assoc]
  congr 1
  funext yes
  cases yes <;> rfl

/-! ### Repeating -/

/-- Runs a loop with one more round than there are tokens left. A round that is not the last takes
a token, so the rounds suffice. -/
def rounds (loop : Nat → Parser α) : Parser α := fun c => loop (c.rest.length + 1) c

/-- Operands, each after an operator of a given kind. -/
def operandsLoop (operator : Token.Kind) (operand : Parser α) : Nat → Parser (List α)
  | 0 => halt .overrun
  | n + 1 => do
    if ← eat operator then
      let first ← operand
      let more ← operandsLoop operator operand n
      return first :: more
    else return []

/-- Operands, each after an operator of a given kind. -/
def operands (operator : Token.Kind) (operand : Parser α) : Parser (List α) :=
  rounds (operandsLoop operator operand)

/-- Items with commas between them, up to a token of kind `close`; the last item may have a comma
after it. The first item without a comma after it is the last, whatever follows. -/
def itemsLoop (close : Token.Kind) (item : Parser α) : Nat → Parser (List α)
  | 0 => halt .overrun
  | n + 1 => do
    if ← nextIs close then return []
    else
      let first ← item
      if ← eat .comma then
        let more ← itemsLoop close item n
        return first :: more
      else return [first]

/-- Items with commas between them, up to a token of kind `close`. -/
def items (close : Token.Kind) (item : Parser α) : Parser (List α) :=
  rounds (itemsLoop close item)

/-- A first item and further ones after commas. -/
def commaSeparated (item : Parser α) : Parser (List α) := do
  let first ← item
  let more ← operands .comma item
  return first :: more

/-! ### Trying -/

/-- Goes on after a failure, from where it happened. -/
def recover (p : Parser α) : Parser (Option α) := fun c =>
  match p c with
  | .done a next => .done (some a) next
  | .failed next => .done none next
  | .halted cause next => .halted cause next

/-- Goes back after a failure, to the token and the comments before the attempt. What has been
reported stays reported. -/
def attempt (p : Parser α) : Parser (Option α) := fun c =>
  match p c with
  | .done a next => .done (some a) next
  | .failed next => .done none { next with rest := c.rest, comments := c.comments }
  | .halted cause next => .halted cause next

/-- An attempt is done with what has been read, or it has gone back. -/
theorem attempt_cases {p : Parser α} {c next : Cursor} {result : Option α}
    (h : attempt p c = .done result next) :
    (∃ a, result = some a ∧ p c = .done a next) ∨
      (result = none ∧ ∃ wrong, p c = .failed wrong ∧
        next = { wrong with rest := c.rest, comments := c.comments }) := by
  unfold attempt at h
  cases hp : p c with
  | done a mid =>
    rw [hp] at h
    cases h
    exact .inl ⟨a, rfl, rfl⟩
  | failed wrong =>
    rw [hp] at h
    cases h
    exact .inr ⟨rfl, wrong, rfl, rfl⟩
  | halted cause mid =>
    rw [hp] at h
    cases h

/-! ### Nesting -/

/-- Reads one level further in, and closes that level whatever the outcome; halts when `limit`
levels are open already. -/
def nesting (limit : Option Nat) (p : Parser α) : Parser α := fun c =>
  if limit.any (· ≤ c.depth) then .halted .tooDeep c
  else
    match p c.entered with
    | .done a next => .done a next.left
    | .failed next => .failed next.left
    | .halted cause next => .halted cause next.left

end Parser

end Reifier
