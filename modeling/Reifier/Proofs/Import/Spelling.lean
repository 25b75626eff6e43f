import Mathlib.Tactic
import Reifier.Program.Printer
import Reifier.Proofs.Program.Unplaced
import Reifier.Proofs.Token.Words

/-!
# How imports are spelled

A spelling says which words an import is written with: the word for its kind, its specifiers in the
order of the grammar, each of those in braces with a mark or without one, a comma behind the last of
them or none, the token of its path, and a semicolon or none. What it means is an import at no place
in particular.

Printing forgets most of this: the plain spelling has no marks, no name twice, no empty braces, its
path between single quotes, and a semicolon (`ImportSpelling.plain`). It means the same, and what a
spelling means is printed as the plain one is written (`write_plain`).
-/

namespace Reifier

open Token (Word)

/-! ### Spellings -/

/-- The word that is a name. -/
def Token.Word.name (text : String) : Word := ⟨.identifier, text⟩

/-- The words that say what an import brings in. -/
def ImportKind.words : ImportKind → List Word
  | value => []
  | type => [.name "type"]
  | typeOf => [.name "typeof"]

/-- A specifier in braces: its mark, if it has one, the name that is imported, and the name behind
`as`. -/
structure NamedSpelling where
  mark : ImportKind
  imported : String
  bound : Option String

/-- What may stand behind a default specifier; `comma` says whether one stands before the closing
brace. -/
inductive FurtherSpelling where
  | star (id : String)
  | braces (named : List NamedSpelling) (comma : Bool)

/-- The specifiers of an import. -/
inductive ClauseSpelling where
  | default (id : String)
  | further (more : FurtherSpelling)
  | both (id : String) (more : FurtherSpelling)

/-- An import as it is written; `source` is the token of its path. -/
structure ImportSpelling where
  kind : ImportKind
  clause : Option ClauseSpelling
  source : String
  semicolon : Bool

/-! ### Words -/

namespace NamedSpelling

def words (s : NamedSpelling) : List Word :=
  s.mark.words ++ .name s.imported ::
    match s.bound with
    | none => []
    | some id => [.name "as", .name id]

/-- The names in a specifier. -/
def names (s : NamedSpelling) : List String := s.imported :: s.bound.toList

/-- What a specifier means. -/
def specifier (s : NamedSpelling) : ImportSpecifier :=
  .named ⟨s.imported, .point 0⟩ ⟨s.bound.getD s.imported, .point 0⟩

/-- Without a mark, and without a name twice. -/
def plain (s : NamedSpelling) : NamedSpelling :=
  ⟨.value, s.imported, s.bound.filter (· ≠ s.imported)⟩

end NamedSpelling

namespace FurtherSpelling

def words : FurtherSpelling → List Word
  | star id => [.sign .star, .name "as", .name id]
  | braces named comma =>
    .sign .braceOpen :: (Word.separated .comma (named.map NamedSpelling.words) ++
      ((if comma then [.sign .comma] else []) ++ [.sign .braceClose]))

def names : FurtherSpelling → List String
  | star id => [id]
  | braces named _ => named.flatMap NamedSpelling.names

def specifiers : FurtherSpelling → List ImportSpecifier
  | star id => [.star ⟨id, .point 0⟩]
  | braces named _ => named.map NamedSpelling.specifier

/-- The specifiers in braces. -/
def named : FurtherSpelling → List NamedSpelling
  | star _ => []
  | braces named _ => named

/-- Empty braces are left out. -/
def plain : FurtherSpelling → Option FurtherSpelling
  | star id => some (star id)
  | braces named _ =>
    if named.isEmpty then none else some (braces (named.map NamedSpelling.plain) false)

end FurtherSpelling

namespace ClauseSpelling

def words : ClauseSpelling → List Word
  | default id => [.name id]
  | further more => more.words
  | both id more => .name id :: .sign .comma :: more.words

def names : ClauseSpelling → List String
  | default id => [id]
  | further more => more.names
  | both id more => id :: more.names

def specifiers : ClauseSpelling → List ImportSpecifier
  | default id => [.default ⟨id, .point 0⟩]
  | further more => more.specifiers
  | both id more => .default ⟨id, .point 0⟩ :: more.specifiers

def named : ClauseSpelling → List NamedSpelling
  | default _ => []
  | further more => more.named
  | both _ more => more.named

def plain : ClauseSpelling → Option ClauseSpelling
  | default id => some (default id)
  | further more => more.plain.map further
  | both id more => some ((more.plain.map (both id)).getD (default id))

end ClauseSpelling

namespace ImportSpelling

/-- The specifiers of an import with the word behind them. -/
def clauseWords (sp : ImportSpelling) : List Word :=
  match sp.clause with
  | none => []
  | some clause => clause.words ++ [.name "from"]

def words (sp : ImportSpelling) : List Word :=
  .name "import" :: (sp.kind.words ++ (sp.clauseWords ++
    ⟨.string, sp.source⟩ :: if sp.semicolon then [.sign .semicolon] else []))

def names (sp : ImportSpelling) : List String := (sp.clause.map ClauseSpelling.names).getD []

def specifiers (sp : ImportSpelling) : List ImportSpecifier :=
  (sp.clause.map ClauseSpelling.specifiers).getD []

/-- The specifiers in braces. -/
def named (sp : ImportSpelling) : List NamedSpelling :=
  (sp.clause.map ClauseSpelling.named).getD []

/-- What a spelling means. -/
def meaning (sp : ImportSpelling) : Import :=
  ⟨sp.kind, sp.specifiers, ⟨Text.unquote sp.source, .point 0⟩, .point 0⟩

/-- The spelling that is printed for what a spelling means. -/
def plain (sp : ImportSpelling) : ImportSpelling where
  kind := sp.kind
  clause := sp.clause.bind ClauseSpelling.plain
  source := Text.quote (Text.unquote sp.source)
  semicolon := true

end ImportSpelling

/-- An import is spelled so, wherever it stands. -/
def Import.SpelledBy (decl : Import) (sp : ImportSpelling) : Prop := decl.unplaced = sp.meaning

/-! ### The words of a spelling -/

private theorem ImportKind.valid_words (kind : ImportKind) : ∀ w ∈ kind.words, w.Valid := by
  cases kind with
  | value => exact List.forall_mem_nil _
  | type => exact List.forall_mem_singleton.mpr (.name (by decide))
  | typeOf => exact List.forall_mem_singleton.mpr (.name (by decide))

/-- The words of a specifier are valid if its names are identifiers. The cases are its ways of being
written. -/
private theorem NamedSpelling.valid_words {s : NamedSpelling}
    (h : ∀ n ∈ s.names, Name.isIdentifier n = true) : ∀ w ∈ s.words, w.Valid := by
  obtain ⟨mark, imported, bound⟩ := s
  obtain ⟨himported, hbound⟩ := List.forall_mem_cons.mp h
  refine List.forall_mem_append.mpr ⟨mark.valid_words, ?_⟩
  refine List.forall_mem_cons.mpr ⟨.name himported, ?_⟩
  cases bound with
  | none => exact List.forall_mem_nil _
  | some id =>
    have hid : Name.isIdentifier id = true := hbound id (Option.mem_toList.mpr rfl)
    exact List.forall_mem_cons.mpr ⟨.name (by decide), List.forall_mem_singleton.mpr (.name hid)⟩

/-- The names of a specifier are among its words. -/
private theorem NamedSpelling.name_mem_words {s : NamedSpelling} {n : String} (h : n ∈ s.names) :
    .name n ∈ s.words := by
  obtain ⟨mark, imported, bound⟩ := s
  refine List.mem_append_right _ ?_
  obtain rfl | hn := List.mem_cons.mp h
  · exact List.mem_cons_self
  · obtain rfl : bound = some n := Option.mem_toList.mp hn
    exact List.mem_cons_of_mem _ (List.mem_cons_of_mem _ List.mem_cons_self)

namespace FurtherSpelling

/-- The words of further specifiers are valid if their names are identifiers. -/
private theorem valid_words {more : FurtherSpelling}
    (h : ∀ n ∈ more.names, Name.isIdentifier n = true) : ∀ w ∈ more.words, w.Valid := by
  have hsign : ∀ kind ∈ [Token.Kind.star, .comma, .braceOpen, .braceClose],
      (Word.sign kind).Valid := fun kind hkind => by
    refine .sign ?_
    revert kind
    decide
  cases more with
  | star id =>
    refine List.forall_mem_cons.mpr ⟨hsign _ (by decide), ?_⟩
    refine List.forall_mem_cons.mpr ⟨.name (by decide), ?_⟩
    exact List.forall_mem_singleton.mpr (.name (h id List.mem_cons_self))
  | braces named comma =>
    refine List.forall_mem_cons.mpr ⟨hsign _ (by decide), List.forall_mem_append.mpr ⟨?_, ?_⟩⟩
    · refine Word.forall_mem_separated (hsign _ (by decide)) (List.forall_mem_map.mpr ?_)
      exact fun s hs => NamedSpelling.valid_words fun n hn => h n (List.mem_flatMap.mpr ⟨s, hs, hn⟩)
    · refine List.forall_mem_append.mpr ⟨?_, List.forall_mem_singleton.mpr (hsign _ (by decide))⟩
      split
      · exact List.forall_mem_singleton.mpr (hsign _ (by decide))
      · exact List.forall_mem_nil _

private theorem name_mem_words {more : FurtherSpelling} {n : String} (h : n ∈ more.names) :
    .name n ∈ more.words := by
  cases more with
  | star id =>
    obtain rfl := List.mem_singleton.mp h
    exact List.mem_cons_of_mem _ (List.mem_cons_of_mem _ List.mem_cons_self)
  | braces named comma =>
    obtain ⟨s, hs, hn⟩ := List.mem_flatMap.mp h
    refine List.mem_cons_of_mem _ (List.mem_append_left _ ?_)
    exact Word.mem_separated .comma (List.mem_map_of_mem hs) (NamedSpelling.name_mem_words hn)

end FurtherSpelling

/-- The words of a clause are valid if its names are identifiers. -/
private theorem ClauseSpelling.valid_words {clause : ClauseSpelling}
    (h : ∀ n ∈ clause.names, Name.isIdentifier n = true) : ∀ w ∈ clause.words, w.Valid := by
  cases clause with
  | default id => exact List.forall_mem_singleton.mpr (.name (h id List.mem_cons_self))
  | further more => exact FurtherSpelling.valid_words h
  | both id more =>
    obtain ⟨hid, hmore⟩ := List.forall_mem_cons.mp h
    refine List.forall_mem_cons.mpr ⟨.name hid, List.forall_mem_cons.mpr ⟨.sign (by decide), ?_⟩⟩
    exact FurtherSpelling.valid_words hmore

private theorem ClauseSpelling.name_mem_words {clause : ClauseSpelling} {n : String}
    (h : n ∈ clause.names) : .name n ∈ clause.words := by
  cases clause with
  | default id => exact List.mem_singleton.mpr (congrArg Word.name (List.mem_singleton.mp h))
  | further more => exact FurtherSpelling.name_mem_words h
  | both id more =>
    obtain rfl | hn := List.mem_cons.mp h
    · exact List.mem_cons_self
    · exact List.mem_cons_of_mem _ (List.mem_cons_of_mem _ (FurtherSpelling.name_mem_words hn))

namespace ImportSpelling

variable {sp : ImportSpelling}

/-- The words of an import are valid if its names are identifiers and its path is the quoted form of
a string. -/
private theorem valid_words {value : String} (hsource : sp.source = Text.quote value)
    (h : ∀ n ∈ sp.names, Name.isIdentifier n = true) : ∀ w ∈ sp.words, w.Valid := by
  obtain ⟨kind, clause, source, semicolon⟩ := sp
  obtain rfl : source = Text.quote value := hsource
  refine List.forall_mem_cons.mpr ⟨.name (by decide), ?_⟩
  refine List.forall_mem_append.mpr ⟨kind.valid_words, List.forall_mem_append.mpr ⟨?_, ?_⟩⟩
  · cases clause with
    | none => exact List.forall_mem_nil _
    | some clause =>
      refine List.forall_mem_append.mpr ⟨ClauseSpelling.valid_words h, ?_⟩
      exact List.forall_mem_singleton.mpr (.name (by decide))
  · refine List.forall_mem_cons.mpr ⟨.quoted value, ?_⟩
    dsimp only
    split
    · exact List.forall_mem_singleton.mpr (.sign (by decide))
    · exact List.forall_mem_nil _

/-- The names of an import are among its words. -/
theorem name_mem_words {n : String} (h : n ∈ sp.names) : .name n ∈ sp.words := by
  obtain ⟨kind, clause, source, semicolon⟩ := sp
  cases clause with
  | none => exact absurd h List.not_mem_nil
  | some clause =>
    refine List.mem_cons_of_mem _ (List.mem_append_right _ (List.mem_append_left _ ?_))
    exact List.mem_append_left _ (ClauseSpelling.name_mem_words h)

end ImportSpelling

/-! ### Plain spellings -/

/-- The specifier has no mark, and no name twice. -/
structure NamedSpelling.IsPlain (s : NamedSpelling) : Prop where
  mark : s.mark = .value
  bound : s.bound ≠ some s.imported

/-- There is something in the braces, and nothing behind the last specifier. -/
def FurtherSpelling.IsPlain : FurtherSpelling → Prop
  | star _ => True
  | braces named comma => named ≠ [] ∧ comma = false ∧ ∀ s ∈ named, s.IsPlain

def ClauseSpelling.IsPlain : ClauseSpelling → Prop
  | default _ => True
  | further more => more.IsPlain
  | both _ more => more.IsPlain

/-- The import is spelled as it would be printed. -/
structure ImportSpelling.IsPlain (sp : ImportSpelling) : Prop where
  clause : ∀ clause ∈ sp.clause, clause.IsPlain
  source : sp.source = Text.quote (Text.unquote sp.source)
  semicolon : sp.semicolon = true

/-- The plain spelling of a specifier is plain, means the same and spells no new name. -/
private theorem NamedSpelling.plain_spec (s : NamedSpelling) :
    s.plain.IsPlain ∧ s.plain.specifier = s.specifier ∧ s.plain.names ⊆ s.names := by
  obtain ⟨mark, imported, bound⟩ := s
  cases bound with
  | none => exact ⟨⟨rfl, Option.some_ne_none _ ∘ Eq.symm⟩, rfl, List.Subset.refl _⟩
  | some id =>
    -- A second name that is the first one again is left out.
    by_cases hid : id = imported
    · have hbound : (some id).filter (· ≠ imported) = none := by simp [hid]
      refine ⟨⟨rfl, ?_⟩, ?_, ?_⟩
      · dsimp only [plain]
        rw [hbound]
        exact nofun
      · dsimp only [plain, specifier]
        rw [hbound, hid]
        rfl
      · dsimp only [plain, names]
        rw [hbound]
        exact List.cons_subset_cons _ (List.nil_subset _)
    · have hbound : (some id).filter (· ≠ imported) = some id := by simp [hid]
      refine ⟨⟨rfl, ?_⟩, ?_, ?_⟩
      · dsimp only [plain]
        rw [hbound]
        exact fun heq => hid (Option.some.inj heq)
      · dsimp only [plain, specifier]
        rw [hbound]
      · dsimp only [plain, names]
        rw [hbound]
        exact List.Subset.refl _

/-- The plain spelling of further specifiers means the same; there is none exactly where they bind
nothing. -/
private theorem FurtherSpelling.plain_spec (more : FurtherSpelling) :
    (∀ p ∈ more.plain, p.IsPlain ∧ p.specifiers = more.specifiers ∧ p.names ⊆ more.names) ∧
      (more.plain = none → more.specifiers = []) := by
  cases more with
  | star id => exact ⟨by rintro _ ⟨⟩; exact ⟨trivial, rfl, List.Subset.refl _⟩, nofun⟩
  | braces named comma =>
    by_cases hempty : named = []
    · subst hempty
      exact ⟨nofun, fun _ => rfl⟩
    · have hplain : (braces named comma).plain =
          some (braces (named.map NamedSpelling.plain) false) :=
        if_neg (mt List.isEmpty_iff.mp hempty)
      rw [hplain]
      refine ⟨?_, nofun⟩
      rintro _ ⟨⟩
      refine ⟨⟨mt List.map_eq_nil_iff.mp hempty, rfl, ?_⟩, ?_, ?_⟩
      · exact List.forall_mem_map.mpr fun s _ => s.plain_spec.1
      · rw [specifiers, specifiers, List.map_map]
        exact List.map_congr_left fun s _ => s.plain_spec.2.1
      · intro n hn
        obtain ⟨_, hmem, hn⟩ := List.mem_flatMap.mp hn
        obtain ⟨s, hs, rfl⟩ := List.mem_map.mp hmem
        exact List.mem_flatMap.mpr ⟨s, hs, s.plain_spec.2.2 hn⟩

/-- The specifiers in braces are spelled plainly one by one. -/
private theorem FurtherSpelling.named_plain (more : FurtherSpelling) :
    (more.plain.map named).getD [] = more.named.map NamedSpelling.plain := by
  rcases more with id | ⟨named, comma⟩
  · rfl
  · cases named <;> rfl

/-- The plain spelling of a clause means the same; there is none where it binds nothing. -/
private theorem ClauseSpelling.plain_spec (clause : ClauseSpelling) :
    (∀ p ∈ clause.plain, p.IsPlain ∧ p.specifiers = clause.specifiers ∧ p.names ⊆ clause.names) ∧
      (clause.plain = none → clause.specifiers = []) := by
  cases clause with
  | default id => exact ⟨by rintro _ ⟨⟩; exact ⟨trivial, rfl, List.Subset.refl _⟩, nofun⟩
  | further more =>
    obtain ⟨hsome, hnone⟩ := more.plain_spec
    rw [plain]
    cases hplain : more.plain with
    | none => exact ⟨nofun, fun _ => hnone hplain⟩
    | some p => exact ⟨by rintro _ ⟨⟩; exact hsome p hplain, nofun⟩
  | both id more =>
    obtain ⟨hsome, hnone⟩ := more.plain_spec
    refine ⟨?_, nofun⟩
    rintro _ ⟨⟩
    cases hplain : more.plain with
    | none =>
      rw [specifiers, hnone hplain]
      exact ⟨trivial, rfl, List.cons_subset_cons _ (List.nil_subset _)⟩
    | some p =>
      obtain ⟨hp, hspecifiers, hnames⟩ := hsome p hplain
      refine ⟨hp, ?_, List.cons_subset_cons _ hnames⟩
      exact congrArg (ImportSpecifier.default ⟨id, .point 0⟩ :: ·) hspecifiers

private theorem ClauseSpelling.named_plain (clause : ClauseSpelling) :
    (clause.plain.map named).getD [] = clause.named.map NamedSpelling.plain := by
  cases clause with
  | default id => rfl
  | further more =>
    rw [plain, Option.map_map]
    exact more.named_plain
  | both id more =>
    rw [named, ← more.named_plain, plain]
    cases more.plain <;> rfl

namespace ImportSpelling

variable {sp : ImportSpelling}

/-- The plain spelling of an import is plain. -/
theorem isPlain_plain (sp : ImportSpelling) : sp.plain.IsPlain where
  clause clause h := by
    obtain ⟨c, -, hc⟩ := Option.bind_eq_some_iff.mp h
    exact (c.plain_spec.1 clause hc).1
  source := congrArg Text.quote (Text.unquote_quote _).symm
  semicolon := rfl

/-- Only what has no meaning is left out. -/
theorem specifiers_plain (sp : ImportSpelling) : sp.plain.specifiers = sp.specifiers := by
  unfold specifiers plain
  cases sp.clause with
  | none => rfl
  | some clause =>
    obtain ⟨hsome, hnone⟩ := clause.plain_spec
    cases hplain : clause.plain with
    | none => simp [hplain, hnone hplain]
    | some p => simp [hplain, (hsome p hplain).2.1]

/-- Each specifier in braces loses its mark, and a name that it repeats. -/
theorem named_plain (sp : ImportSpelling) : sp.plain.named = sp.named.map NamedSpelling.plain := by
  obtain ⟨kind, clause, source, semicolon⟩ := sp
  cases clause with
  | none => rfl
  | some clause => exact clause.named_plain

/-- The plain spelling of an import means the same. -/
theorem meaning_plain (sp : ImportSpelling) : sp.plain.meaning = sp.meaning := by
  have hsource : Text.unquote sp.plain.source = Text.unquote sp.source := Text.unquote_quote _
  unfold meaning
  rw [specifiers_plain, hsource]
  rfl

/-- The plain spelling of an import spells no new name. -/
private theorem names_plain_subset (sp : ImportSpelling) : sp.plain.names ⊆ sp.names := by
  unfold names plain
  cases sp.clause with
  | none => exact List.Subset.refl _
  | some clause =>
    cases hplain : clause.plain with
    | none => simp [hplain]
    | some p => simpa [hplain] using (clause.plain_spec.1 p hplain).2.2

/-- The words of the plain spelling are valid if the names of the import are identifiers. -/
theorem valid_plain (h : ∀ n ∈ sp.names, Name.isIdentifier n = true) :
    ∀ w ∈ sp.plain.words, w.Valid :=
  valid_words rfl fun n hn => h n (sp.names_plain_subset hn)

end ImportSpelling

/-! ### Writing -/

namespace Token

/-- Kinds of words between which a blank is written. -/
def roomy : List Kind := [.identifier, .string, .braceOpen, .braceClose, .star]

/-- Behind a roomy word or a comma, the words `ws` are written as a blank and `cs`, whatever
follows. -/
def Writes (ws : List Word) (cs : List Char) : Prop :=
  ∀ left ∈ .comma :: roomy, ∃ last ∈ .comma :: roomy, ∀ vs : List Word,
    writeAfter left (ws ++ vs) = ' ' :: (cs ++ writeAfter last vs)

/-- Between roomy words a blank is written. -/
private theorem gap_roomy {left right : Kind} (hleft : left ∈ .comma :: roomy)
    (hright : right ∈ roomy) : gap left right = [' '] := by
  have hall : ∀ left ∈ .comma :: roomy, ∀ right ∈ roomy, gap left right = [' '] := by decide
  exact hall left hleft right hright

namespace Writes

variable {ws ws' : List Word} {cs cs' : List Char}

/-- A roomy word is written as its text. -/
theorem word {w : Word} (h : w.kind ∈ roomy) : Writes [w] w.text.toList := by
  intro left hleft
  refine ⟨w.kind, List.mem_cons_of_mem _ h, fun vs => ?_⟩
  rw [List.singleton_append, writeAfter, gap_roomy hleft h]
  rfl

theorem name (text : String) : Writes [.name text] text.toList :=
  word (List.mem_cons_self (a := Kind.identifier))

/-- Texts are written one behind the other, with a blank between them. -/
theorem append (h : Writes ws cs) (h' : Writes ws' cs') :
    Writes (ws ++ ws') (cs ++ ' ' :: cs') := by
  intro left hleft
  obtain ⟨mid, hmid, hws⟩ := h left hleft
  obtain ⟨last, hlast, hws'⟩ := h' mid hmid
  refine ⟨last, hlast, fun vs => ?_⟩
  rw [List.append_assoc, hws, hws', List.append_assoc, List.cons_append]

/-- A comma is written right behind the words before it. -/
private theorem comma (h : Writes ws cs) : Writes (ws ++ [.sign .comma]) (cs ++ [',']) := by
  intro left hleft
  obtain ⟨mid, -, hws⟩ := h left hleft
  refine ⟨.comma, List.mem_cons_self, fun vs => ?_⟩
  have hgap : gap mid .comma = [] := by cases mid <;> rfl
  have hcomma : writeAfter mid (.sign .comma :: vs) = ',' :: writeAfter .comma vs := by
    rw [writeAfter]
    exact congrArg (· ++ _) hgap
  rw [List.append_assoc, hws, List.singleton_append, hcomma, List.append_assoc,
    List.singleton_append]

/-- Texts with commas between them, of which each has a blank behind it. -/
theorem separated {wss : List (List Word)} {parts : List (List Char)}
    (h : List.Forall₂ Writes wss parts) (hne : wss ≠ []) :
    Writes (Word.separated .comma wss) ([',', ' '].intercalate parts) := by
  induction h with
  | nil => exact absurd rfl hne
  | @cons ws cs wss parts hws hwss ih =>
    cases hwss with
    | nil => rwa [Word.separated_singleton, List.intercalate_singleton]
    | @cons vs cs' wss parts hvs hwss =>
      have hall := hws.comma.append (ih (List.cons_ne_nil vs wss))
      rw [List.append_assoc, List.append_assoc] at hall
      rwa [Word.separated_cons_cons, List.intercalate_cons_cons, List.append_assoc]

end Writes

end Token

open Token (Writes)

/-- A specifier in braces is written as it is printed. -/
private theorem NamedSpelling.writes {s : NamedSpelling} (h : s.IsPlain) :
    ∃ text, Import.namedSpecifier? s.specifier = some text ∧ Writes s.words text.toList := by
  obtain ⟨mark, imported, bound⟩ := s
  obtain rfl : mark = .value := h.mark
  cases bound with
  | none => exact ⟨imported, by simp [Import.namedSpecifier?, specifier], .name imported⟩
  | some id =>
    have hne : imported ≠ id := fun heq => h.bound (congrArg some heq.symm)
    refine ⟨imported ++ " as " ++ id, congrArg some (if_neg hne), ?_⟩
    have hall := (Writes.name imported).append ((Writes.name "as").append (.name id))
    have htext : (imported ++ " as " ++ id).toList =
        imported.toList ++ ' ' :: ("as".toList ++ ' ' :: id.toList) := by simp
    rwa [htext]

namespace FurtherSpelling

/-- Several specifiers in braces are printed as one part of a clause. -/
private theorem exists_texts {named : List NamedSpelling} (h : ∀ s ∈ named, s.IsPlain) :
    ∃ texts, (named.map NamedSpelling.specifier).filterMap Import.namedSpecifier? = texts ∧
      (named.map NamedSpelling.specifier).filterMap Import.outerSpecifier? = [] ∧
      List.Forall₂ Writes (named.map NamedSpelling.words) (texts.map String.toList) := by
  induction named with
  | nil => exact ⟨[], rfl, rfl, .nil⟩
  | cons s named ih =>
    obtain ⟨hs, hnamed⟩ := List.forall_mem_cons.mp h
    obtain ⟨text, htext, hwrites⟩ := NamedSpelling.writes hs
    obtain ⟨texts, htexts, houter, hall⟩ := ih hnamed
    refine ⟨text :: texts, ?_, ?_, .cons hwrites hall⟩
    · rw [List.map_cons, List.filterMap_cons_some htext, htexts]
    · rw [List.map_cons, List.filterMap_cons_none rfl, houter]

/-- What stands behind a default specifier is written as it is printed. -/
private theorem writes {more : FurtherSpelling} (h : more.IsPlain) :
    Writes more.words (Import.clause more.specifiers).toList ∧ more.specifiers ≠ [] := by
  cases more with
  | star id =>
    have htext : (Import.clause (star id).specifiers).toList =
        "*".toList ++ ' ' :: ("as".toList ++ ' ' :: id.toList) := by
      simp [Import.clause, specifiers, Import.outerSpecifier?, Import.namedSpecifier?]
    have hstar : Writes [.sign .star] "*".toList := Writes.word (by decide)
    rw [htext]
    exact ⟨hstar.append ((Writes.name "as").append (.name id)), List.cons_ne_nil _ _⟩
  | braces named comma =>
    obtain ⟨hne, rfl, hnamed⟩ := h
    obtain ⟨texts, htexts, houter, hall⟩ := exists_texts hnamed
    -- Plain braces are not empty, and so they are printed.
    have hsome : texts.isEmpty = false := by
      refine Bool.eq_false_iff.mpr fun hempty => hne ?_
      rw [List.isEmpty_iff.mp hempty] at hall
      exact List.map_eq_nil_iff.mp (List.forall₂_nil_right_iff.mp hall)
    have htext : (Import.clause (braces named false).specifiers).toList =
        ("\x7b".toList ++ ' ' :: [',', ' '].intercalate (texts.map String.toList)) ++
          ' ' :: "\x7d".toList := by
      simp [Import.clause, specifiers, htexts, houter, hsome, String.toList_intercalate]
    have hopen : Writes [.sign .braceOpen] "\x7b".toList := Writes.word (by decide)
    have hclose : Writes [.sign .braceClose] "\x7d".toList := Writes.word (by decide)
    have hnames := Writes.separated hall (mt List.map_eq_nil_iff.mp hne)
    rw [htext]
    exact ⟨(hopen.append hnames).append hclose, mt List.map_eq_nil_iff.mp hne⟩

end FurtherSpelling

/-- A default specifier is printed before all others, with a comma behind it. -/
private theorem Import.clause_default_cons (id : Identifier) {specifiers : List ImportSpecifier}
    (h : specifiers ≠ []) :
    clause (.default id :: specifiers) = id.name ++ ", " ++ clause specifiers := by
  have hparts : specifiers.filterMap outerSpecifier? ++
      (if (specifiers.filterMap namedSpecifier?).isEmpty then []
        else ["\x7b " ++ ", ".intercalate (specifiers.filterMap namedSpecifier?) ++ " \x7d"]) ≠
        [] := by
    obtain ⟨s, ss, rfl⟩ := List.exists_cons_of_ne_nil h
    cases s with
    | default id => simp [outerSpecifier?]
    | star id => simp [outerSpecifier?]
    | named imported id => simp [List.filterMap_cons, namedSpecifier?]
  obtain ⟨part, parts, hparts⟩ := List.exists_cons_of_ne_nil hparts
  have houter : (ImportSpecifier.default id :: specifiers).filterMap outerSpecifier? =
      id.name :: specifiers.filterMap outerSpecifier? := rfl
  have hnamed : (ImportSpecifier.default id :: specifiers).filterMap namedSpecifier? =
      specifiers.filterMap namedSpecifier? := rfl
  unfold clause
  rw [houter, hnamed]
  dsimp only
  rw [List.cons_append, hparts, String.intercalate_cons_cons]

/-- **A plain clause is written as the printer writes its specifiers.** The cases are its forms: the
default import, the others, or both. -/
private theorem ClauseSpelling.writes {clause : ClauseSpelling} (h : clause.IsPlain) :
    Writes clause.words (Import.clause clause.specifiers).toList ∧ clause.specifiers ≠ [] := by
  cases clause with
  | default id =>
    have htext : Import.clause (default id).specifiers = id := by
      simp [Import.clause, specifiers, Import.outerSpecifier?, Import.namedSpecifier?]
    rw [htext]
    exact ⟨.name id, List.cons_ne_nil _ _⟩
  | further more => exact FurtherSpelling.writes h
  | both id more =>
    have hplain : more.IsPlain := h
    obtain ⟨hmore, hne⟩ := FurtherSpelling.writes hplain
    have htext : (Import.clause (both id more).specifiers).toList =
        id.toList ++ [','] ++ ' ' :: (Import.clause more.specifiers).toList := by
      rw [specifiers, Import.clause_default_cons _ hne]
      simp
    rw [htext]
    exact ⟨(Writes.name id).comma.append hmore, List.cons_ne_nil _ _⟩

/-- The word for a kind is written as it is printed. -/
private theorem ImportKind.writes (kind : ImportKind) {ws : List Word} {cs : List Char}
    (h : Writes ws cs) : Writes (kind.words ++ ws) (kind.render.toList ++ cs) := by
  cases kind with
  | value => exact h
  | type => exact (Writes.name "type").append h
  | typeOf => exact (Writes.name "typeof").append h

/-- What is printed does not tell where an import stands. -/
private theorem Import.render_unplaced (decl : Import) : decl.unplaced.render = decl.render := by
  have houter : outerSpecifier? ∘ ImportSpecifier.unplaced = outerSpecifier? := by
    funext s
    cases s <;> rfl
  have hnamed : namedSpecifier? ∘ ImportSpecifier.unplaced = namedSpecifier? := by
    funext s
    cases s <;> rfl
  have hclause : clause (decl.specifiers.map ImportSpecifier.unplaced) =
      clause decl.specifiers := by
    rw [clause, List.filterMap_map, List.filterMap_map, houter, hnamed, clause]
  unfold render unplaced
  rw [hclause, List.isEmpty_map]
  rfl

namespace ImportSpelling

variable {sp : ImportSpelling}

/-- **A plain spelling is written as what it means is printed.** -/
theorem write_words (h : sp.IsPlain) : Token.write sp.words = sp.meaning.render := by
  obtain ⟨kind, clause, source, semicolon⟩ := sp
  obtain rfl : semicolon = true := h.semicolon
  have hsource : Writes [⟨.string, source⟩] (Text.quote (Text.unquote source)).toList := by
    rw [← h.source]
    exact .word (List.mem_cons_of_mem _ List.mem_cons_self)
  have hsemicolon : ∀ kind, Token.tight kind (Word.sign .semicolon).kind = true := by
    intro kind
    cases kind <;> rfl
  -- What is written between the first word and the semicolon.
  have hbetween : ∃ ws text, (words ⟨kind, clause, source, true⟩) =
      .name "import" :: ws ++ [.sign .semicolon] ∧ Writes ws text ∧
      (meaning ⟨kind, clause, source, true⟩).render.toList =
        "import".toList ++ (' ' :: text ++ [';']) := by
    cases clause with
    | none =>
      refine ⟨_, _, by simp [words, clauseWords], kind.writes hsource, ?_⟩
      simp [Import.render, meaning, specifiers]
    | some clause =>
      obtain ⟨hclause, hne⟩ := ClauseSpelling.writes (h.clause clause rfl)
      have hempty : clause.specifiers.isEmpty = false := by
        rwa [← Bool.not_eq_true, List.isEmpty_iff]
      have hline := (hclause.append (.name "from")).append hsource
      refine ⟨_, _, by simp [words, clauseWords], kind.writes hline, ?_⟩
      simp [Import.render, meaning, specifiers, hempty]
  obtain ⟨ws, text, hwords, hwrites, hrender⟩ := hbetween
  obtain ⟨last, -, hws⟩ := hwrites .identifier (List.mem_cons_of_mem _ List.mem_cons_self)
  have hline : Token.writeAfter .identifier ws = ' ' :: text := by
    simpa [Token.writeAfter] using hws []
  refine String.toList_injective ?_
  rw [Token.toList_write, hwords, Token.writeAfter_concat hsemicolon, hrender, Token.writeAfter]
  exact congrArg ("import".toList ++ · ++ [';']) hline

/-- A plain spelling has a clause exactly if something is imported. -/
theorem IsPlain.clause_eq_none_iff (h : sp.IsPlain) : sp.clause = none ↔ sp.specifiers = [] := by
  obtain ⟨kind, clause, source, semicolon⟩ := sp
  cases clause with
  | none => exact ⟨fun _ => rfl, fun _ => rfl⟩
  | some clause =>
    exact ⟨nofun, fun hnil => absurd hnil (ClauseSpelling.writes (h.clause clause rfl)).2⟩

/-- **An import is printed as its plain spelling is written.** -/
theorem write_plain {decl : Import} (h : decl.SpelledBy sp) :
    Token.write sp.plain.words = decl.render := by
  rw [write_words (isPlain_plain sp), meaning_plain, ← h, Import.render_unplaced]

end ImportSpelling

end Reifier
