import Stencil.Text.Blank
import Stencil.Markup.Lexeme

/-!
# The tokens of templates

Outside of opening tags only a `<` matters; inside of them the text is an attribute list.

* `MarkupToken.lexer`   `<` with or without a name right behind it, all other text is skipped;
* `AttrToken.lexer`     keys, `=`, quoted values, `/` and `>`, blanks are skipped.

A quoted value ends at the next `"`, there are no escapes.  A `"` that has no other behind it
takes the rest of the text as one `unclosed` token.
-/

namespace Stencil.Markup

open Stencil.Text

/-! ## markup -/

inductive MarkupToken where
  /-- `<` and the name behind it -/
  | tagOpen
  /-- a `<` without a name -/
  | lessThan
  deriving DecidableEq, Repr

/-- the characters of a tag name -/
def isNameChar (c : Char) : Bool := !(isBlank c || c == '/' || c == '<' || c == '>')

def notLessThan (c : Char) : Bool := c != '<'

def MarkupToken.next? (s : List Char) : Option (Lexeme MarkupToken × List Char) :=
  let gap := s.takeWhile notLessThan
  match s.dropWhile notLessThan with
  | [] => none
  | c :: r =>
    let name := r.takeWhile isNameChar
    if name.isEmpty then some (⟨gap, .lessThan, [c]⟩, r)
    else some (⟨gap, .tagOpen, c :: name⟩, r.dropWhile isNameChar)

/-- a token is cut off in one of two ways at the first character behind the gap -/
theorem MarkupToken.next?_cases {s r : List Char} {l : Lexeme MarkupToken}
    (h : MarkupToken.next? s = some (l, r)) :
    ∃ c t, s.dropWhile notLessThan = c :: t ∧
      (l = ⟨s.takeWhile notLessThan, .lessThan, [c]⟩ ∧ r = t ∨
        l = ⟨s.takeWhile notLessThan, .tagOpen, c :: t.takeWhile isNameChar⟩ ∧
          r = t.dropWhile isNameChar) := by
  unfold MarkupToken.next? at h
  cases hs : s.dropWhile notLessThan with
  | nil =>
    rw [hs] at h
    cases h
  | cons c t =>
    refine ⟨c, t, rfl, ?_⟩
    simp only [hs] at h
    split at h
    · cases h
      exact .inl ⟨rfl, rfl⟩
    · cases h
      exact .inr ⟨rfl, rfl⟩

def MarkupToken.lexer : Lexer MarkupToken where
  next? := MarkupToken.next?
  lossless := by
    intro s l r h
    have hs := List.takeWhile_append_dropWhile (p := notLessThan) (l := s)
    obtain ⟨c, t, ht, ⟨rfl, rfl⟩ | ⟨rfl, rfl⟩⟩ := MarkupToken.next?_cases h
    · rwa [Lexeme.render, List.append_assoc, List.singleton_append, ← ht]
    · rwa [Lexeme.render, List.append_assoc, List.cons_append, List.takeWhile_append_dropWhile,
        ← ht]
  progress := by
    intro s l r h
    obtain ⟨c, t, _, ⟨rfl, _⟩ | ⟨rfl, _⟩⟩ := MarkupToken.next?_cases h
    · exact List.cons_ne_nil _ _
    · exact List.cons_ne_nil _ _

/-! ## attribute lists -/

inductive AttrToken where
  | key
  | equals
  /-- a value with its quotes -/
  | quoted
  | slash
  | close
  /-- a `"` that is never closed, and all text behind it -/
  | unclosed
  deriving DecidableEq, Repr

/-- the characters of an attribute key -/
def isKeyChar (c : Char) : Bool :=
  !(isBlank c || c == '/' || c == '>' || c == '=' || c == '"')

def notQuote (c : Char) : Bool := c != '"'

/-- the token at the start of a text that does not start with a blank, and the text after it -/
def AttrToken.first? : List Char → Option (AttrToken × List Char × List Char)
  | [] => none
  | c :: r =>
    if c = '=' then some (.equals, [c], r)
    else if c = '/' then some (.slash, [c], r)
    else if c = '>' then some (.close, [c], r)
    else if c = '"' then
      match r.dropWhile notQuote with
      | [] => some (.unclosed, c :: r, [])
      | q :: t => some (.quoted, c :: (r.takeWhile notQuote ++ [q]), t)
    else some (.key, c :: r.takeWhile isKeyChar, r.dropWhile isKeyChar)

theorem AttrToken.first?_lossless {s text r : List Char} {k : AttrToken}
    (h : AttrToken.first? s = some (k, text, r)) : text ++ r = s ∧ text ≠ [] := by
  cases s with
  | nil => cases h
  | cons c t =>
    rw [AttrToken.first?] at h
    split at h
    · cases h
      exact ⟨rfl, List.cons_ne_nil _ _⟩
    split at h
    · cases h
      exact ⟨rfl, List.cons_ne_nil _ _⟩
    split at h
    · cases h
      exact ⟨rfl, List.cons_ne_nil _ _⟩
    split at h
    · cases hq : t.dropWhile notQuote with
      | nil =>
        rw [hq] at h
        cases h
        exact ⟨List.append_nil _, List.cons_ne_nil _ _⟩
      | cons q u =>
        rw [hq] at h
        cases h
        refine ⟨?_, List.cons_ne_nil _ _⟩
        rw [List.cons_append, List.append_assoc, List.singleton_append, ← hq,
          List.takeWhile_append_dropWhile]
    · cases h
      exact ⟨by rw [List.cons_append, List.takeWhile_append_dropWhile], List.cons_ne_nil _ _⟩

def AttrToken.next? (s : List Char) : Option (Lexeme AttrToken × List Char) :=
  match AttrToken.first? (trimStart s) with
  | none => none
  | some (k, text, r) => some (⟨s.takeWhile isBlank, k, text⟩, r)

/-- a token is the first one behind the blanks -/
theorem AttrToken.first?_of_next? {s r : List Char} {l : Lexeme AttrToken}
    (h : AttrToken.next? s = some (l, r)) :
    l.gap = s.takeWhile isBlank ∧ AttrToken.first? (trimStart s) = some (l.kind, l.text, r) := by
  unfold AttrToken.next? at h
  cases hs : AttrToken.first? (trimStart s) with
  | none =>
    rw [hs] at h
    cases h
  | some p =>
    obtain ⟨k, text, t⟩ := p
    rw [hs] at h
    cases h
    exact ⟨rfl, rfl⟩

def AttrToken.lexer : Lexer AttrToken where
  next? := AttrToken.next?
  lossless := by
    intro s l r h
    obtain ⟨hgap, hfirst⟩ := AttrToken.first?_of_next? h
    rw [Lexeme.render, List.append_assoc, (AttrToken.first?_lossless hfirst).1, hgap]
    exact List.takeWhile_append_dropWhile
  progress := by
    intro s l r h
    exact (AttrToken.first?_lossless (AttrToken.first?_of_next? h).2).2

end Stencil.Markup
