import Stencil.Text.Blank

/-!
# Lines of a source

A line ends after a line break, which belongs to it: a carriage return with or without a newline,
a newline, a vertical tab, a form feed, or one of the breaks U+0085, U+2028 and U+2029.

* `splitLines`   the lines of a text;
* `Line`         a line with its number and the offset of its first character;
* `lineAt`       the line that an offset belongs to.

All offsets here count characters.
-/

namespace Stencil.Text

def isBreak (c : Char) : Bool :=
  c == '\r' || c == '\n' || c == '\x0b' || c == '\x0c' || c == '\u0085' || c == '\u2028' ||
    c == '\u2029'

/-- a character at the start of the first line -/
def consLine (c : Char) : List (List Char) → List (List Char)
  | [] => [[c]]
  | l :: r => (c :: l) :: r

def splitLines : List Char → List (List Char)
  | [] => []
  | c :: r =>
    if c = '\r' ∧ r.head? = some '\n' then consLine c (splitLines r)
    else if isBreak c then [c] :: splitLines r
    else consLine c (splitLines r)

theorem flatten_consLine (c : Char) (ls : List (List Char)) :
    (consLine c ls).flatten = c :: ls.flatten := by
  cases ls <;> simp [consLine]

theorem flatten_splitLines (s : List Char) : (splitLines s).flatten = s := by
  induction s with
  | nil => rfl
  | cons c r ih =>
    simp only [splitLines]
    split
    · rw [flatten_consLine, ih]
    · split
      · simp [ih]
      · rw [flatten_consLine, ih]

/-! ## numbered lines -/

structure Line where
  /-- the number of lines before -/
  index : Nat
  /-- the offset of the first character -/
  start : Nat
  /-- the characters with the line break -/
  text : List Char
  deriving DecidableEq, Repr

namespace Line

/-- the offset behind the line break -/
def stop (l : Line) : Nat := l.start + l.text.length

/-- the text without the blanks at its end -/
def trimmed (l : Line) : List Char := (l.text.reverse.dropWhile isBlank).reverse

end Line

def numberFrom (index start : Nat) : List (List Char) → List Line
  | [] => []
  | t :: r => ⟨index, start, t⟩ :: numberFrom (index + 1) (start + t.length) r

def lines (s : List Char) : List Line := numberFrom 0 0 (splitLines s)

/-- the last line that starts at or before an offset in the text or at its end -/
def lineAt (s : List Char) (offset : Nat) : Option Line :=
  if offset ≤ s.length then ((lines s).filter fun l => decide (l.start ≤ offset)).getLast? else none

end Stencil.Text
