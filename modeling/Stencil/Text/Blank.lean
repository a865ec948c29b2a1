/-!
# Blank characters and words

The blank characters are those with the property White_Space.

* `isBlank`     the property itself, from the table `blankRanges`;
* `trimStart`   a text without its leading blanks;
* `words`       the maximal runs of characters that are not blank.
-/

namespace Stencil.Text

/-- the code points with the property White_Space, as closed ranges -/
def blankRanges : List (Nat × Nat) :=
  [(0x9, 0xD), (0x20, 0x20), (0x85, 0x85), (0xA0, 0xA0), (0x1680, 0x1680), (0x2000, 0x200A),
   (0x2028, 0x2029), (0x202F, 0x202F), (0x205F, 0x205F), (0x3000, 0x3000)]

def isBlank (c : Char) : Bool :=
  blankRanges.any fun r => decide (r.1 ≤ c.toNat) && decide (c.toNat ≤ r.2)

def isAllBlank (s : List Char) : Bool := s.all isBlank

def trimStart (s : List Char) : List Char := s.dropWhile isBlank

/-! ## words -/

/-- puts a word in front of others, unless it is empty -/
def consWord (w : List Char) (ws : List (List Char)) : List (List Char) :=
  if w.isEmpty then ws else w :: ws

/-- the word at the start, which may be empty, and the words after it -/
def wordsFrom : List Char → List Char × List (List Char)
  | [] => ([], [])
  | c :: r =>
    let p := wordsFrom r
    if isBlank c then ([], consWord p.1 p.2) else (c :: p.1, p.2)

def words (s : List Char) : List (List Char) := consWord (wordsFrom s).1 (wordsFrom s).2

theorem words_nil : words [] = [] := rfl

theorem words_cons_blank {c : Char} (h : isBlank c = true) (s : List Char) :
    words (c :: s) = words s := by
  simp [words, wordsFrom, h, consWord]

end Stencil.Text
