/-!
# Readers

A reader takes something off the start of a text, or fails and takes nothing.

* `Reader`                       text in, answer and rest of the text out;
* `char`, `exactly`, `count`     characters that have to be there;
* `takeWhile`, `takeSome`        runs of characters;
* `many`, `sepBy`                repetition, as long as the reader succeeds;
* `Reader.whole?`                the answer for a text that is read to its end.
-/

namespace Stencil.Toml

abbrev Reader (α : Type) : Type := StateT (List Char) Option α

namespace Reader

variable {α : Type}

def satisfy (p : Char → Bool) : Reader Char
  | [] => none
  | c :: r => if p c then some (c, r) else none

def char (c : Char) : Reader Unit := do
  let _ ← satisfy (· == c)

def exactly : List Char → Reader Unit
  | [] => pure ()
  | c :: r => do
    char c
    exactly r

def takeWhile (p : Char → Bool) : Reader (List Char) :=
  fun s => some (s.takeWhile p, s.dropWhile p)

/-- a run of at least one character -/
def takeSome (p : Char → Bool) : Reader (List Char) := do
  let c ← satisfy p
  return c :: (← takeWhile p)

/-- exactly `n` characters, as long as `p` holds of each -/
def count (p : Char → Bool) : Nat → Reader (List Char)
  | 0 => pure []
  | n + 1 => do
    let c ← satisfy p
    return c :: (← count p n)

/-- answers of `x`, at most `n` -/
def atMost (x : Reader α) : Nat → Reader (List α)
  | 0 => pure []
  | n + 1 => fun s =>
    match x s with
    | none => some ([], s)
    | some (a, r) => (atMost x n r).map fun p => (a :: p.1, p.2)

/-- answers of `x` for as long as it succeeds; `x` has to take text when it does -/
def many (x : Reader α) : Reader (List α) := fun s => atMost x s.length s

def sepBy1 (x : Reader α) (separator : Reader Unit) : Reader (List α) := do
  let a ← x
  return a :: (← many (do separator; x))

def sepBy (x : Reader α) (separator : Reader Unit) : Reader (List α) :=
  sepBy1 x separator <|> pure []

/-- the end of the text -/
def finished : Reader Unit
  | [] => some ((), [])
  | _ :: _ => none

/-- the answer for a text that is read to its end -/
def whole? (x : Reader α) (s : List Char) : Option α :=
  match x s with
  | some (a, []) => some a
  | _ => none

end Reader

end Stencil.Toml
