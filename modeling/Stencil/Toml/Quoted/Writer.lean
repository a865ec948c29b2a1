/-!
# Writing strings

A string is written in the plainest form that can hold it: `"…"` without escapes, then `'…'`, then
the same over several lines, and at last `"` with escapes.

* `Form`           how a string is quoted;
* `stringForm`     the form of a value, `keyForm` that of a key;
* `escaped`        text with escapes;
* `write`          a text in a given form.
-/

namespace Stencil.Toml.Quoted

/-! ## forms -/

/-- how a text is quoted -/
inductive Form where
  /-- between `"`, in one line -/
  | basic
  /-- between `'`, in one line -/
  | literal
  /-- between `"""` -/
  | basicBlock
  /-- between `'''` -/
  | literalBlock
  deriving DecidableEq, Repr

/-- a control character other than a tab or a newline -/
def isControl (c : Char) : Bool :=
  (decide (c.toNat < 0x20) && c != '\t' && c != '\n') || c == '\x7f'

/-- whether three quotes stand side by side somewhere -/
def hasTriple (quote : Char) : List Char → Bool
  | a :: b :: c :: r => (a == quote && b == quote && c == quote) || hasTriple quote (b :: c :: r)
  | _ => false

/-- the form of a string value -/
def stringForm (s : List Char) : Form :=
  let control := s.any isControl
  let backslash := s.contains '\\'
  let broken := s.contains '\n'
  if !control && !backslash && !s.contains '"' && !broken then .basic
  else if !control && !s.contains '\'' && !broken then .literal
  else if !control && !backslash && !hasTriple '"' s then .basicBlock
  else if !control && !hasTriple '\'' s then .literalBlock
  else if broken then .basicBlock
  else .basic

/-- the form of a key that needs quotes; keys are written in one line -/
def keyForm (s : List Char) : Form :=
  let control := s.any fun c => isControl c || c == '\n'
  if !control && !s.contains '\\' && !s.contains '"' then .basic
  else if !control && !s.contains '\'' then .literal
  else .basic

/-! ## escapes -/

def hexUpper (n : Nat) : Char := (Nat.digitChar n).toUpper

/-- a character between `"`, where `quotes` quotes stand side by side just before it -/
def escapedChar (isBlock : Bool) (quotes : Nat) (c : Char) : List Char :=
  match c with
  | '\x08' => ['\\', 'b']
  | '\t' => ['\\', 't']
  | '\x0c' => ['\\', 'f']
  | '\r' => ['\\', 'r']
  | '\\' => ['\\', '\\']
  | '\n' => if isBlock then ['\n'] else ['\\', 'n']
  | '"' => if isBlock && decide (quotes < 2) then ['"'] else ['\\', '"']
  | _ =>
    if isControl c then ['\\', 'u', '0', '0', hexUpper (c.toNat / 16), hexUpper (c.toNat % 16)]
    else [c]

/-- the quotes side by side after a character; an escaped quote starts anew -/
def quotesAfter (isBlock : Bool) (quotes : Nat) (c : Char) : Nat :=
  if c = '"' then if isBlock && decide (quotes < 2) then quotes + 1 else 0 else 0

/-- text with escapes -/
def escaped (isBlock : Bool) : Nat → List Char → List Char
  | _, [] => []
  | quotes, c :: r =>
    escapedChar isBlock quotes c ++ escaped isBlock (quotesAfter isBlock quotes c) r

/-! ## whole strings -/

def Form.quote : Form → List Char
  | basic => ['"']
  | literal => ['\'']
  | basicBlock => ['"', '"', '"']
  | literalBlock => ['\'', '\'', '\'']

def Form.isBlock : Form → Bool
  | basicBlock => true
  | literalBlock => true
  | _ => false

def Form.body (form : Form) (s : List Char) : List Char :=
  match form with
  | basic => escaped false 0 s
  | basicBlock => escaped true 0 s
  | _ => s

/-- a text in quotes; a block that has line breaks starts on a line of its own -/
def write (form : Form) (s : List Char) : List Char :=
  let opening := if form.isBlock && s.contains '\n' then form.quote ++ ['\n'] else form.quote
  opening ++ form.body s ++ form.quote

end Stencil.Toml.Quoted
