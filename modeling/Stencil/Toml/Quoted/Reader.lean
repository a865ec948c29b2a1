import Stencil.Toml.Reader

/-!
# Reading strings

* `basic`, `literal`           strings in one line, between `"` or `'`;
* `basicBlock`, `literalBlock` strings over several lines, between three of them;
* `Quoted.reader`              any of the four.

Escapes are read in the `"` forms only.  In a block, a line break behind the opening quotes is
left out, every other one is read as a newline, and up to two quotes may stand in front of the
closing ones.
-/

namespace Stencil.Toml.Quoted

open Reader

/-! ## characters -/

/-- a character that may stand in a string or comment: no control character, or a tab -/
def isPrintable (c : Char) : Bool := c == '\t' || (decide (0x20 ≤ c.toNat) && c != '\x7f')

def isBasicChar (c : Char) : Bool := isPrintable c && c != '"' && c != '\\'

def isLiteralChar (c : Char) : Bool := isPrintable c && c != '\''

def isSpace (c : Char) : Bool := c == ' ' || c == '\t'

def isHexDigit (c : Char) : Bool :=
  c.isDigit || (decide ('a' ≤ c) && decide (c ≤ 'f')) || (decide ('A' ≤ c) && decide (c ≤ 'F'))

def hexDigit (c : Char) : Nat :=
  if c.isDigit then c.toNat - '0'.toNat
  else if 'a' ≤ c then c.toNat - 'a'.toNat + 10
  else c.toNat - 'A'.toNat + 10

def hexValue (s : List Char) : Nat := s.foldl (fun n c => 16 * n + hexDigit c) 0

def newline : Reader Unit := char '\n' <|> exactly ['\r', '\n']

/-- the character with a code point that is written in `n` hexadecimal digits -/
def codePoint (n : Nat) : Reader Char := do
  let value := hexValue (← count isHexDigit n)
  if value.isValidChar then pure (Char.ofNat value) else failure

def escape : Reader Char := do
  char '\\'
  let c ← satisfy fun _ => true
  match c with
  | 'b' => pure '\x08'
  | 't' => pure '\t'
  | 'n' => pure '\n'
  | 'f' => pure '\x0c'
  | 'r' => pure '\r'
  | '"' => pure '"'
  | '\\' => pure '\\'
  | 'u' => codePoint 4
  | 'U' => codePoint 8
  | _ => failure

/-! ## strings in one line -/

def basic : Reader (List Char) := do
  char '"'
  let s ← many (satisfy isBasicChar <|> escape)
  char '"'
  pure s

def literal : Reader (List Char) := do
  char '\''
  let s ← takeWhile isLiteralChar
  char '\''
  pure s

/-! ## blocks -/

/-- a backslash at the end of a line, with all blanks and line breaks behind it -/
def lineContinuation : Reader (List Char) := do
  char '\\'
  let _ ← takeWhile isSpace
  newline
  let _ ← many ((do let _ ← satisfy isSpace) <|> newline)
  pure []

/-- succeeds, without taking text, in front of a character other than `quote` -/
def beforeOther (quote : Char) : Reader Unit
  | [] => none
  | c :: r => if c = quote then none else some ((), c :: r)

/-- succeeds, without taking text, in front of three quotes -/
def beforeClosing (quote : Char) : Reader Unit := fun s =>
  if [quote, quote, quote].isPrefixOf s then some ((), s) else none

/-- one or two quotes in front of what `next` asks for -/
def quotes (quote : Char) (next : Reader Unit) : Reader (List Char) :=
  (do exactly [quote, quote]; next; pure [quote, quote]) <|> (do char quote; next; pure [quote])

/-- a block of the given content -/
def block (quote : Char) (content : Reader (List Char)) : Reader (List Char) := do
  exactly [quote, quote, quote]
  let _ ← optional newline
  let body ← many (content <|> quotes quote (beforeOther quote))
  let last ← optional (quotes quote (beforeClosing quote))
  exactly [quote, quote, quote]
  pure (body.flatten ++ last.getD [])

def newlineText : Reader (List Char) := do
  newline
  pure ['\n']

def basicBlock : Reader (List Char) :=
  block '"' (takeSome isBasicChar <|> lineContinuation <|> (([·]) <$> escape) <|> newlineText)

def literalBlock : Reader (List Char) :=
  block '\'' (takeSome isLiteralChar <|> newlineText)

/-! ## strings -/

/-- a string in one line -/
def line : Reader String := String.ofList <$> (basic <|> literal)

def reader : Reader String :=
  String.ofList <$> (basicBlock <|> basic <|> literalBlock <|> literal)

end Stencil.Toml.Quoted
