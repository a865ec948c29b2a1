import Stencil.Toml.Node
import Stencil.Toml.Quoted.Reader

/-!
# TOML documents

* `key`          a dotted key;
* `value`        a value, with arrays and inline tables up to a given depth;
* `Statement`    a line that matters: an entry or a header;
* `statements`   the statements of a document;
* `parse`        the table that a document describes.

Values nest up to `depthLimit` and keys have as many parts at most.
-/

namespace Stencil.Toml

open Reader Quoted

/-- the greatest depth of a value, and the greatest number of parts of a key -/
def depthLimit : Nat := 79

/-! ## blanks -/

def spaces : Reader Unit := do
  let _ ← takeWhile isSpace

def comment : Reader Unit := do
  char '#'
  let _ ← takeWhile isPrintable

/-- a line break or the end of the text -/
def lineEnd : Reader Unit := newline <|> finished

/-- what may stand behind an entry or a header -/
def lineRest : Reader Unit := do
  spaces
  let _ ← optional comment
  lineEnd

/-- blanks, line breaks and comments between the parts of an array -/
def arrayBlanks : Reader Unit := do
  let _ ← many ((do let _ ← takeSome isSpace) <|> newline <|> (do comment; newline))

/-! ## keys -/

def isBareKeyChar (c : Char) : Bool := c.isAlphanum || c == '_' || c == '-'

def simpleKey : Reader String := line <|> (String.ofList <$> takeSome isBareKeyChar)

def key : Reader (List String) := do
  let parts ← sepBy1 (do spaces; let k ← simpleKey; spaces; pure k) (char '.')
  if parts.length ≤ depthLimit then pure parts else failure

/-! ## numbers -/

/-- digits with single underscores between them, which are left out -/
def underscored (p : Char → Bool) : Reader (List Char) := do
  let c ← satisfy p
  return c :: (← many (satisfy p <|> (do char '_'; satisfy p)))

def isSign (c : Char) : Bool := c == '+' || c == '-'

def sign : Reader (List Char) := do
  let s ← optional (satisfy isSign)
  pure s.toList

/-- a whole number without leading zeros -/
def wholeDigits : Reader (List Char) := do
  let c ← satisfy Char.isDigit
  if c = '0' then pure [c]
  else return c :: (← many (satisfy Char.isDigit <|> (do char '_'; satisfy Char.isDigit)))

def signedDigits : Reader (List Char) := do
  let s ← sign
  return s ++ (← wholeDigits)

def exponentPart : Reader (List Char) := do
  let e ← satisfy fun c => c == 'e' || c == 'E'
  let s ← sign
  return e :: (s ++ (← underscored Char.isDigit))

def fractionPart : Reader (List Char) := do
  char '.'
  return '.' :: (← underscored Char.isDigit)

/-- a decimal with a fraction or an exponent; it must not be too large for a finite number, but it
may be too far below zero -/
def decimal : Reader Value := do
  let whole ← signedDigits
  let fraction ← optional fractionPart
  let exponent ← if fraction.isSome then optional exponentPart else some <$> exponentPart
  match Binary64.ofText? (whole ++ (fraction.getD [] ++ exponent.getD [])) with
  | some (.infinite false) => failure
  | some x => pure (.float x)
  | none => failure

/-- an infinity, or not a number -/
def specialFloat : Reader Value := do
  let s ← sign
  let name ← (do exactly "inf".toList; pure "inf".toList) <|>
    (do exactly "nan".toList; pure "nan".toList)
  match Binary64.ofText? (s ++ name) with
  | some x => pure (.float x)
  | none => failure

/-- the number of integers in 64 bits that are not negative -/
def integerBound : Int := 0x8000000000000000

/-- an integer in 64 bits -/
def ofInt? (n : Int) : Reader Value :=
  if -integerBound ≤ n ∧ n < integerBound then pure (.integer n) else failure

def radixInteger (mark : Char) (radix : Nat) (p : Char → Bool) : Reader Value := do
  exactly ['0', mark]
  let s ← underscored p
  ofInt? (s.foldl (fun n c => radix * n + hexDigit c) 0 : Nat)

def decimalInteger : Reader Value := do
  let s ← sign
  let n := Binary64.digitsValue (← wholeDigits)
  ofInt? (if s = ['-'] then -(n : Int) else n)

def integer : Reader Value :=
  radixInteger 'x' 16 isHexDigit <|>
  radixInteger 'o' 8 (fun c => decide ('0' ≤ c) && decide (c ≤ '7')) <|>
  radixInteger 'b' 2 (fun c => c == '0' || c == '1') <|>
  decimalInteger

def number : Reader Value :=
  (.datetime <$> Datetime.reader) <|> decimal <|> specialFloat <|> integer

/-! ## values -/

def boolean : Reader Value :=
  (do exactly "true".toList; pure (.boolean true)) <|>
  (do exactly "false".toList; pure (.boolean false))

/-- an array with items of the given kind; a comma may follow the last one -/
def array (item : Reader Value) : Reader Value := do
  char '['
  let items ← sepBy (do arrayBlanks; let v ← item; arrayBlanks; pure v) (char ',')
  if !items.isEmpty then
    let _ ← optional (char ',')
  arrayBlanks
  char ']'
  pure (.array items)

/-- a table in one line with values of the given kind -/
def inlineTable (item : Reader Value) : Reader Value := do
  char '\x7b'
  let pairs ← sepBy (do
    let k ← key
    char '='
    spaces
    let v ← item
    spaces
    pure (k, v)) (char ',')
  spaces
  char '\x7d'
  match inlineTable? pairs with
  | some v => pure v
  | none => failure

/-- a value with arrays and inline tables nested at most `depth` deep -/
def value : Nat → Reader Value
  | 0 => (.string <$> Quoted.reader) <|> boolean <|> number
  | depth + 1 =>
    (.string <$> Quoted.reader) <|> array (value depth) <|> inlineTable (value depth) <|>
      boolean <|> number

/-! ## documents -/

inductive Statement where
  /-- `key = value` -/
  | entry (key : List String) (v : Value)
  /-- `[path]` -/
  | table (path : List String)
  /-- `[[path]]` -/
  | element (path : List String)

def entry : Reader Statement := do
  let k ← key
  char '='
  spaces
  let v ← value depthLimit
  lineRest
  pure (.entry k v)

def header : Reader Statement := do
  char '['
  let path ← key
  char ']'
  lineRest
  pure (.table path)

def elementHeader : Reader Statement := do
  exactly ['[', '[']
  let path ← key
  exactly [']', ']']
  lineRest
  pure (.element path)

/-- a line without a statement -/
def idleLine : Reader Unit := (do comment; lineEnd) <|> newline

def statements : Reader (List Statement) := do
  let _ ← optional (char '\uFEFF')
  spaces
  let found ← many (do
    let s ← (do idleLine; pure none) <|> (some <$> (elementHeader <|> header <|> entry))
    spaces
    pure s)
  finished
  pure (found.filterMap id)

/-- the tables read so far, and the path of the section that is being read -/
structure Progress where
  root : Nodes
  path : List String

/-- a change of the table that a header names, in the table that it belongs to -/
def openAt (change : String → Nodes → Option Nodes) (path : List String) (root : Nodes) :
    Option Nodes :=
  path.getLast?.bind fun k => alter (change k) path.dropLast root

def Progress.step (p : Progress) : Statement → Option Progress
  | .entry k v => (alter (setDotted v true k) p.path p.root).map fun root => ⟨root, p.path⟩
  | .table path => (openAt openTable path p.root).map fun root => ⟨root, path⟩
  | .element path => (openAt openElement path p.root).map fun root => ⟨root, path⟩

/-- the table that statements describe, unless one of them contradicts another -/
def tableOf? (l : List Statement) : Option Table :=
  (l.foldlM Progress.step ⟨[], []⟩).map fun p => finish p.root

/-- the table that a document describes -/
def parse (text : String) : Option Table :=
  (statements.whole? text.toList).bind tableOf?

end Stencil.Toml
