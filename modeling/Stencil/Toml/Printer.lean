import Stencil.Toml.Quoted.Writer
import Stencil.Toml.Value

/-!
# Writing TOML documents

Within a table the plain entries come first, then its tables and arrays of tables, depth first.

* `keyText`          a key, quoted if it has to be;
* `Value.inlineText` a value on the right of an `=`;
* `isSection`        the values that are written under headers of their own;
* `print`            a document.

A table that holds nothing but other tables gets no header, unless it is empty or an element of an
array.  A blank line stands in front of every header.
-/

namespace Stencil.Toml

/-! ## keys -/

def isBare (s : List Char) : Bool :=
  !s.isEmpty && s.all fun c => c.isAlphanum || c == '_' || c == '-'

def keyText (k : String) : String :=
  let s := k.toList
  if isBare s then k else String.ofList (Quoted.write (Quoted.keyForm s) s)

def pathText (path : List String) : String := ".".intercalate (path.map keyText)

/-! ## values -/

def stringText (s : String) : String :=
  String.ofList (Quoted.write (Quoted.stringForm s.toList) s.toList)

mutual

def Value.inlineText : Value → String
  | .string s => stringText s
  | .integer n => toString n
  | .float x => x.plainText
  | .boolean b => if b then "true" else "false"
  | .datetime d => d.text
  | .array xs => String.join ["[", ", ".intercalate (itemTexts xs), "]"]
  | .table [] => "\x7b\x7d"
  | .table es => String.join ["\x7b ", ", ".intercalate (entryTexts es), " \x7d"]

def itemTexts : List Value → List String
  | [] => []
  | x :: xs => x.inlineText :: itemTexts xs

/-- entries as `key = value` -/
def entryTexts : List (String × Value) → List String
  | [] => []
  | (k, x) :: es => String.join [keyText k, " = ", x.inlineText] :: entryTexts es

end

/-! ## sections -/

def Value.isTable : Value → Bool
  | .table _ => true
  | _ => false

/-- tables, and arrays of at least one element that hold nothing but tables -/
def Value.isSection : Value → Bool
  | .table _ => true
  | .array xs => !xs.isEmpty && xs.all Value.isTable
  | _ => false

/-- the plain entries of a table, one in a line -/
def plainLines (es : List (String × Value)) : String :=
  String.join ((entryTexts (es.filter fun e => !e.2.isSection)).map fun line => line ++ "\n")

/-- whether a table needs its header: it has plain entries, or none at all -/
def needsHeader (es : List (String × Value)) : Bool :=
  es.isEmpty || es.any fun e => !e.2.isSection

def tableHeader (path : List String) : String := String.join ["\n[", pathText path, "]\n"]

def elementHeading (path : List String) : String := String.join ["\n[[", pathText path, "]]\n"]

mutual

/-- the sections of a value under the given path -/
def Value.sections (path : List String) : Value → String
  | .table es =>
    (if needsHeader es then tableHeader path else "") ++ plainLines es ++ sections path es
  | .array xs => elementSections path xs
  | _ => ""

/-- the sections of the entries of a table -/
def sections (path : List String) : List (String × Value) → String
  | [] => ""
  | (k, x) :: es =>
    (if x.isSection then x.sections (path ++ [k]) else "") ++ sections path es

/-- the sections of the elements of an array of tables -/
def elementSections (path : List String) : List Value → String
  | [] => ""
  | .table es :: xs =>
    elementHeading path ++ plainLines es ++ sections path es ++ elementSections path xs
  | _ :: xs => elementSections path xs

end

/-- the document of a table -/
def print (t : Table) : String := plainLines t ++ sections [] t

end Stencil.Toml
