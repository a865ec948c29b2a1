import Stencil.Text.Bytes

/-!
# Scan errors

A `Fault` is the reason why a text is no template, with the text from the faulty place on.
A `ScanError` says the same with a byte offset, for people.

* `Fault.toError`       the error for a fault in a given source;
* `ScanError.message`   its wording.
-/

namespace Stencil.Markup

open Stencil.Text

/-! ## faults -/

/-- what can be wrong in an attribute list -/
inductive Malformation where
  /-- `=` where a key is expected -/
  | missingKey
  /-- a quoted value where a key is expected -/
  | bareValue
  /-- a `"` where a key is expected, never closed -/
  | strayQuote
  /-- the `"` of a value, never closed -/
  | unclosedValue
  /-- something else than `"` behind `=` -/
  | missingValue
  deriving DecidableEq, Repr

def Malformation.reason : Malformation → String
  | .missingKey => "expected attribute name before '='"
  | .bareValue => "quoted value without attribute name"
  | .strayQuote => "unexpected '\"' in attribute list"
  | .unclosedValue => "unterminated attribute value"
  | .missingValue => "expected '\"' to open attribute value"

inductive Fault where
  /-- the text from the first character on that cannot continue an attribute list -/
  | malformed (kind : Malformation) (rest : List Char)
  /-- a name and the text from its `<` on, in which the tag does not end -/
  | unterminated (name : List Char) (rest : List Char)
  deriving DecidableEq, Repr

/-- the text from the faulty place on -/
def Fault.rest : Fault → List Char
  | .malformed _ rest => rest
  | .unterminated _ rest => rest

/-! ## errors -/

inductive ScanError where
  | malformedAttribute (offset : Nat) (reason : String) (context : String)
  | unterminatedTag (offset : Nat) (tag : String)
  deriving DecidableEq, Repr

def notNewline (c : Char) : Bool := c != '\n'

/-- a text up to its first line break, which is a newline or a carriage return and a newline -/
def firstLine (s : List Char) : List Char :=
  let line := s.takeWhile notNewline
  if line.getLast? = some '\r' ∧ s.dropWhile notNewline ≠ [] then line.dropLast else line

/-- the error for a fault, whose place is as far from the end of the source as its rest is long -/
def Fault.toError (source : List Char) : Fault → ScanError
  | .malformed kind rest =>
    .malformedAttribute (bytes source - bytes rest) kind.reason (String.ofList (firstLine rest))
  | .unterminated name rest => .unterminatedTag (bytes source - bytes rest) (String.ofList name)

namespace ScanError

def offset : ScanError → Nat
  | malformedAttribute offset _ _ => offset
  | unterminatedTag offset _ => offset

def message : ScanError → String
  | malformedAttribute offset reason context =>
    s!"malformed attribute at {offset}: {reason}. Last scan at '{context}'"
  | unterminatedTag offset tag => s!"tag <{tag}> starting at {offset} is never closed with '>'"

end ScanError

end Stencil.Markup
