import Stencil.Toml.Value

/-!
# Records in TOML

How values are taken as records of named fields, texts, and lists.

* `Value.fields?`   the fields of a record: a table, or an array of them in a fixed order;
* `onlyFields`      whether all fields have known names;
* `field?`          a field that may be missing;
* `Value.text?`, `Value.texts?`, `Value.items?`   the content of a value of one type.
-/

namespace Stencil.Toml

namespace Value

def text? : Value → Option String
  | .string s => some s
  | _ => none

def items? : Value → Option (List Value)
  | .array xs => some xs
  | _ => none

/-- an array of strings -/
def texts? (v : Value) : Option (List String) := v.items?.bind fun xs => xs.mapM text?

/-- the fields of a record; an array has them in the order of `names`, and more items are left
out -/
def fields? (names : List String) : Value → Option Table
  | .table es => some es
  | .array xs => some (names.zip xs)
  | _ => none

end Value

def onlyFields (names : List String) (es : Table) : Bool := es.all fun e => names.contains e.1

/-- what `read` makes of a field, or `default` if the field is missing -/
def field? {α : Type} (es : Table) (name : String) (default : α) (read : Value → Option α) :
    Option α :=
  match es.lookup name with
  | none => some default
  | some v => read v

/-- what `read` makes of a field that has to be there -/
def required? {α : Type} (es : Table) (name : String) (read : Value → Option α) : Option α :=
  (es.lookup name).bind read

end Stencil.Toml
