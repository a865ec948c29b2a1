import Stencil.Dict
import Stencil.Manifest.Basic
import Stencil.Toml.Document
import Stencil.Toml.Printer
import Stencil.Toml.Record

/-!
# Manifests as text

A manifest file is a TOML document with a string `root` and the arrays `component` and `global`.

* `Manifest.ofTable?`, `Manifest.toTable`   a manifest from and to the table of its document;
* `Manifest.ofText`, `Manifest.toText`      the same for texts;
* `Manifest.ofFile`                         the manifest of a file's content.

Other keys of a component are kept, in order of their names.
-/

namespace Stencil

open Stencil.Toml

/-! ## reading -/

def Reference.fieldNames : List String := ["tag", "component"]

/-- a reference from a table, or from an array of its fields -/
def Reference.ofValue? (v : Value) : Option Reference := do
  let es ← v.fields? fieldNames
  if !onlyFields fieldNames es then none
  let tag ← required? es "tag" Value.text?
  let component ← required? es "component" Value.text?
  pure ⟨tag, component⟩

def references? (v : Value) : Option (List Reference) :=
  v.items?.bind fun vs => vs.mapM Reference.ofValue?

def Entry.fieldNames : List String := ["name", "template", "children"]

/-- a component from a table; what is not a field of its own is kept -/
def Entry.ofValue? : Value → Option Entry
  | .table es => do
    let name ← required? es "name" Value.text?
    let template ← field? es "template" "" Value.text?
    let children ← field? es "children" [] references?
    let extra ← OrderedTable.read? (es.filter fun e => !fieldNames.contains e.1)
    pure ⟨name, template, children, extra⟩
  | _ => none

namespace Manifest

def fieldNames : List String := ["root", "component", "global"]

def ofTable? (t : Table) : Option Manifest := do
  if !onlyFields fieldNames t then none
  let root ← required? t "root" Value.text?
  let components ← field? t "component" [] fun v =>
    v.items?.bind fun vs => vs.mapM Entry.ofValue?
  let globals ← field? t "global" [] references?
  pure ⟨root, components, globals⟩

def ofText (text : String) : Except Error Manifest :=
  match (parse text).bind ofTable? with
  | some m => .ok m
  | none => .error .malformed

/-- the manifest of a file's content, or the reason why there is none -/
def ofFile (content : Except String String) : Except Error Manifest :=
  match content with
  | .error cause => .error (.unreadable cause)
  | .ok text => ofText text

end Manifest

/-! ## writing -/

def Reference.toValue (r : Reference) : Value :=
  .table [("tag", .string r.tag), ("component", .string r.component)]

/-- the entries for a list of references; an empty list is left out -/
def referencesAt (key : String) (l : List Reference) : Table :=
  if l.isEmpty then [] else [(key, .array (l.map Reference.toValue))]

/-- a component as a table; another key of the same name as a field replaces its value -/
def Entry.toValue (e : Entry) : Value :=
  let fixed := [("name", .string e.name), ("template", .string e.template)] ++
    referencesAt "children" e.children
  .table (e.extra.entries.foldl (fun t p => put p.1 p.2 t) fixed)

namespace Manifest

def toTable (m : Manifest) : Table :=
  [("root", .string m.root), ("component", .array (m.components.map Entry.toValue))] ++
    referencesAt "global" m.globals

def toText (m : Manifest) : String := print m.toTable

end Manifest

end Stencil
