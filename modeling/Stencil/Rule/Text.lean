import Stencil.Rule.Set
import Stencil.Toml.Document
import Stencil.Toml.Record

/-!
# Rule sets as text

A rule file is a TOML document with a table `metadata` and an array `rule`.

* `Rule.ofValue?`        one rule;
* `RuleSet.ofTable?`     name, description and rules of a file;
* `RuleSet.ofText`       the rule set of a text;
* `RuleSet.ofFile`       the rule set of a file's content, if the file could be read.
-/

namespace Stencil

open Stencil.Toml

namespace Rule

def fieldNames : List String :=
  ["tags", "insert", "remove", "remove_prefix", "rename", "ensure_class"]

/-- new keys by old keys; a date or time counts as a table with its text -/
def renameOf? : Value → Option (Dict String)
  | .table es => (es.mapM fun e : String × Value => e.2.text?.map fun s => (e.1, s)).map Dict.ofList
  | .datetime d => some (Dict.ofList [(datetimeKey, d.text)])
  | _ => none

/-- a rule from a table, or from an array of its fields -/
def ofValue? (v : Value) : Option Rule := do
  let es ← v.fields? fieldNames
  if !onlyFields fieldNames es then none
  let tags ← field? es "tags" [] Value.texts?
  let insert ← field? es "insert" none fun v => v.text?.map some
  let remove ← field? es "remove" [] Value.texts?
  let removePrefix ← field? es "remove_prefix" [] Value.texts?
  let rename ← field? es "rename" Dict.empty renameOf?
  let ensureClass ← field? es "ensure_class" none fun v => v.text?.map some
  pure ⟨tags, insert, remove, removePrefix, rename, ensureClass⟩

end Rule

namespace RuleSet

/-- name and description; as an array, both have to be there, and a date or time has neither -/
def metadataOf? : Value → Option (Option String × Option String)
  | .table es => do
    let name ← field? es "name" none fun v => v.text?.map some
    let description ← field? es "description" none fun v => v.text?.map some
    pure (name, description)
  | .array (n :: d :: _) => do
    let name ← n.text?
    let description ← d.text?
    pure (some name, some description)
  | .datetime _ => some (none, none)
  | _ => none

/-- name, description and rules of a rule file -/
def ofTable? (t : Table) : Option RuleSet := do
  if !onlyFields ["metadata", "rule"] t then none
  let metadata ← field? t "metadata" (none, none) metadataOf?
  let rules ← field? t "rule" [] fun v => v.items?.bind fun vs => vs.mapM Rule.ofValue?
  pure ⟨metadata.1, metadata.2, rules⟩

def ofText (text : String) : Except Error RuleSet :=
  match (parse text).bind ofTable? with
  | none => .error .malformed
  | some set => (checkFrom 0 set.rules).map fun _ => set

/-- the rule set of a file's content, or the reason why there is none -/
def ofFile (content : Except String String) : Except Error RuleSet :=
  match content with
  | .error cause => .error (.unreadable cause)
  | .ok text => ofText text

end RuleSet

end Stencil
