import Stencil.Binary64.Text
import Stencil.Toml.Datetime

/-!
# TOML values

* `Value`, `Table`     values, and the entries of a table in the order of the document;
* `Value.same`         equality, with floating-point numbers compared by value;
* `Value.sorted?`      the value with the entries of all tables in order of their keys;
* `sortEntries`        entries in order of their keys, by insertion.

A table whose first key is `datetimeKey` stands for a date or time: its value has to be the text
of one, and it must have no other key.
-/

namespace Stencil.Toml

inductive Value where
  | string (s : String)
  | integer (n : Int)
  | float (x : Binary64)
  | boolean (b : Bool)
  | datetime (d : Datetime)
  | array (items : List Value)
  | table (entries : List (String × Value))
  deriving Inhabited

/-- the entries of a table, with pairwise distinct keys -/
abbrev Table := List (String × Value)

/-! ## equality -/

mutual

/-- equality of values; a NaN differs from itself -/
def Value.same : Value → Value → Bool
  | .string s, .string t => s == t
  | .integer m, .integer n => m == n
  | .float x, .float y => x.same y
  | .boolean a, .boolean b => a == b
  | .datetime d, .datetime e => decide (d = e)
  | .array xs, .array ys => sameItems xs ys
  | .table xs, .table ys => sameEntries xs ys
  | _, _ => false

def sameItems : List Value → List Value → Bool
  | [], [] => true
  | x :: xs, y :: ys => x.same y && sameItems xs ys
  | _, _ => false

def sameEntries : List (String × Value) → List (String × Value) → Bool
  | [], [] => true
  | (k, x) :: xs, (l, y) :: ys => k == l && x.same y && sameEntries xs ys
  | _, _ => false

end

/-! ## order of keys -/

/-- an entry in its place among entries in order of their keys, or instead of one with its key -/
def insertEntry {α : Type} (k : String) (a : α) : List (String × α) → List (String × α)
  | [] => [(k, a)]
  | e :: r =>
    if k < e.1 then (k, a) :: e :: r
    else if k = e.1 then (k, a) :: r
    else e :: insertEntry k a r

/-- entries in order of their keys, code point by code point; the first one of a key stays -/
def sortEntries {α : Type} (entries : List (String × α)) : List (String × α) :=
  entries.foldr (fun e r => insertEntry e.1 e.2 r) []

/-- the key under which a table holds the text of a date or time -/
def datetimeKey : String := "$__toml_private_datetime"

/-- a table as a value; one that holds a date or time has to hold nothing else -/
def tableValue? (entries : List (String × Value)) : Option Value :=
  match entries with
  | (k, v) :: rest =>
    if k = datetimeKey then
      match v, rest with
      | .string s, [] => (Datetime.ofText? s).map .datetime
      | _, _ => none
    else some (.table (sortEntries entries))
  | [] => some (.table [])

mutual

/-- the value with the entries of all its tables in order of their keys -/
def Value.sorted? : Value → Option Value
  | .array xs => (sortedItems? xs).map .array
  | .table es => (sortedEntries? es).bind tableValue?
  | v => some v

def sortedItems? : List Value → Option (List Value)
  | [] => some []
  | x :: xs => do
    let y ← x.sorted?
    let ys ← sortedItems? xs
    pure (y :: ys)

/-- the entries with sorted values, in the order that they are in -/
def sortedEntries? : List (String × Value) → Option (List (String × Value))
  | [] => some []
  | (k, x) :: xs => do
    let y ← x.sorted?
    let ys ← sortedEntries? xs
    pure ((k, y) :: ys)

end

end Stencil.Toml
