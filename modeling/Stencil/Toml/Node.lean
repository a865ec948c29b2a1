import Stencil.Dict
import Stencil.Toml.Value

/-!
# Tables under construction

While a document is read, a table remembers how it came into being: that decides what may still be
added to it.

* `Node`         a value, a table, or an array of tables;
* `setDotted`    a value under a dotted key;
* `openTable`    the table of a `[header]`;
* `openElement`  one more table of a `[[header]]`;
* `alter`        a change of the table at the end of a path;
* `finish`       the values that have come out.

A table can be opened once.  A dotted key goes only through tables that were never opened, and
ends in the table of its section or in one that dotted keys have made.
-/

namespace Stencil.Toml

/-- what a table comes from -/
inductive Origin where
  /-- its own `[header]` -/
  | header
  /-- the path of another header -/
  | implied
  /-- a dotted key -/
  | dotted
  deriving DecidableEq, Repr

inductive Node where
  /-- a value from the right of an `=` -/
  | value (v : Value)
  | table (origin : Origin) (entries : List (String × Node))
  /-- an array of tables, each with its own `[[header]]` -/
  | tables (rows : List (List (String × Node)))

abbrev Nodes := List (String × Node)

/-- a change of the last of some rows -/
def alterLast (f : Nodes → Option Nodes) : List Nodes → Option (List Nodes)
  | [] => none
  | [row] => (f row).map ([·])
  | row :: rows => (alterLast f rows).map (row :: ·)

/-- a value under a dotted key; `own` tells whether this very table may take an entry -/
def setDotted (v : Value) (own : Bool) : List String → Nodes → Option Nodes
  | [], _ => none
  | [k], es => if own && (es.lookup k).isNone then some (es ++ [(k, .value v)]) else none
  | k :: path, es =>
    match es.lookup k with
    | none => (setDotted v true path []).map fun sub => es ++ [(k, .table .dotted sub)]
    | some (.table .dotted sub) =>
      (setDotted v true path sub).map fun sub => put k (.table .dotted sub) es
    | some (.table .implied sub) =>
      (setDotted v false path sub).map fun sub => put k (.table .implied sub) es
    | some (.tables rows) =>
      (alterLast (fun row => setDotted v false path row) rows).map fun rows =>
        put k (.tables rows) es
    | some _ => none

/-- the table of a header; one that other headers imply goes last, with what it has -/
def openTable (k : String) (es : Nodes) : Option Nodes :=
  match es.lookup k with
  | none => some (es ++ [(k, .table .header [])])
  | some (.table .implied sub) => some (es.filter (·.1 != k) ++ [(k, .table .header sub)])
  | some _ => none

/-- one more table in an array of tables -/
def openElement (k : String) (es : Nodes) : Option Nodes :=
  match es.lookup k with
  | none => some (es ++ [(k, .tables [[]])])
  | some (.tables rows) => some (put k (.tables (rows ++ [[]])) es)
  | some _ => none

/-- a change of the table at the end of a path, which goes through the last table of an array;
tables that are missing on the way are implied -/
def alter (f : Nodes → Option Nodes) : List String → Nodes → Option Nodes
  | [], es => f es
  | k :: path, es =>
    match es.lookup k with
    | none => (alter f path []).map fun sub => es ++ [(k, .table .implied sub)]
    | some (.table origin sub) => (alter f path sub).map fun sub => put k (.table origin sub) es
    | some (.tables rows) =>
      (alterLast (fun row => alter f path row) rows).map fun rows => put k (.tables rows) es
    | some (.value _) => none

/-! ## the result -/

mutual

def Node.finish : Node → Value
  | .value v => v
  | .table _ es => .table (finish es)
  | .tables rows => .array (finishRows rows)

/-- the entries that have come out -/
def finish : List (String × Node) → Table
  | [] => []
  | (k, n) :: es => (k, n.finish) :: finish es

def finishRows : List (List (String × Node)) → List Value
  | [] => []
  | row :: rows => .table (finish row) :: finishRows rows

end

/-- an inline table from its keys and values -/
def inlineTable? (pairs : List (List String × Value)) : Option Value :=
  (pairs.foldlM (fun es p => setDotted p.2 true p.1 es) []).map fun es => .table (finish es)

end Stencil.Toml
