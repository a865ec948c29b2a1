import Stencil.Component.Registry
import Stencil.Instruction.Basic

/-!
# Running an instruction on a component graph

A run shows the instruction every global component and everything the root reaches, then edits the
root and everything below it into a new graph of the same shape.  Both phases follow the links of a
component depth first and keep what they have met, each in its own way: the first one a list of
visited ids, the second one the new ids that it has given.

* `editTemplate`                      one template;
* `analyzeComponent`, `analyzeGraph`  the first phase, from one component and as a whole;
* `Draft`                             the new graph with its reserved places;
* `editComponent`, `editGraph`        the second phase;
* `process`                           a whole run;
* `transform`, `editAlone`            a run from a given state, on a graph or on one template.

The first failure ends a phase.  The instruction hears of the end of every run that has started.
-/

namespace Stencil

open Stencil.Markup

/-! ## failures -/

/-- why a template could not be edited -/
inductive EditError where
  | scan (source : ScanError)
  | instruction (text : String)
  deriving DecidableEq, Repr

def EditError.message : EditError → String
  | .scan source => source.message
  | .instruction text => s!"instruction failed: {text}"

/-- why a run failed -/
inductive RunError where
  | scan (component : Nat) (source : ScanError)
  | instruction (text : String)
  | unknownComponent (id : Nat)
  deriving DecidableEq, Repr

def RunError.message : RunError → String
  | .scan component source =>
    let label := idLabel component
    let cause := source.message
    s!"template of {label} is not valid: {cause}"
  | .instruction text => s!"instruction failed: {text}"
  | .unknownComponent id =>
    let label := idLabel id
    s!"unknown {label}"

def EditError.toRunError (component : Nat) : EditError → RunError
  | .scan source => .scan component source
  | .instruction text => .instruction text

/-- a step of a run of an instruction with state `σ` -/
abbrev Run (σ α : Type) : Type := ExceptT RunError (StateM σ) α

variable {σ β : Type}

/-- a hook call within a run -/
def Run.hook {α : Type} (h : Hook σ α) : Run σ α := ExceptT.adapt RunError.instruction h

/-- the outcome of a step as a value -/
def Run.outcome {α : Type} (x : Run σ α) : Run σ (Except RunError α) :=
  ExceptT.mk (do pure (.ok (← x.run)))

/-! ## templates -/

/-- edits a template for a component; it is scanned before the instruction sees any part -/
def editTemplate (i : Instruction σ β) (c : Component β) (template : String) :
    ExceptT EditError (StateM σ) String :=
  match parse template with
  | .error e => throw (.scan e)
  | .ok ps => ExceptT.adapt EditError.instruction (edit (fun part => i.replace part c) ps)

/-! ## the first phase -/

section
variable (i : Instruction σ β) (s : Store β)

-- Each call answers with a list that leaves no more components unseen than before, so that the
-- calls after it come to an end as well.
mutual

/-- shows a component and then all that its links lead to, unless it is visited already; answers
with the ids that are visited then -/
def analyzeComponent (tag : Option String) (id : Nat) (visited : List Nat) :
    Run σ { after : List Nat // s.unseen after ≤ s.unseen visited } :=
  if _hid : id ∈ visited then pure ⟨visited, Nat.le_refl _⟩
  else
    match _hc : s.get? id with
    | none => throw (.unknownComponent id)
    | some c => do
      Run.hook (i.analyze tag c)
      let after ← analyzeLinks c.children.entries (visited ++ [id])
      pure ⟨after, Nat.le_trans after.2 (s.unseen_append_le visited [id])⟩
termination_by (s.unseen visited, 0)
decreasing_by exact Prod.Lex.left _ _ (s.unseen_concat_lt (Store.lt_size_of_get? _hc) _hid)

def analyzeLinks (links : List (String × Nat)) (visited : List Nat) :
    Run σ { after : List Nat // s.unseen after ≤ s.unseen visited } :=
  match links with
  | [] => pure ⟨visited, Nat.le_refl _⟩
  | (tag, id) :: links => do
    let first ← analyzeComponent (some tag) id visited
    let after ← analyzeLinks links first
    pure ⟨after, Nat.le_trans after.2 first.2⟩
termination_by (s.unseen visited, links.length + 1)
decreasing_by
  · exact Prod.Lex.right _ (Nat.succ_pos _)
  · exact Prod.Lex.right' _ first.2 (Nat.lt_succ_self _)

end

end

/-- shows the global components in order and then the root, with all that they lead to -/
def analyzeGraph (i : Instruction σ β) (g : Graph β) (globals : Registry) : Run σ (List Nat) := do
  let visited ← analyzeLinks i g.store globals.entries []
  let after ← analyzeComponent i g.store none g.root visited
  pure after

/-! ## drafts -/

/-- A graph while it is written: the new ids, each under the old one that it is for, and the places
of the new components.  A place is reserved before anything below it is met, and stays empty until
its component is complete. -/
structure Draft (β : Type) where
  newIds : List (Nat × Nat)
  places : List (Option (Component β))

namespace Draft

def empty : Draft β := ⟨[], []⟩

/-- the old ids that have a new one, in the order in which they got it -/
def ids (d : Draft β) : List Nat := d.newIds.map Prod.fst

def newId? (d : Draft β) (id : Nat) : Option Nat := d.newIds.lookup id

/-- the next free place, for the component that has the id `id` so far -/
def reserve (d : Draft β) (id : Nat) : Draft β :=
  ⟨d.newIds ++ [(id, d.places.length)], d.places ++ [none]⟩

def fill (d : Draft β) (newId : Nat) (c : Component β) : Draft β :=
  { d with places := d.places.set newId (some c) }

/-- the graph of the filled places; an empty place would shift all ids behind it -/
def graph (d : Draft β) (root : Nat) : Graph β := ⟨⟨d.places.filterMap id⟩, root⟩

theorem newId?_eq_none_iff {d : Draft β} {id : Nat} : d.newId? id = none ↔ id ∉ d.ids :=
  lookup_eq_none_iff_not_mem

theorem ids_reserve (d : Draft β) (id : Nat) : (d.reserve id).ids = d.ids ++ [id] := by
  rw [ids, reserve, List.map_append]
  rfl

theorem unseen_reserve_le (s : Store β) (d : Draft β) (id : Nat) :
    s.unseen (d.reserve id).ids ≤ s.unseen d.ids := by
  rw [ids_reserve]
  exact s.unseen_append_le d.ids [id]

theorem unseen_reserve_lt {s : Store β} {d : Draft β} {id : Nat} {c : Component β}
    (hc : s.get? id = some c) (hid : d.newId? id = none) :
    s.unseen (d.reserve id).ids < s.unseen d.ids := by
  rw [ids_reserve]
  exact s.unseen_concat_lt (Store.lt_size_of_get? hc) (newId?_eq_none_iff.mp hid)

end Draft

/-! ## the second phase -/

section
variable (i : Instruction σ β) (s : Store β)

-- as in the first phase, no call leaves more components unseen
mutual

/-- adds an edited component and all that its links lead to, unless it has a new id already;
answers with its new id -/
def editComponent (id : Nat) (d : Draft β) :
    Run σ { r : Nat × Draft β // s.unseen r.2.ids ≤ s.unseen d.ids } :=
  match _hid : d.newId? id with
  | some newId => pure ⟨(newId, d), Nat.le_refl _⟩
  | none =>
    match _hc : s.get? id with
    | none => throw (.unknownComponent id)
    | some c => do
      let newId := d.places.length
      let template ← ExceptT.adapt (EditError.toRunError id) (editTemplate i c c.template)
      let ⟨(children, inner), h⟩ ← editLinks c.children.entries (d.reserve id)
      let base ← Run.hook (i.substitute c)
      let edited := (Component.leaf template (base.getD c.base)).declare children
      pure ⟨(newId, inner.fill newId edited), Nat.le_trans h (d.unseen_reserve_le s id)⟩
termination_by (s.unseen d.ids, 0)
decreasing_by exact Prod.Lex.left _ _ (Draft.unseen_reserve_lt _hc _hid)

/-- the same for a list of links, whose tags stay as they are -/
def editLinks (links : List (String × Nat)) (d : Draft β) :
    Run σ { r : List (String × Nat) × Draft β // s.unseen r.2.ids ≤ s.unseen d.ids } :=
  match links with
  | [] => pure ⟨([], d), Nat.le_refl _⟩
  | (tag, id) :: links => do
    let ⟨(newId, first), hfirst⟩ ← editComponent id d
    let ⟨(rest, after), hafter⟩ ← editLinks links first
    pure ⟨((tag, newId) :: rest, after), Nat.le_trans hafter hfirst⟩
termination_by (s.unseen d.ids, links.length + 1)
decreasing_by
  · exact Prod.Lex.right _ (Nat.succ_pos _)
  · exact Prod.Lex.right' _ hfirst (Nat.lt_succ_self _)

end

end

/-- edits the root and all that it leads to; answers with the new id of the root -/
def editGraph (i : Instruction σ β) (g : Graph β) : Run σ (Nat × Draft β) := do
  let ⟨r, _⟩ ← editComponent i g.store g.root Draft.empty
  pure r

/-- both phases of a run, with the notice between them -/
def phases (i : Instruction σ β) (g : Graph β) (globals : Registry) : Run σ (Graph β) := do
  let _ ← analyzeGraph i g globals
  Run.hook (i.event .replace)
  let (root, draft) ← editGraph i g
  pure (draft.graph root)

/-! ## whole runs -/

/-- a whole run; the first failure is its result -/
def process (i : Instruction σ β) (g : Graph β) (globals : Registry) : Run σ (Graph β) := do
  Run.hook (i.event .start)
  let result ← Run.outcome (phases i g globals)
  let ended ← Run.outcome (Run.hook (i.event .finish))
  match result, ended with
  | .ok out, .ok () => pure out
  | .error e, _ => throw e
  | .ok _, .error e => throw e

/-- the result of a run from state `s`, and the state after it -/
def transform (i : Instruction σ β) (g : Graph β) (globals : Registry) (s : σ) :
    Except RunError (Graph β) × σ :=
  (process i g globals).run.run s

/-- a run on a template that belongs to no graph -/
def editAlone (i : Instruction σ Unit) (template : String) (s : σ) : Except RunError String × σ :=
  let g := Graph.single template ()
  let r := transform i g Dict.empty s
  (do let out ← r.1
      match out.rootComponent? with
      | some c => pure c.template
      | none => throw (.unknownComponent out.root), r.2)

end Stencil
