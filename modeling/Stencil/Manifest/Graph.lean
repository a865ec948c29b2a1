import Stencil.Manifest.Basic
import Stencil.Component.Basic
import Stencil.Component.Registry

/-!
# Manifests and graphs

* `Manifest.toGraph`       the graph and the global components that a manifest describes;
* `Manifest.ofGraph`       the manifest of a graph, without global components;
* `Manifest.withGlobals`   the same with the global components of another graph.

The id of a component is the place of its entry, so that an entry may refer to later ones.
-/

namespace Stencil

namespace Manifest

/-! ## to a graph -/

/-- the first name that occurs twice, where it does so for the second time -/
def firstRepeated (seen : List String) : List String → Option String
  | [] => none
  | n :: ns => if seen.contains n then some n else firstRepeated (seen ++ [n]) ns

def names (m : Manifest) : List String := m.components.map Entry.name

/-- the id of the component of a name -/
def idOf (m : Manifest) (name : String) : Except Error Nat :=
  match m.names.idxOf? name with
  | some id => .ok id
  | none => .error (.unknownComponent name)

def linkOf (m : Manifest) (r : Reference) : Except Error (String × Nat) :=
  (m.idOf r.component).map fun id => (r.tag, id)

def componentOf (m : Manifest) (e : Entry) : Except Error (Component Definition) := do
  let links ← e.children.mapM m.linkOf
  pure ⟨e.template, Dict.ofList links, ⟨e.name, e.extra⟩⟩

def ofRegistryError : Registry.Error → Error
  | .duplicate tag => .duplicateGlobal tag

def registerGlobal (m : Manifest) (globals : Registry) (r : Reference) :
    Except Error Registry := do
  let id ← m.idOf r.component
  (Registry.register globals r.tag id).mapError ofRegistryError

/-- the graph that a manifest describes, and its global components -/
def toGraph (m : Manifest) : Except Error (Graph Definition × Registry) := do
  if let some name := firstRepeated [] m.names then throw (.duplicate name)
  let components ← m.components.mapM m.componentOf
  let globals ← m.globals.foldlM m.registerGlobal Dict.empty
  let root ← m.idOf m.root
  pure (⟨⟨components⟩, root⟩, globals)

/-! ## from a graph -/

/-- the name of the component under an id; an id outside of the store has the empty name -/
def nameOf (s : Store Definition) (id : Nat) : String :=
  ((s.get? id).map fun c => c.base.name).getD ""

def entryOf (s : Store Definition) (c : Component Definition) : Entry where
  name := c.base.name
  template := c.template
  children := c.children.entries.map fun e => ⟨e.1, nameOf s e.2⟩
  extra := c.base.extra

/-- the manifest of a graph -/
def ofGraph (g : Graph Definition) : Manifest where
  root := nameOf g.store g.root
  components := g.store.components.map (entryOf g.store)
  globals := []

/-! ## global components -/

/-- the number of components in a store whose names are not known -/
def missing (s : Store Definition) (known : List String) : Nat :=
  (s.components.filter fun c => !known.contains c.base.name).length

theorem missing_concat_lt {s : Store Definition} {known : List String}
    {c : Component Definition} (hc : c ∈ s.components) (h : ¬ known.contains c.base.name = true) :
    missing s (known ++ [c.base.name]) < missing s known := by
  unfold missing
  have hf : (s.components.filter fun d => !(known ++ [c.base.name]).contains d.base.name) =
      (s.components.filter fun d => !known.contains d.base.name).filter
        fun d => d.base.name != c.base.name := by
    rw [List.filter_filter]
    apply List.filter_congr
    intro d _
    by_cases hd : d.base.name = c.base.name <;>
      by_cases hk : known.contains d.base.name <;> simp_all
  rw [hf]
  apply List.length_filter_lt_length_iff_exists.mpr
  exact ⟨c, List.mem_filter.mpr ⟨hc, by simpa using h⟩, by simp⟩

/-- the entries of the components that can be reached from `pending` on a path without known
names, depth first; an id outside of the store is left out -/
def missingEntries (s : Store Definition) (known : List String) : List Nat → List Entry
  | [] => []
  | id :: pending =>
    match _hg : s.get? id with
    | none => missingEntries s known pending
    | some c =>
      if _h : known.contains c.base.name then missingEntries s known pending
      else
        entryOf s c ::
          missingEntries s (known ++ [c.base.name]) (c.children.values ++ pending)
termination_by pending => (missing s known, pending.length)
decreasing_by
  · exact Prod.Lex.right _ (by simp)
  · exact Prod.Lex.right _ (by simp)
  · exact Prod.Lex.left _ _ (missing_concat_lt (List.mem_of_getElem? _hg) _h)

/-- the references for the global components of a registry, in its order, leaving out tags that
are there already and ids outside of the store -/
def addGlobals (s : Store Definition) (globals : List Reference) :
    List (String × Nat) → List Reference
  | [] => globals
  | (tag, id) :: r =>
    if s.contains id && !globals.any (fun g => g.tag == tag) then
      addGlobals s (globals ++ [⟨tag, nameOf s id⟩]) r
    else addGlobals s globals r

/-- a manifest with the global components of a registry, whose ids belong to the graph `source`;
entries that are missing are taken from there -/
def withGlobals (m : Manifest) (source : Graph Definition) (globals : Registry) : Manifest where
  root := m.root
  components := m.components ++ missingEntries source.store m.names globals.values
  globals := addGlobals source.store m.globals globals.entries

end Manifest

end Stencil
