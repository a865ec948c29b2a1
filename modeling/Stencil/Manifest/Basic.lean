import Stencil.Toml.OrderedTable

/-!
# Manifests

A manifest describes a component graph with its global components, all of them by name.

* `Reference`    a tag and the name of the component that it stands for;
* `Entry`        a component: name, template, children, and other keys of the host;
* `Manifest`     the root, the components and the global components;
* `Definition`   the base of a component that comes from a manifest.
-/

namespace Stencil

structure Reference where
  tag : String
  component : String
  deriving DecidableEq, Repr

structure Entry where
  name : String
  template : String
  children : List Reference
  /-- the other keys -/
  extra : Toml.OrderedTable

structure Manifest where
  root : String
  components : List Entry
  globals : List Reference

/-- what a manifest says of a component apart from template and children -/
structure Definition where
  name : String
  extra : Toml.OrderedTable

namespace Manifest

/-- why there is no manifest, or no graph for it -/
inductive Error where
  /-- the file could not be read -/
  | unreadable (cause : String)
  /-- the text does not describe a manifest -/
  | malformed
  | unknownComponent (name : String)
  | duplicate (name : String)
  | duplicateGlobal (tag : String)
  deriving DecidableEq, Repr

def Error.message : Error → String
  | .unreadable cause => s!"Failed to read manifest file: {cause}"
  | .malformed => "Failed to parse manifest TOML: the text does not describe a manifest"
  | .unknownComponent name => s!"component not found: {name}"
  | .duplicate name => s!"duplicate component definition: {name}"
  | .duplicateGlobal tag => s!"duplicate global component: {tag}"

/-- the component of a name -/
def component? (m : Manifest) (name : String) : Option Entry :=
  m.components.find? fun e => e.name == name

end Manifest

/-! ## equality -/

def Entry.same (a b : Entry) : Bool :=
  a.name == b.name && a.template == b.template && a.children == b.children &&
    Toml.sameEntries a.extra.entries b.extra.entries

/-- equality of lists of components, with floating-point numbers compared by value -/
def sameComponents : List Entry → List Entry → Bool
  | [], [] => true
  | a :: as, b :: bs => a.same b && sameComponents as bs
  | _, _ => false

def Manifest.same (m n : Manifest) : Bool :=
  m.root == n.root && sameComponents m.components n.components && m.globals == n.globals

end Stencil
