import Stencil.Dict

/-!
# Components

A component has a template, the child components that its template may use, and a base: whatever
the host knows about it.  Components live in a store and refer to each other by their index, so
that they can share children and form cycles.

* `Component`      template, children by tag, base;
* `Store`          components under the ids `0`, `1`, `2`, …;
* `Store.unseen`   how many of them a walk has still to see;
* `Graph`          a store and the id of its root.
-/

namespace Stencil

/-- the name of an id in messages -/
def idLabel (id : Nat) : String := s!"component #{id}"

structure Component (β : Type) where
  template : String
  /-- child ids under the tags that they are declared for -/
  children : Dict Nat
  base : β
  deriving DecidableEq

namespace Component

variable {β : Type}

/-- a component without children -/
def leaf (template : String) (base : β) : Component β := ⟨template, Dict.empty, base⟩

/-- declares a child; a tag that is declared already keeps its place -/
def setChild (c : Component β) (tag : String) (child : Nat) : Component β :=
  { c with children := c.children.insert tag child }

/-- declares children one after the other -/
def declare (c : Component β) (l : List (String × Nat)) : Component β :=
  l.foldl (fun c e => c.setChild e.1 e.2) c

def child? (c : Component β) (tag : String) : Option Nat := c.children.get? tag

end Component

/-! ## stores -/

/-- components, the id of each being its index -/
structure Store (β : Type) where
  components : List (Component β)
  deriving DecidableEq

namespace Store

variable {β : Type}

def empty : Store β := ⟨[]⟩

def size (s : Store β) : Nat := s.components.length

def get? (s : Store β) (id : Nat) : Option (Component β) := s.components[id]?

theorem lt_size_of_get? {s : Store β} {id : Nat} {c : Component β} (h : s.get? id = some c) :
    id < s.size := (List.getElem?_eq_some_iff.mp h).1

def contains (s : Store β) (id : Nat) : Bool := decide (id < s.size)

/-- a new component; its id is the size of the store before -/
def insert (s : Store β) (c : Component β) : Store β := ⟨s.components ++ [c]⟩

/-- declares a child of the component `id`, which has to be in the store -/
def setChild? (s : Store β) (id : Nat) (tag : String) (child : Nat) : Option (Store β) :=
  if s.contains id then some ⟨s.components.modify id fun c => c.setChild tag child⟩ else none

/-- the child declared under `tag` in the component `id` -/
def child? (s : Store β) (id : Nat) (tag : String) : Option Nat :=
  (s.get? id).bind fun c => c.child? tag

/-- the children of `id` under their tags; an id outside of the store has none -/
def links (s : Store β) (id : Nat) : List (String × Nat) :=
  ((s.get? id).map fun c => c.children.entries).getD []

/-! ### components that are still to be seen -/

/-- the number of components that are not among `seen` -/
def unseen (s : Store β) (seen : List Nat) : Nat :=
  ((List.range s.size).filter (· ∉ seen)).length

theorem unseen_append_le (s : Store β) (seen more : List Nat) :
    s.unseen (seen ++ more) ≤ s.unseen seen := by
  unfold unseen
  apply List.Sublist.length_le
  have h : (List.range s.size).filter (· ∉ seen ++ more) =
      ((List.range s.size).filter (· ∉ seen)).filter (· ∉ more) := by
    rw [List.filter_filter]
    apply List.filter_congr
    intro x _
    by_cases hx : x ∈ seen <;> by_cases hy : x ∈ more <;> simp [hx, hy]
  rw [h]
  exact List.filter_sublist

theorem unseen_concat_lt (s : Store β) {seen : List Nat} {id : Nat} (hid : id < s.size)
    (h : id ∉ seen) : s.unseen (seen ++ [id]) < s.unseen seen := by
  have hf : (List.range s.size).filter (· ∉ seen ++ [id]) =
      ((List.range s.size).filter (· ∉ seen)).filter (· ≠ id) := by
    rw [List.filter_filter]
    apply List.filter_congr
    intro x _
    by_cases hx : x ∈ seen <;> by_cases hy : x = id <;> simp [hx, hy]
  unfold unseen
  rw [hf]
  apply List.length_filter_lt_length_iff_exists.mpr
  exact ⟨id, by simp [hid, h], by simp⟩

end Store

/-! ## graphs -/

structure Graph (β : Type) where
  store : Store β
  root : Nat
  deriving DecidableEq

namespace Graph

variable {β : Type}

/-- one component without children -/
def single (template : String) (base : β) : Graph β := ⟨⟨[Component.leaf template base]⟩, 0⟩

def rootComponent? (g : Graph β) : Option (Component β) := g.store.get? g.root

/-- the component at the end of a path of child tags from `c` -/
def follow (s : Store β) (c : Component β) : List String → Option (Component β)
  | [] => some c
  | tag :: path => ((c.child? tag).bind s.get?).bind fun d => follow s d path

/-- the component at the end of a path of child tags from the root -/
def find? (g : Graph β) (path : List String) : Option (Component β) :=
  g.rootComponent?.bind fun c => follow g.store c path

end Graph

end Stencil
