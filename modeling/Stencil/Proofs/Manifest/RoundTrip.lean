import Mathlib
import Stencil.Proofs.Manifest.Globals

/-!
# Manifests of graphs, graphs of manifests

A graph gets its ids from the places of the entries, and a manifest its names from the components,
so that there and back again is the same.  The only thing that a graph does not keep is a tag that
an entry declares more than once.

* `collapse`                   references with each tag once;
* `entryOf_componentAt_eq`     the entry of the component of an entry, whatever its tags are;
* `sound_of_toGraph`           the graph of a manifest has all of its ids in its store;
* `toGraph_ofGraph_inverse`    both ways.
-/

namespace Stencil

/-! ## repeated tags -/

/-- each tag once, where it comes first, with the component of the last reference for it -/
def collapse (l : List Reference) : List Reference :=
  (l.map Reference.tag).eraseDups.filterMap fun tag => l.reverse.find? fun r => r.tag == tag

/-- an entry with each tag once among its children -/
def Entry.collapsed (e : Entry) : Entry := { e with children := collapse e.children }

namespace Manifest

variable {m : Manifest}

theorem lookup_map_linkAt (l : List Reference) (tag : String) :
    (l.map m.linkAt).lookup tag =
      (l.find? fun r => r.tag == tag).map fun r => m.names.idxOf r.component := by
  induction l with
  | nil => rfl
  | cons r l ih =>
    rw [List.map_cons, lookup_cons_eq, List.find?_cons, ih]
    by_cases htag : r.tag = tag
    · have hlink : tag = (m.linkAt r).1 := htag.symm
      rw [if_pos hlink, beq_iff_eq.mpr htag]
      rfl
    · have hlink : tag ≠ (m.linkAt r).1 := fun h => htag h.symm
      rw [if_neg hlink, beq_false_of_ne htag]

/-- the references that come of the links of a list of references -/
theorem map_entries_ofList {l : List Reference} (hl : ∀ r ∈ l, r.component ∈ m.names) :
    ((Dict.ofList (l.map m.linkAt)).entries.map fun e =>
      (⟨e.1, nameOf m.storeAt e.2⟩ : Reference)) = collapse l := by
  have htags : (Dict.ofList (l.map m.linkAt)).keys = (l.map Reference.tag).eraseDups := by
    rw [Dict.keys_ofList, List.map_map]
    rfl
  rw [Dict.entries_eq, htags, List.map_filterMap, collapse]
  refine List.filterMap_congr fun tag _ => ?_
  rw [Dict.get?_ofList, ← List.map_reverse, lookup_map_linkAt]
  cases hfound : l.reverse.find? fun r => r.tag == tag with
  | none => rfl
  | some r =>
    have htag : r.tag = tag := by simpa using List.find?_some hfound
    have hname := nameOf_storeAt (hl r (List.mem_reverse.mp (List.mem_of_find?_eq_some hfound)))
    show some (⟨tag, nameOf m.storeAt (m.names.idxOf r.component)⟩ : Reference) = some r
    rw [hname, ← htag]

theorem entryOf_componentAt_eq {e : Entry} (h : ∀ r ∈ e.children, r.component ∈ m.names) :
    entryOf m.storeAt (m.componentAt e) = e.collapsed := by
  have hchildren := map_entries_ofList h
  rw [entryOf, Entry.collapsed, ← hchildren]
  rfl

/-! ## the graph of a manifest -/

theorem names_storeAt (m : Manifest) : m.storeAt.names = m.names := by
  rw [storeAt, Store.names, List.map_map, names]
  rfl

theorem idxOf_lt_size {name : String} (h : name ∈ m.names) :
    m.names.idxOf name < m.storeAt.size := by
  obtain ⟨_, _, _, hget⟩ := exists_get?_storeAt h
  exact (List.getElem?_eq_some_iff.mp hget).1

/-- the graph of a manifest whose names are resolved -/
def graphAt (m : Manifest) : Graph Definition := ⟨m.storeAt, m.names.idxOf m.root⟩

theorem sound_graphAt (h : m.Consistent) : m.graphAt.Sound where
  root := idxOf_lt_size h.root
  names := (names_storeAt m).symm ▸ h.names
  children := by
    intro c hc id hid
    obtain ⟨e, he, rfl⟩ := List.mem_map.mp hc
    obtain ⟨link, hlink, rfl⟩ := List.mem_map.mp hid
    obtain ⟨r, hr, rfl⟩ := List.mem_map.mp (Dict.mem_of_mem_ofList hlink)
    exact idxOf_lt_size (h.children e he r hr)

/-- a manifest that describes a graph is consistent, and the graph has its resolved entries -/
theorem eq_of_toGraph {g : Graph Definition} {globals : Registry}
    (h : m.toGraph = .ok (g, globals)) :
    m.Consistent ∧ g = m.graphAt ∧
      globals.entries = m.globals.map m.linkAt := by
  have hm := consistent_of_toGraph h
  obtain ⟨globals', hgraph, hentries⟩ := toGraph_of_consistent hm
  cases h.symm.trans hgraph
  exact ⟨hm, rfl, hentries⟩

theorem sound_of_toGraph {g : Graph Definition} {globals : Registry}
    (h : m.toGraph = .ok (g, globals)) :
    g.Sound ∧ ∀ id ∈ globals.values, id < g.store.size := by
  obtain ⟨hm, rfl, hentries⟩ := eq_of_toGraph h
  refine ⟨sound_graphAt hm, ?_⟩
  rw [Dict.values, hentries, List.forall_mem_map, List.forall_mem_map]
  exact fun r hr => idxOf_lt_size (hm.globals r hr)

/-! ## the manifest of a graph -/

theorem ofGraph_graphAt (h : m.Consistent) :
    ofGraph m.graphAt = ⟨m.root, m.components.map Entry.collapsed, []⟩ := by
  have hentries : (m.components.map m.componentAt).map (entryOf m.storeAt) =
      m.components.map Entry.collapsed := by
    rw [List.map_map]
    exact List.map_congr_left fun e he => entryOf_componentAt_eq (h.children e he)
  have hroot : nameOf m.storeAt (m.names.idxOf m.root) = m.root := nameOf_storeAt h.root
  exact congrArg₂ (fun root components => (⟨root, components, []⟩ : Manifest)) hroot hentries

theorem consistent_ofGraph {g : Graph Definition} (h : g.Sound) : (ofGraph g).Consistent where
  names := (names_ofGraph g).symm ▸ h.names
  globals := fun r hr => absurd hr List.not_mem_nil
  tags := List.nodup_nil
  root := (names_ofGraph g).symm ▸ nameOf_mem_names h.root
  children := by
    rw [ofGraph, List.forall_mem_map]
    intro c hc
    refine mem_names_of_children fun id hid => ?_
    exact (names_ofGraph g).symm ▸ nameOf_mem_names (h.children c hc id hid)

theorem storeAt_ofGraph {g : Graph Definition} (h : g.Sound) : (ofGraph g).storeAt = g.store := by
  have hnames : (ofGraph g).names = g.store.names ++ [] := by
    rw [names_ofGraph, List.append_nil]
  have hcomponents : (ofGraph g).components.map (ofGraph g).componentAt = g.store.components :=
    map_componentAt_entryOf hnames h.names h.children
  rw [storeAt, hcomponents]

theorem toGraph_ofGraph {g : Graph Definition} (h : g.Sound) :
    (ofGraph g).toGraph = .ok (g, Dict.empty) := by
  obtain ⟨globals, hgraph, hentries⟩ := toGraph_of_consistent (consistent_ofGraph h)
  have hglobals : globals = Dict.empty := Dict.ext hentries
  have hroot : (ofGraph g).names.idxOf (ofGraph g).root = g.root := by
    have hplace := idxOf_nameOf h.names h.root []
    rwa [List.append_nil, ← names_ofGraph] at hplace
  rw [hgraph, storeAt_ofGraph h, hroot, hglobals]

/-! ## there and back -/

/-- a link under a global tag to the component of the name that is referred to -/
def Resolves (s : Store Definition) (r : Reference) (link : String × Nat) : Prop :=
  link.1 = r.tag ∧ ∃ c, s.get? link.2 = some c ∧ c.base.name = r.component

theorem resolves_linkAt {r : Reference} (h : r.component ∈ m.names) :
    Resolves m.storeAt r (m.linkAt r) := by
  obtain ⟨e, _, hname, hget⟩ := exists_get?_storeAt h
  exact ⟨rfl, m.componentAt e, hget, hname⟩

/-- The graph of a manifest has the entries of the manifest, in their order and under distinct
names, with each tag of an entry once, and the global tags as well.  The manifest of a sound graph
describes this graph again, with the same ids and without global tags. -/
theorem toGraph_ofGraph_inverse :
    (∀ (m : Manifest) (g : Graph Definition) (globals : Registry),
      m.toGraph = .ok (g, globals) →
        ofGraph g = ⟨m.root, m.components.map Entry.collapsed, []⟩ ∧ g.Sound ∧
        List.Forall₂ (Resolves g.store) m.globals globals.entries) ∧
    ∀ g : Graph Definition, g.Sound → (ofGraph g).toGraph = .ok (g, Dict.empty) := by
  refine ⟨fun m g globals h => ?_, fun g h => toGraph_ofGraph h⟩
  obtain ⟨hm, rfl, hentries⟩ := eq_of_toGraph h
  refine ⟨ofGraph_graphAt hm, sound_graphAt hm, ?_⟩
  rw [hentries, List.forall₂_map_right_iff, List.forall₂_same]
  exact fun r hr => resolves_linkAt (hm.globals r hr)

/-- two components that refer to each other; one of them declares a tag twice -/
def twins : Manifest where
  root := "a"
  components := [⟨"a", "<a/>", [⟨"x", "a"⟩, ⟨"y", "b"⟩, ⟨"x", "b"⟩], []⟩,
    ⟨"b", "<b/>", [⟨"y", "a"⟩], []⟩]
  globals := [⟨"x", "b"⟩, ⟨"y", "b"⟩]

def twinGraph : Graph Definition :=
  ⟨⟨[named "a" "<a/>" [("x", 1), ("y", 1)], named "b" "<b/>" [("y", 0)]]⟩, 0⟩

theorem toGraph_ofGraph_inverse_twins :
    twins.toGraph = .ok (twinGraph, Dict.ofList [("x", 1), ("y", 1)]) ∧
      ofGraph twinGraph = ⟨"a",
        [⟨"a", "<a/>", [⟨"x", "b"⟩, ⟨"y", "b"⟩], []⟩, ⟨"b", "<b/>", [⟨"y", "a"⟩], []⟩], []⟩ ∧
      List.Forall₂ (Resolves twinGraph.store) twins.globals [("x", 1), ("y", 1)] ∧
      twinGraph.Sound ∧ (ofGraph twinGraph).toGraph = .ok (twinGraph, Dict.empty) := by
  have hgraph : twins.toGraph = .ok (twinGraph, Dict.ofList [("x", 1), ("y", 1)]) := by cbv
  obtain ⟨hmanifest, hsound, hglobals⟩ := toGraph_ofGraph_inverse.1 _ _ _ hgraph
  exact ⟨hgraph, hmanifest, hglobals, hsound, toGraph_ofGraph_inverse.2 _ hsound⟩

end Manifest

end Stencil
