import Mathlib.Data.List.Basic
import Mathlib.Data.List.Nodup
import Stencil.Manifest.Graph
import Stencil.Proofs.Component.Registry

/-!
# Names in manifests

A manifest says by name what a graph says by id.  If every name that it mentions is the name of just
one entry, the id of a name is its place among the names of the entries.

* `Store.names`              the names of the components of a store, in the order of the ids;
* `idxOf_nameOf`             the place of the name of an id, also with more names at the end;
* `Manifest.Consistent`      all names are resolved, and nothing is defined twice;
* `toGraph_of_consistent`    the graph of such a manifest;
* `consistent_of_toGraph`    no other manifest describes a graph;
* `componentAt_entryOf`      the component of the entry of a component;
* `entryOf_componentAt`      the entry of the component of an entry.
-/

namespace Stencil

/-! ## names -/

/-- the names of the components of a store, in the order of their ids -/
def Store.names (s : Store Definition) : List String := s.components.map fun c => c.base.name

namespace Manifest

theorem nameOf_of_get? {s : Store Definition} {id : Nat} {c : Component Definition}
    (h : s.get? id = some c) : nameOf s id = c.base.name := by
  rw [nameOf, h]
  rfl

theorem exists_get? {s : Store Definition} {id : Nat} (h : id < s.size) :
    ∃ c, s.get? id = some c ∧ nameOf s id = c.base.name :=
  ⟨s.components[id], List.getElem?_eq_getElem h, nameOf_of_get? (List.getElem?_eq_getElem h)⟩

theorem getElem?_names {s : Store Definition} {id : Nat} (h : id < s.size) :
    s.names[id]? = some (nameOf s id) := by
  obtain ⟨c, hget, hname⟩ := exists_get? h
  rw [hname, Store.names, List.getElem?_map, ← Store.get?, hget]
  rfl

theorem nameOf_mem_names {s : Store Definition} {id : Nat} (h : id < s.size) :
    nameOf s id ∈ s.names :=
  List.mem_of_getElem? (getElem?_names h)

/-- the id of a component is the place of its name -/
theorem idxOf_nameOf {s : Store Definition} (hs : s.names.Nodup) {id : Nat} (h : id < s.size)
    (more : List String) : (s.names ++ more).idxOf (nameOf s id) = id := by
  obtain ⟨hlt, hname⟩ := List.getElem?_eq_some_iff.mp (getElem?_names h)
  rw [List.idxOf_append_of_mem (nameOf_mem_names h), ← hname, hs.idxOf_getElem]

theorem names_ofGraph (g : Graph Definition) : (ofGraph g).names = g.store.names := by
  rw [names, ofGraph, Store.names, List.map_map]
  rfl

/-! ## consistent manifests -/

/-- all names are resolved, and neither a name nor a global tag is there twice -/
structure Consistent (m : Manifest) : Prop where
  names : m.names.Nodup
  children : ∀ e ∈ m.components, ∀ r ∈ e.children, r.component ∈ m.names
  globals : ∀ r ∈ m.globals, r.component ∈ m.names
  tags : (m.globals.map Reference.tag).Nodup
  root : m.root ∈ m.names

/-- a reference with the place of its name -/
def linkAt (m : Manifest) (r : Reference) : String × Nat := (r.tag, m.names.idxOf r.component)

/-- the component of an entry whose references are resolved -/
def componentAt (m : Manifest) (e : Entry) : Component Definition :=
  ⟨e.template, Dict.ofList (e.children.map m.linkAt), ⟨e.name, e.extra⟩⟩

/-- the store of a manifest whose references are resolved -/
def storeAt (m : Manifest) : Store Definition := ⟨m.components.map m.componentAt⟩

theorem idOf_of_mem {m : Manifest} {name : String} (h : name ∈ m.names) :
    m.idOf name = .ok (m.names.idxOf name) := by
  have hlt : m.names.idxOf name < m.names.length := List.idxOf_lt_length_iff.mpr h
  rw [idOf]
  rw [List.idxOf_eq_getD_idxOf?] at hlt ⊢
  cases hid : m.names.idxOf? name with
  | none =>
    rw [hid] at hlt
    exact absurd hlt (Nat.lt_irrefl _)
  | some id => rfl

/-- what is new behind `seen` and `a` is, with `a` in front, new behind `seen` -/
theorem nodup_new_cons_iff {seen l : List String} {a : String} (ha : a ∉ seen) :
    (l.Nodup ∧ ∀ b ∈ l, b ∉ seen ++ [a]) ↔ ((a :: l).Nodup ∧ ∀ b ∈ a :: l, b ∉ seen) := by
  simp only [List.nodup_cons, List.forall_mem_cons, List.mem_append, List.mem_singleton, not_or]
  constructor
  · rintro ⟨hl, hnew⟩
    exact ⟨⟨fun hmem => (hnew a hmem).2 rfl, hl⟩, ha, fun b hb => (hnew b hb).1⟩
  · rintro ⟨⟨hmem, hl⟩, _, hnew⟩
    exact ⟨hl, fun b hb => ⟨hnew b hb, fun hba => hmem (hba ▸ hb)⟩⟩

theorem firstRepeated_eq_none_iff {seen l : List String} :
    firstRepeated seen l = none ↔ l.Nodup ∧ ∀ n ∈ l, n ∉ seen := by
  induction l generalizing seen with
  | nil => simp [firstRepeated]
  | cons n l ih =>
    rw [firstRepeated, List.contains_eq_mem]
    by_cases hn : n ∈ seen
    · rw [if_pos (decide_eq_true hn)]
      exact ⟨fun h => (by cases h), fun h => absurd hn (h.2 n (List.mem_cons_self ..))⟩
    · rw [if_neg (by rwa [decide_eq_true_eq]), ih, nodup_new_cons_iff hn]

theorem mapM_linkOf {m : Manifest} {l : List Reference} (h : ∀ r ∈ l, r.component ∈ m.names) :
    l.mapM m.linkOf = .ok (l.map m.linkAt) := by
  induction l with
  | nil => rfl
  | cons r l ih =>
    rw [List.forall_mem_cons] at h
    rw [List.mapM_cons, linkOf, idOf_of_mem h.1, ih h.2]
    rfl

theorem mapM_componentOf {m : Manifest} {l : List Entry}
    (h : ∀ e ∈ l, ∀ r ∈ e.children, r.component ∈ m.names) :
    l.mapM m.componentOf = .ok (l.map m.componentAt) := by
  induction l with
  | nil => rfl
  | cons e l ih =>
    rw [List.forall_mem_cons] at h
    rw [List.mapM_cons, componentOf, mapM_linkOf h.1, ih h.2]
    rfl

theorem foldlM_registerGlobal {m : Manifest} {l : List Reference} {globals : Registry}
    (h : ∀ r ∈ l, r.component ∈ m.names)
    (htags : (globals.keys ++ l.map Reference.tag).Nodup) :
    ∃ after, l.foldlM m.registerGlobal globals = .ok after ∧
      after.entries = globals.entries ++ l.map m.linkAt := by
  induction l generalizing globals with
  | nil => exact ⟨globals, rfl, (List.append_nil _).symm⟩
  | cons r l ih =>
    rw [List.forall_mem_cons] at h
    have hnew : r.tag ∉ globals.keys := not_mem_of_nodup_append htags
    have hinsert : (globals.insert r.tag (m.names.idxOf r.component)).entries =
        globals.entries ++ [m.linkAt r] := put_of_not_mem _ hnew
    have hregister : m.registerGlobal globals r =
        .ok (globals.insert r.tag (m.names.idxOf r.component)) := by
      rw [registerGlobal, idOf_of_mem h.1]
      show (Registry.register globals r.tag _).mapError _ = _
      rw [Registry.register_eq, if_neg hnew]
      rfl
    have htags' : ((globals.insert r.tag (m.names.idxOf r.component)).keys ++
        l.map Reference.tag).Nodup := by
      rw [Dict.keys, hinsert, List.map_append, List.append_assoc]
      exact htags
    obtain ⟨after, hafter, hentries⟩ := ih h.2 htags'
    refine ⟨after, ?_, ?_⟩
    · rw [List.foldlM_cons, hregister]
      exact hafter
    · rw [hentries, hinsert, List.append_assoc, List.map_cons, List.singleton_append]

/-- a consistent manifest describes a graph, and references become places of names -/
theorem toGraph_of_consistent {m : Manifest} (h : m.Consistent) :
    ∃ globals, m.toGraph =
        .ok (⟨m.storeAt, m.names.idxOf m.root⟩, globals) ∧
      globals.entries = m.globals.map m.linkAt := by
  have htags : ((Dict.empty : Registry).keys ++ m.globals.map Reference.tag).Nodup := h.tags
  obtain ⟨globals, hglobals, hentries⟩ := foldlM_registerGlobal h.globals htags
  have hrepeated : firstRepeated [] m.names = none :=
    firstRepeated_eq_none_iff.mpr ⟨h.names, fun _ _ => List.not_mem_nil⟩
  refine ⟨globals, ?_, hentries⟩
  rw [toGraph, hrepeated]
  simp only [mapM_componentOf h.children, hglobals, idOf_of_mem h.root]
  rfl

theorem mem_names_of_idOf {m : Manifest} {name : String} {id : Nat} (h : m.idOf name = .ok id) :
    name ∈ m.names := by
  by_contra hnot
  rw [idOf, List.idxOf?_eq_none_iff.mpr hnot] at h
  cases h

theorem exists_of_mapM_ok {ε α γ : Type} {f : α → Except ε γ} {l : List α} {out : List γ}
    (h : l.mapM f = .ok out) : ∀ a ∈ l, ∃ b, f a = .ok b := by
  induction l generalizing out with
  | nil => exact fun a ha => absurd ha List.not_mem_nil
  | cons a l ih =>
    rw [List.mapM_cons] at h
    rw [List.forall_mem_cons]
    cases hb : f a with
    | error e => rw [hb] at h; cases h
    | ok b =>
      rw [hb] at h
      cases hbs : l.mapM f with
      | error e => rw [hbs] at h; cases h
      | ok bs => exact ⟨⟨b, rfl⟩, ih hbs⟩

theorem mem_names_of_mapM_linkOf {m : Manifest} {l : List Reference} {links : List (String × Nat)}
    (h : l.mapM m.linkOf = .ok links) : ∀ r ∈ l, r.component ∈ m.names := by
  intro r hr
  obtain ⟨link, hlink⟩ := exists_of_mapM_ok h r hr
  cases hid : m.idOf r.component with
  | error e => rw [linkOf, hid] at hlink; cases hlink
  | ok id => exact mem_names_of_idOf hid

theorem mem_names_of_mapM_componentOf {m : Manifest} {l : List Entry}
    {components : List (Component Definition)} (h : l.mapM m.componentOf = .ok components) :
    ∀ e ∈ l, ∀ r ∈ e.children, r.component ∈ m.names := by
  intro e he
  obtain ⟨c, hc⟩ := exists_of_mapM_ok h e he
  cases hlinks : e.children.mapM m.linkOf with
  | error e' => rw [componentOf, hlinks] at hc; cases hc
  | ok links => exact mem_names_of_mapM_linkOf hlinks

theorem registerGlobal_ok {m : Manifest} {globals after : Registry} {r : Reference}
    (h : m.registerGlobal globals r = .ok after) :
    r.component ∈ m.names ∧ r.tag ∉ globals.keys ∧ after.keys = globals.keys ++ [r.tag] := by
  cases hid : m.idOf r.component with
  | error e => rw [registerGlobal, hid] at h; cases h
  | ok id =>
    rw [registerGlobal, hid] at h
    change (Registry.register globals r.tag id).mapError _ = _ at h
    rw [Registry.register_eq] at h
    by_cases htag : r.tag ∈ globals.keys
    · rw [if_pos htag] at h
      cases h
    · rw [if_neg htag] at h
      cases h
      exact ⟨mem_names_of_idOf hid, htag, by rw [Dict.keys_insert, if_neg htag]⟩

theorem foldlM_registerGlobal_ok {m : Manifest} {l : List Reference} {globals after : Registry}
    (h : l.foldlM m.registerGlobal globals = .ok after) :
    (∀ r ∈ l, r.component ∈ m.names) ∧ (globals.keys ++ l.map Reference.tag).Nodup := by
  induction l generalizing globals with
  | nil =>
    rw [List.map_nil, List.append_nil]
    exact ⟨fun r hr => absurd hr List.not_mem_nil, globals.nodup⟩
  | cons r l ih =>
    rw [List.foldlM_cons] at h
    cases hregister : m.registerGlobal globals r with
    | error e => rw [hregister] at h; cases h
    | ok next =>
      rw [hregister] at h
      obtain ⟨hcomponent, _, hkeys⟩ := registerGlobal_ok hregister
      obtain ⟨hrest, htags⟩ := ih h
      rw [hkeys, List.append_assoc] at htags
      exact ⟨List.forall_mem_cons.mpr ⟨hcomponent, hrest⟩, htags⟩

/-- only a consistent manifest describes a graph -/
theorem consistent_of_toGraph {m : Manifest} {g : Graph Definition} {globals : Registry}
    (h : m.toGraph = .ok (g, globals)) : m.Consistent := by
  rw [toGraph] at h
  cases hrepeated : firstRepeated [] m.names with
  | some name => rw [hrepeated] at h; cases h
  | none =>
    rw [hrepeated] at h
    cases hcomponents : m.components.mapM m.componentOf with
    | error e => rw [hcomponents] at h; cases h
    | ok components =>
      rw [hcomponents] at h
      cases hglobals : m.globals.foldlM m.registerGlobal Dict.empty with
      | error e => rw [hglobals] at h; cases h
      | ok registry =>
        rw [hglobals] at h
        cases hroot : m.idOf m.root with
        | error e => rw [hroot] at h; cases h
        | ok root =>
          obtain ⟨hreferences, htags⟩ := foldlM_registerGlobal_ok hglobals
          exact ⟨(firstRepeated_eq_none_iff.mp hrepeated).1,
            mem_names_of_mapM_componentOf hcomponents, hreferences, htags,
            mem_names_of_idOf hroot⟩

/-! ## entries of components -/

/-- the entry of a component describes it again where its names come first -/
theorem componentAt_entryOf {m : Manifest} {s : Store Definition} {more : List String}
    (hm : m.names = s.names ++ more) (hs : s.names.Nodup) {c : Component Definition}
    (hlinks : ∀ id ∈ c.children.values, id < s.size) : m.componentAt (entryOf s c) = c := by
  have hmap : (c.children.entries.map fun e => (⟨e.1, nameOf s e.2⟩ : Reference)).map m.linkAt =
      c.children.entries := by
    rw [List.map_map]
    refine (List.map_congr_left fun e he => ?_).trans (List.map_id _)
    show (e.1, m.names.idxOf (nameOf s e.2)) = e
    rw [hm, idxOf_nameOf hs (hlinks e.2 (List.mem_map_of_mem he))]
  rw [componentAt, entryOf]
  simp only
  rw [hmap, Dict.ofList_entries]

/-- the entries of the components of a store describe these again -/
theorem map_componentAt_entryOf {m : Manifest} {s : Store Definition} {more : List String}
    (hm : m.names = s.names ++ more) (hs : s.names.Nodup)
    (hlinks : ∀ c ∈ s.components, ∀ id ∈ c.children.values, id < s.size) :
    (s.components.map (entryOf s)).map m.componentAt = s.components := by
  rw [List.map_map]
  refine (List.map_congr_left fun c hc => ?_).trans (List.map_id _)
  exact componentAt_entryOf hm hs (hlinks c hc)

/-- the component of a name of an entry, at the place of the name -/
theorem exists_get?_storeAt {m : Manifest} {name : String} (h : name ∈ m.names) :
    ∃ e ∈ m.components, e.name = name ∧
      m.storeAt.get? (m.names.idxOf name) = some (m.componentAt e) := by
  have hname := List.getElem?_idxOf h
  rw [names, List.getElem?_map, Option.map_eq_some_iff] at hname
  obtain ⟨e, he, hname⟩ := hname
  refine ⟨e, List.mem_of_getElem? he, hname, ?_⟩
  rw [storeAt, Store.get?, List.getElem?_map, names, he]
  rfl

theorem nameOf_storeAt {m : Manifest} {name : String} (h : name ∈ m.names) :
    nameOf m.storeAt (m.names.idxOf name) = name := by
  obtain ⟨e, _, hname, hget⟩ := exists_get?_storeAt h
  exact (nameOf_of_get? hget).trans hname

/-- references by name, from the places of the names -/
theorem map_linkAt_references {m : Manifest} {l : List Reference}
    (h : ∀ r ∈ l, r.component ∈ m.names) :
    (l.map m.linkAt).map (fun e => (⟨e.1, nameOf m.storeAt e.2⟩ : Reference)) = l := by
  rw [List.map_map]
  refine (List.map_congr_left fun r hr => ?_).trans (List.map_id _)
  show (⟨r.tag, nameOf m.storeAt (m.names.idxOf r.component)⟩ : Reference) = r
  rw [nameOf_storeAt (h r hr)]

/-- an entry whose tags are distinct is the entry of its component -/
theorem entryOf_componentAt {m : Manifest} (h : m.Consistent) {e : Entry} (he : e ∈ m.components)
    (htags : (e.children.map Reference.tag).Nodup) :
    entryOf m.storeAt (m.componentAt e) = e := by
  have hentries : (m.componentAt e).children.entries = e.children.map m.linkAt := by
    refine Dict.entries_ofList ?_
    rw [List.map_map]
    exact htags
  rw [entryOf, hentries, map_linkAt_references (h.children e he)]
  rfl

end Manifest

end Stencil
