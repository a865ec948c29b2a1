import Mathlib
import Stencil.Rule.Set
import Stencil.Proofs.Manifest.Copies
import Stencil.Proofs.Manifest.RoundTrip
import Stencil.Proofs.Run.Canonical

/-!
# Normal forms

Without any rules the program leaves out what neither the root nor a global component reaches, and
puts the rest in the order in which a walk meets it.  This happens once: the walk of the new
manifest meets the entries in their places.

* `normalForm?`               the manifest that comes out of a run without rules;
* `reached`                   the ids that a walk from the root and the global components meets;
* `selection`                 the entries of these ids;
* `normalForm?_eq_selection`  the normal form of a manifest is such a selection;
* `renames_selection`         the graph of a selection has the old links under new ids;
* `normalForm_stable`         what a normal form is, and that it is its own.
-/

namespace Stencil

open Stencil.Markup

/-! ## reachable ids -/

section
variable {β : Type}

/-- the ids that the root and then the global components reach, in the order of a walk -/
def reached (g : Graph β) (globals : Registry) : List Nat :=
  g.store.seenAfter [] ((g.root :: globals.values).map fun id => (none, id))

theorem walk_reached (g : Graph β) (globals : Registry) :
    Walk g.store [] (g.root :: globals.values) (reached g globals) := by
  have h := walk_seenAfter g.store [] ((g.root :: globals.values).map fun id => (none, id))
  have hstarts : ((g.root :: globals.values).map fun id => ((none : Option String), id)).map
      Prod.snd = g.root :: globals.values := by
    rw [List.map_map]
    exact List.map_id _
  rwa [hstarts] at h

theorem nodup_reached (g : Graph β) (globals : Registry) : (reached g globals).Nodup :=
  g.store.nodup_seenAfter List.nodup_nil _

theorem mem_reached {g : Graph β} {globals : Registry} {a : Nat} :
    a ∈ reached g globals ↔ ∃ start ∈ g.root :: globals.values, g.store.Reaches start a := by
  rw [reached, ← g.store.ids_explore, g.store.mem_ids_explore]
  simp only [List.mem_map, exists_exists_and_eq_and]

theorem start_mem_reached {g : Graph β} {globals : Registry} {a : Nat}
    (h : a ∈ g.root :: globals.values) : a ∈ reached g globals :=
  mem_reached.mpr ⟨a, h, Relation.ReflTransGen.refl⟩

theorem link_mem_reached {g : Graph β} {globals : Registry} {a b : Nat}
    (ha : a ∈ reached g globals) (hab : g.store.Links a b) : b ∈ reached g globals := by
  obtain ⟨start, hs, hr⟩ := mem_reached.mp ha
  exact mem_reached.mpr ⟨start, hs, hr.tail hab⟩

/-- the walk goes through all that the root reaches before it comes to the global components -/
theorem exists_walk_globals (g : Graph β) (globals : Registry) :
    Walk g.store (g.store.spanning g.root).ids globals.values (reached g globals) := by
  have hroot : Walk g.store [] [g.root] (g.store.spanning g.root).ids :=
    walk_seenAfter g.store [] [(none, g.root)]
  cases walk_reached g globals with
  | known hmem _ => exact absurd hmem List.not_mem_nil
  | fresh hnot hb hr =>
    rwa [← hroot.unique (.fresh hnot hb (.done _))] at hr

/-- what is reached of a renamed graph is what is reached of the old one, with the new ids -/
theorem Renames.reached_eq {γ : Type} {f : Nat → Nat} {p : Nat → Prop} {g : Graph β}
    {g' : Graph γ} {globals globals' : Registry} (h : Renames f p g.store g'.store)
    (hp : ∀ id ∈ g.root :: globals.values, p id) (hroot : g'.root = f g.root)
    (hglobals : globals'.values = globals.values.map f) :
    reached g' globals' = (reached g globals).map f := by
  have htodo : (g'.root :: globals'.values).map (fun id => ((none : Option String), id)) =
      ((g.root :: globals.values).map fun id => (none, id)).map (Prod.map id f) := by
    rw [hroot, hglobals, ← List.map_cons, List.map_map, List.map_map]
    rfl
  have hstarts : ∀ e ∈ (g.root :: globals.values).map fun id => ((none : Option String), id),
      p e.2 := List.forall_mem_map.mpr hp
  have hseen : ∀ a ∈ ([] : List Nat), p a := by simp
  rw [reached, htodo]
  exact h.seenAfter_eq hseen hstarts

end

theorem Graph.Sound.lt_of_links {g : Graph Definition} (h : g.Sound) {a b : Nat}
    (hab : g.store.Links a b) : b < g.store.size := by
  obtain ⟨tag, hlink⟩ := hab
  obtain ⟨c, hc, he⟩ := Store.mem_links.mp hlink
  exact h.children c (List.mem_of_getElem? hc) b (List.mem_map_of_mem he)

theorem Graph.Sound.lt_of_reaches {g : Graph Definition} (h : g.Sound) {a b : Nat}
    (ha : a < g.store.size) (hab : g.store.Reaches a b) : b < g.store.size := by
  cases hab with
  | refl => exact ha
  | tail _ hlink => exact h.lt_of_links hlink

/-- every template that the root reaches scans -/
def Graph.Editable {β : Type} (g : Graph β) : Prop :=
  ∀ id, g.store.Reaches g.root id → ∀ c, g.store.get? id = some c →
    ∃ found, scan c.template = .ok found

namespace Manifest

/-! ## runs without rules -/

/-- the manifest that comes out of a run without rules -/
def normalForm? (m : Manifest) : Option Manifest := do
  let (g, globals) ← m.toGraph.toOption
  let out ← (transform (RuleSet.instruction []) g globals (RuleSet.noHits [])).1.toOption
  pure ((ofGraph out).withGlobals g globals)

theorem declines_of_no_rules {β : Type} :
    (RuleSet.instruction [] : Instruction (List Nat) β).Declines where
  event e hits := by cases e <;> exact ⟨_, rfl⟩
  analyze _ _ hits := ⟨hits, rfl⟩
  substitute _ hits := ⟨hits, rfl⟩
  replace part _ hits := by
    have hanswers : RuleSet.answers [] part = [] := by
      unfold RuleSet.answers
      cases part.isTag <;> rfl
    refine ⟨RuleSet.countHits hits [], ?_⟩
    simp only [RuleSet.instruction, hanswers]
    rfl

section
variable {g : Graph Definition} {globals : Registry} {log : List (Change Definition)}

theorem nameOf_graphOf (hall : ∀ ch ∈ log, ch.Unchanged g.store) {a : Nat}
    (ha : a ∈ log.map Change.id) :
    nameOf (graphOf log g.root).store ((log.map Change.id).idxOf a) = nameOf g.store a := by
  obtain ⟨ch, hch, rfl, hget⟩ := get?_graphOf g.root ha
  rw [nameOf_of_get? hget, nameOf_of_get? (hall ch hch).original, Change.component,
    (hall ch hch).base]
  rfl

theorem entryOf_graphOf (hids : log.map Change.id = (g.store.spanning g.root).ids)
    (hall : ∀ ch ∈ log, ch.Unchanged g.store) {ch : Change Definition} (hch : ch ∈ log) :
    entryOf (graphOf log g.root).store (ch.component (log.map Change.id).idxOf) =
      entryOf g.store ch.original := by
  have hchildren : ((ch.original.children.map (log.map Change.id).idxOf).entries.map fun e =>
      (⟨e.1, nameOf (graphOf log g.root).store e.2⟩ : Reference)) =
      ch.original.children.entries.map fun e => ⟨e.1, nameOf g.store e.2⟩ := by
    rw [Dict.entries_map, List.map_map]
    refine List.map_congr_left fun e he => ?_
    have hlink : g.store.Links ch.id e.2 :=
      ⟨e.1, Store.mem_links.mpr ⟨ch.original, (hall ch hch).original, he⟩⟩
    show Reference.mk _ (nameOf _ _) = _
    rw [nameOf_graphOf hall (closed_ids hids (List.mem_map_of_mem hch) hlink)]
  rw [entryOf, Change.component, hchildren, (hall ch hch).template, (hall ch hch).base]
  rfl

/-- the manifest of what a run without answers makes of a graph -/
theorem ofGraph_graphOf (hids : log.map Change.id = (g.store.spanning g.root).ids)
    (hall : ∀ ch ∈ log, ch.Unchanged g.store) :
    ofGraph (graphOf log g.root) =
      ⟨nameOf g.store g.root, (g.store.spanning g.root).ids.filterMap (entryAt g.store), []⟩ := by
  have hroot : nameOf (graphOf log g.root).store (graphOf log g.root).root =
      nameOf g.store g.root := by
    rw [root_graphOf, nameOf_graphOf hall (root_mem_ids hids)]
  have hentries : (graphOf log g.root).store.components.map (entryOf (graphOf log g.root).store) =
      (g.store.spanning g.root).ids.filterMap (entryAt g.store) := by
    rw [components_graphOf, List.map_map, ← hids, List.filterMap_map, ← List.filterMap_eq_map]
    refine List.filterMap_congr fun ch hch => ?_
    rw [Function.comp_apply, Function.comp_apply, Function.comp_apply,
      entryAt_of_get? (hall ch hch).original, entryOf_graphOf hids hall hch]
  rw [ofGraph, hroot, hentries]

end

/-! ## selections -/

/-- the entries of all that is reached, in the order of the walk -/
def selection (g : Graph Definition) (globals : Registry) : Manifest where
  root := nameOf g.store g.root
  components := (reached g globals).filterMap (entryAt g.store)
  globals := globals.entries.map fun e => ⟨e.1, nameOf g.store e.2⟩

theorem exists_of_mem_selection {g : Graph Definition} {globals : Registry} {e : Entry}
    (he : e ∈ (selection g globals).components) :
    ∃ a ∈ reached g globals, ∃ c, g.store.get? a = some c ∧ e = entryOf g.store c := by
  obtain ⟨a, ha, hentry⟩ := List.mem_filterMap.mp he
  obtain ⟨c, hc, rfl⟩ := Option.map_eq_some_iff.mp hentry
  exact ⟨a, ha, c, hc, rfl⟩

section
variable {g : Graph Definition} {globals : Registry} (hg : g.Sound)
  (hglobals : ∀ id ∈ globals.values, id < g.store.size)

include hg hglobals

theorem lt_size_of_mem_reached {a : Nat} (ha : a ∈ reached g globals) : a < g.store.size := by
  obtain ⟨start, hs, hr⟩ := mem_reached.mp ha
  have hstarts : ∀ start ∈ g.root :: globals.values, start < g.store.size :=
    List.forall_mem_cons.mpr ⟨hg.root, hglobals⟩
  exact hg.lt_of_reaches (hstarts start hs) hr

theorem exists_of_mem_reached {a : Nat} (ha : a ∈ reached g globals) :
    ∃ c, g.store.get? a = some c ∧ nameOf g.store a = c.base.name :=
  exists_get? (lt_size_of_mem_reached hg hglobals ha)

theorem forM_plan_of_editable (hscan : g.Editable) :
    forM (plan g globals) Step.bound = .ok () := by
  rw [forM_plan_eq_ok_iff]
  constructor
  · intro a ha hmissing
    have ha : a ∈ reached g globals := by
      obtain ⟨start, hs, hr⟩ := mem_metIds.mp ha
      rw [List.mem_append, List.mem_singleton] at hs
      exact mem_reached.mpr ⟨start, List.mem_cons.mpr hs.symm, hr⟩
    obtain ⟨c, hc, _⟩ := exists_of_mem_reached hg hglobals ha
    cases hmissing.symm.trans hc
  · rintro a ha e ⟨c, hc, herror⟩
    obtain ⟨found, hfound⟩ := hscan a (g.store.mem_ids_spanning.mp ha) c hc
    cases herror.symm.trans hfound

/-- copies of what the root does not reach complete the manifest of what it does reach -/
theorem withGlobals_spanning :
    withGlobals ⟨nameOf g.store g.root,
      (g.store.spanning g.root).ids.filterMap (entryAt g.store), []⟩ g globals =
      selection g globals := by
  obtain ⟨new, known, hreached, _, hcopied⟩ := missingEntries_of_walk hg.names
    (exists_walk_globals g globals) (knows_filterMap hg.names _)
  have hids : ∀ e ∈ globals.entries, e.2 < g.store.size :=
    fun e he => hglobals _ (List.mem_map_of_mem he)
  have htags : (([] : List Reference).map Reference.tag ++
      globals.entries.map Prod.fst).Nodup := globals.nodup
  have hentries := hcopied []
  rw [List.append_nil, missingEntries_nil, List.append_nil] at hentries
  rw [withGlobals, names, hentries, addGlobals_eq hids htags, List.nil_append,
    ← List.filterMap_append, ← hreached]
  rfl

/-! ## the graph of a selection -/

theorem map_some_selection :
    (selection g globals).components.map some = (reached g globals).map (entryAt g.store) := by
  rw [selection, List.map_filterMap, ← List.filterMap_eq_map]
  refine List.filterMap_congr fun a ha => ?_
  obtain ⟨c, hc, _⟩ := exists_of_mem_reached hg hglobals ha
  rw [Function.comp_apply, entryAt_of_get? hc]
  rfl

theorem names_selection :
    (selection g globals).names = (reached g globals).map (nameOf g.store) := by
  rw [names, selection, List.map_filterMap, ← List.filterMap_eq_map]
  refine List.filterMap_congr fun a ha => ?_
  obtain ⟨c, hc, hname⟩ := exists_of_mem_reached hg hglobals ha
  rw [entryAt_of_get? hc, Function.comp_apply, hname]
  rfl

theorem injOn_nameOf : Set.InjOn (nameOf g.store) {a | a ∈ reached g globals} := by
  intro a ha b hb hab
  obtain ⟨c, hc, hname⟩ := exists_of_mem_reached hg hglobals ha
  obtain ⟨d, hd, hname'⟩ := exists_of_mem_reached hg hglobals hb
  rw [hname, hname'] at hab
  exact eq_of_name hg.names hc hd hab

theorem mem_names_selection {a : Nat} (ha : a ∈ reached g globals) :
    nameOf g.store a ∈ (selection g globals).names := by
  rw [names_selection hg hglobals]
  exact List.mem_map_of_mem ha

/-- the place of a name is the place of its id in the walk -/
theorem idxOf_selection {a : Nat} (ha : a ∈ reached g globals) :
    (selection g globals).names.idxOf (nameOf g.store a) = (reached g globals).idxOf a := by
  rw [names_selection hg hglobals, idxOf_map (injOn_nameOf hg hglobals) ha]

theorem consistent_selection : (selection g globals).Consistent where
  names := by
    rw [names_selection hg hglobals]
    exact (nodup_reached g globals).map_on (injOn_nameOf hg hglobals)
  root := mem_names_selection hg hglobals (start_mem_reached (List.mem_cons_self ..))
  tags := by
    rw [selection, List.map_map]
    exact globals.nodup
  globals := by
    rw [selection, List.forall_mem_map]
    intro e he
    refine mem_names_selection hg hglobals (start_mem_reached (List.mem_cons_of_mem _ ?_))
    exact List.mem_map_of_mem he
  children := by
    intro e he
    obtain ⟨a, ha, c, hc, rfl⟩ := exists_of_mem_selection he
    refine mem_names_of_children fun id hid => ?_
    obtain ⟨link, hlink, rfl⟩ := List.mem_map.mp hid
    exact mem_names_selection hg hglobals
      (link_mem_reached ha ⟨link.1, Store.mem_links.mpr ⟨c, hc, hlink⟩⟩)

/-- the component of a reached id, under its place in the walk -/
theorem get?_selection {a : Nat} (ha : a ∈ reached g globals) {c : Component Definition}
    (hc : g.store.get? a = some c) :
    (selection g globals).storeAt.get? ((reached g globals).idxOf a) =
      some ⟨c.template, c.children.map (reached g globals).idxOf, c.base⟩ := by
  obtain ⟨e, he, hname, hget⟩ := exists_get?_storeAt (mem_names_selection hg hglobals ha)
  rw [idxOf_selection hg hglobals ha] at hget
  obtain ⟨b, hb, d, hd, rfl⟩ := exists_of_mem_selection he
  rw [nameOf_of_get? hc] at hname
  cases hc.symm.trans ((eq_of_name hg.names hd hc hname) ▸ hd)
  have hchildren : (entryOf g.store c).children.map (selection g globals).linkAt =
      (c.children.map (reached g globals).idxOf).entries := by
    rw [entryOf, List.map_map, Dict.entries_map]
    refine List.map_congr_left fun link hlink => ?_
    have hmem := link_mem_reached ha ⟨link.1, Store.mem_links.mpr ⟨c, hc, hlink⟩⟩
    show (link.1, (selection g globals).names.idxOf (nameOf g.store link.2)) = _
    rw [idxOf_selection hg hglobals hmem]
  rw [hget, componentAt, hchildren, Dict.ofList_entries]
  rfl

theorem renames_selection :
    Renames (reached g globals).idxOf (· ∈ reached g globals) g.store
      (selection g globals).storeAt := by
  refine renames_idxOf (fun a ha b => link_mem_reached ha) fun a ha => ?_
  obtain ⟨c, hc, _⟩ := exists_of_mem_reached hg hglobals ha
  rw [Store.links, get?_selection hg hglobals ha hc, Store.links, hc]
  rfl

theorem size_selection : (selection g globals).storeAt.size = (reached g globals).length := by
  have hlength := congrArg List.length (map_some_selection hg hglobals)
  rw [List.length_map, List.length_map] at hlength
  rw [Store.size, storeAt, List.length_map, hlength]

/-- the walk of a selection meets the entries in their places -/
theorem reached_selection {places : Registry}
    (hplaces : places.entries =
      (selection g globals).globals.map (selection g globals).linkAt) :
    reached (selection g globals).graphAt places =
      List.range (selection g globals).storeAt.size := by
  have hroot : (selection g globals).graphAt.root = (reached g globals).idxOf g.root :=
    idxOf_selection hg hglobals (start_mem_reached (List.mem_cons_self ..))
  have hvalues : places.values = globals.values.map (reached g globals).idxOf := by
    rw [Dict.values, hplaces, selection, List.map_map, List.map_map, Dict.values, List.map_map]
    refine List.map_congr_left fun e he => ?_
    have hmem : e.2 ∈ g.root :: globals.values :=
      List.mem_cons_of_mem _ (List.mem_map_of_mem he)
    exact idxOf_selection hg hglobals (start_mem_reached hmem)
  rw [(renames_selection hg hglobals).reached_eq (fun _ => start_mem_reached) hroot hvalues,
    map_idxOf (nodup_reached g globals), size_selection hg hglobals]

theorem editable_selection (hscan : g.Editable) : (selection g globals).graphAt.Editable := by
  have hmem : g.root ∈ reached g globals := start_mem_reached (List.mem_cons_self ..)
  have hroot : (selection g globals).graphAt.root = (reached g globals).idxOf g.root :=
    idxOf_selection hg hglobals hmem
  intro id hid c hc
  have hids := (renames_selection hg hglobals).spanning_eq hmem
  rw [hroot, ← Store.mem_ids_spanning] at hid
  -- each id is the place of one that is reached in `g`, and has its template
  obtain ⟨a, ha, rfl⟩ : ∃ a ∈ (g.store.spanning g.root).ids, (reached g globals).idxOf a = id := by
    rwa [← List.mem_map, ← Forest.ids_map, ← hids]
  have hreach := g.store.mem_ids_spanning.mp ha
  have hmem' : a ∈ reached g globals := mem_reached.mpr ⟨g.root, List.mem_cons_self .., hreach⟩
  obtain ⟨d, hd, _⟩ := exists_of_mem_reached hg hglobals hmem'
  obtain rfl := Option.some.inj (hc.symm.trans (get?_selection hg hglobals hmem' hd))
  exact hscan a hreach d hd

end

/-! ## normal forms -/

section
variable {m : Manifest} {globals : Registry}

theorem normalForm?_eq_selection {g : Graph Definition} (h : m.toGraph = .ok (g, globals))
    (hscan : g.Editable) : m.normalForm? = some (selection g globals) := by
  obtain ⟨hg, hglobals⟩ := sound_of_toGraph h
  obtain ⟨log, t, hrun, hids, hall⟩ := transform_declining declines_of_no_rules
    (forM_plan_of_editable hg hglobals hscan) (RuleSet.noHits [])
  have hmanifest : (ofGraph (graphOf log g.root)).withGlobals g globals =
      selection g globals := by
    rw [ofGraph_graphOf hids hall, withGlobals_spanning hg hglobals]
  simp only [normalForm?, h, Except.toOption, Option.bind_eq_bind, Option.bind_some]
  rw [hrun, Option.bind_some, hmanifest]
  rfl

theorem entryAt_storeAt (hm : m.Consistent) (id : Nat) :
    entryAt m.storeAt id = (m.components[id]?).map Entry.collapsed := by
  rw [entryAt, storeAt, Store.get?, List.getElem?_map, Option.map_map]
  cases he : m.components[id]? with
  | none => rfl
  | some e =>
    have hentry := entryOf_componentAt_eq (hm.children e (List.mem_of_getElem? he))
    exact congrArg some hentry

theorem root_selection (hm : m.Consistent) (globals : Registry) :
    (selection m.graphAt globals).root = m.root :=
  nameOf_storeAt hm.root

theorem globals_selection (hm : m.Consistent)
    (hglobals : globals.entries = m.globals.map m.linkAt) :
    (selection m.graphAt globals).globals = m.globals := by
  rw [selection, hglobals]
  exact map_linkAt_references hm.globals

theorem filterMap_entryAt_range (s : Store Definition) :
    (List.range s.size).filterMap (entryAt s) = s.components.map (entryOf s) := by
  have h := congrArg (List.filterMap (Option.map (entryOf s))) (map_get?_range s)
  rw [List.filterMap_map, List.filterMap_map] at h
  rw [← List.filterMap_eq_map]
  exact h

/-- a manifest whose entries are in the places where a walk meets them is its own selection -/
theorem selection_graphAt (hm : m.Consistent) (hglobals : globals.entries = m.globals.map m.linkAt)
    (htags : ∀ e ∈ m.components, (e.children.map Reference.tag).Nodup)
    (hreached : reached m.graphAt globals = List.range m.storeAt.size) :
    selection m.graphAt globals = m := by
  have hentries : m.storeAt.components.map (entryOf m.storeAt) = m.components := by
    rw [storeAt, List.map_map]
    refine (List.map_congr_left fun e he => ?_).trans (List.map_id _)
    exact entryOf_componentAt hm he (htags e he)
  have hcomponents : (selection m.graphAt globals).components = m.components := by
    rw [selection, hreached]
    exact (filterMap_entryAt_range m.storeAt).trans hentries
  have hroot := root_selection hm globals
  have hreferences := globals_selection hm hglobals
  generalize selection m.graphAt globals = n at hroot hcomponents hreferences
  cases n
  cases m
  cases hroot
  cases hcomponents
  cases hreferences
  rfl

/-- the normal form of a selection is the selection -/
theorem normalForm?_selection {g : Graph Definition} (hg : g.Sound)
    (hglobals : ∀ id ∈ globals.values, id < g.store.size) (hscan : g.Editable) :
    (selection g globals).normalForm? = some (selection g globals) := by
  have hconsistent := consistent_selection hg hglobals
  obtain ⟨places, hgraph, hplaces⟩ := toGraph_of_consistent hconsistent
  have htags : ∀ e ∈ (selection g globals).components, (e.children.map Reference.tag).Nodup := by
    intro e he
    obtain ⟨_, _, c, _, rfl⟩ := exists_of_mem_selection he
    rw [entryOf, List.map_map]
    exact c.children.nodup
  rw [normalForm?_eq_selection hgraph (editable_selection hg hglobals hscan)]
  exact congrArg some (selection_graphAt hconsistent hplaces htags
    (reached_selection hg hglobals hplaces))

/-- Without rules, a manifest is brought into a normal form.  It has exactly the entries that the
root or a global component reaches, each once and in the order in which a walk meets them.  The
entries are unchanged up to repeated tags, and so are the root and the global components.  A
second time nothing changes. -/
theorem normalForm_stable (m : Manifest) (g : Graph Definition) (globals : Registry)
    (h : m.toGraph = .ok (g, globals))
    (hscan : ∀ id, g.store.Reaches g.root id → ∀ c, g.store.get? id = some c →
      ∃ found, scan c.template = .ok found) :
    ∃ n met, m.normalForm? = some n ∧
      (∀ id, id ∈ met ↔ ∃ start ∈ g.root :: globals.values, g.store.Reaches start id) ∧
      met.Nodup ∧ Walk g.store [] (g.root :: globals.values) met ∧
      n.components.map some = met.map (fun id => (m.components[id]?).map Entry.collapsed) ∧
      n.root = m.root ∧ n.globals = m.globals ∧ n.normalForm? = some n := by
  obtain ⟨hg, hglobals⟩ := sound_of_toGraph h
  obtain ⟨hm, rfl, hentries⟩ := eq_of_toGraph h
  refine ⟨selection m.graphAt globals, reached m.graphAt globals,
    normalForm?_eq_selection h hscan, fun _ => mem_reached, nodup_reached _ _, walk_reached _ _,
    ?_, root_selection hm globals, globals_selection hm hentries,
    normalForm?_selection hg hglobals hscan⟩
  rw [map_some_selection hg hglobals]
  exact List.map_congr_left fun id _ => entryAt_storeAt hm id

end

/-- a page and a link that lead to each other, a global component below neither of them, and an
entry that is out of reach -/
def tangled : Manifest where
  root := "page"
  components := [⟨"link", "<a/>", [⟨"x", "page"⟩], []⟩, ⟨"spare", "<i/>", [⟨"x", "page"⟩], []⟩,
    ⟨"page", "<p/>", [⟨"x", "spare"⟩, ⟨"y", "page"⟩, ⟨"x", "link"⟩], []⟩,
    ⟨"note", "<b/>", [⟨"x", "note"⟩, ⟨"y", "link"⟩], []⟩]
  globals := [⟨"n", "note"⟩, ⟨"p", "page"⟩]

def tangledGraph : Graph Definition :=
  ⟨⟨[named "link" "<a/>" [("x", 2)], named "spare" "<i/>" [("x", 2)],
    named "page" "<p/>" [("x", 0), ("y", 2)], named "note" "<b/>" [("x", 3), ("y", 0)]]⟩, 2⟩

def untangled : Manifest where
  root := "page"
  components := [⟨"page", "<p/>", [⟨"x", "link"⟩, ⟨"y", "page"⟩], []⟩,
    ⟨"link", "<a/>", [⟨"x", "page"⟩], []⟩, ⟨"note", "<b/>", [⟨"x", "note"⟩, ⟨"y", "link"⟩], []⟩]
  globals := [⟨"n", "note"⟩, ⟨"p", "page"⟩]

theorem normalForm_stable_tangled :
    tangled.toGraph = .ok (tangledGraph, Dict.ofList [("n", 3), ("p", 2)]) ∧
      (∀ c ∈ tangledGraph.store.components, ∃ found, scan c.template = .ok found) ∧
      tangled.normalForm? = some untangled ∧ untangled.root = tangled.root ∧
      untangled.globals = tangled.globals ∧ untangled.normalForm? = some untangled := by
  have hgraph : tangled.toGraph = .ok (tangledGraph, Dict.ofList [("n", 3), ("p", 2)]) := by cbv
  have hscan : ∀ c ∈ tangledGraph.store.components, ∃ found, scan c.template = .ok found := by
    have hall : ∀ c ∈ tangledGraph.store.components, (scan c.template).isOk = true := by
      decide +kernel
    exact fun c hc => exists_of_isOk (hall c hc)
  have huntangled : tangled.normalForm? = some untangled := by cbv
  obtain ⟨n, met, hn, _, _, _, _, hroot, hglobals, hagain⟩ := normalForm_stable tangled
    tangledGraph _ hgraph fun id _ c hc => hscan c (List.mem_of_getElem? hc)
  cases huntangled.symm.trans hn
  exact ⟨hgraph, hscan, huntangled, hroot, hglobals, hagain⟩

end Manifest

end Stencil
