import Mathlib
import Stencil.Proofs.Manifest.Names

/-!
# Manifests with the global components of another graph

The entries that a manifest lacks for its global components are copied from the graph that these
belong to.  The copying stops at every name that the manifest has already, so the two graphs get
mixed; no name is left unresolved all the same, and none is defined twice.

* `Graph.Sound`                  all ids are in the store, and the names are distinct;
* `Completes`                    copies that leave no name open;
* `missingEntries_completes`     the copied entries are such;
* `addGlobals_eq_filterMap`      the global tags that are added;
* `Joins`                        the manifest of one graph with the global components of another;
* `toGraph_withGlobals`          its graph, and what the global tags mean in it.
-/

namespace Stencil

/-- a graph with all of its ids in its store and with pairwise distinct names -/
structure Graph.Sound (g : Graph Definition) : Prop where
  root : g.root < g.store.size
  children : ∀ c ∈ g.store.components, ∀ id ∈ c.children.values, id < g.store.size
  names : g.store.names.Nodup

/-- components of a sound graph with the same name are the same -/
theorem Graph.Sound.eq_of_name {g : Graph Definition} (h : g.Sound)
    {c d : Component Definition} (hc : c ∈ g.store.components) (hd : d ∈ g.store.components)
    (hname : c.base.name = d.base.name) : c = d :=
  List.inj_on_of_nodup_map h.names hc hd hname

namespace Manifest

/-! ## copied entries -/

section
variable {s : Store Definition} {known : List String} {pending : List Nat} {id : Nat}
  {c : Component Definition}

theorem missingEntries_nil : missingEntries s known [] = [] := by
  rw [missingEntries]

theorem missingEntries_of_none (hc : s.get? id = none) :
    missingEntries s known (id :: pending) = missingEntries s known pending := by
  rw [missingEntries]
  split
  · rfl
  · rename_i hd
    cases hc.symm.trans hd

theorem missingEntries_of_known (hc : s.get? id = some c) (hknown : c.base.name ∈ known) :
    missingEntries s known (id :: pending) = missingEntries s known pending := by
  rw [missingEntries]
  split
  · rfl
  · rename_i d hd
    cases hc.symm.trans hd
    rw [dif_pos (List.contains_iff_mem.mpr hknown)]

theorem missingEntries_of_new (hc : s.get? id = some c) (hnew : c.base.name ∉ known) :
    missingEntries s known (id :: pending) = entryOf s c ::
      missingEntries s (known ++ [c.base.name]) (c.children.values ++ pending) := by
  rw [missingEntries]
  split
  · rename_i hnone
    cases hnone.symm.trans hc
  · rename_i d hd
    cases hc.symm.trans hd
    rw [dif_neg fun hmem => hnew (List.contains_iff_mem.mp hmem)]

end

/-- components of `s` to add to known names, so that everything pending and all children of what is
added can be found by name, and no name is there twice -/
structure Completes (s : Store Definition) (known : List String) (pending : List Nat)
    (copied : List (Component Definition)) : Prop where
  stored : ∀ c ∈ copied, c ∈ s.components
  fresh : ∀ c ∈ copied, c.base.name ∉ known
  nodup : (Store.names ⟨copied⟩).Nodup
  pending : ∀ id ∈ pending, ∀ c, s.get? id = some c →
    c.base.name ∈ known ++ Store.names ⟨copied⟩
  children : ∀ c ∈ copied, ∀ id ∈ c.children.values, ∀ d, s.get? id = some d →
    d.base.name ∈ known ++ Store.names ⟨copied⟩

theorem names_cons (c : Component Definition) (l : List (Component Definition)) :
    Store.names ⟨c :: l⟩ = c.base.name :: Store.names ⟨l⟩ := rfl

variable {s : Store Definition} {known : List String} {copied : List (Component Definition)}

/-- a pending id whose name is known, or that has no component, needs no copy -/
theorem Completes.skip {id : Nat} {pending : List Nat} (h : Completes s known pending copied)
    (hknown : ∀ c, s.get? id = some c → c.base.name ∈ known) :
    Completes s known (id :: pending) copied where
  stored := h.stored
  fresh := h.fresh
  nodup := h.nodup
  children := h.children
  pending := by
    rw [List.forall_mem_cons]
    exact ⟨fun c hc => List.mem_append_left _ (hknown c hc), h.pending⟩

/-- a pending id whose name is new is copied, and its children become pending -/
theorem Completes.copy {id : Nat} {pending : List Nat} {c : Component Definition}
    (h : Completes s (known ++ [c.base.name]) (c.children.values ++ pending) copied)
    (hc : s.get? id = some c) (hnew : c.base.name ∉ known) :
    Completes s known (id :: pending) (c :: copied) := by
  have hnames : known ++ Store.names ⟨c :: copied⟩ =
      known ++ [c.base.name] ++ Store.names ⟨copied⟩ := by
    rw [names_cons, List.append_assoc, List.singleton_append]
  have hfresh : ∀ d ∈ copied, d.base.name ∉ known ∧ d.base.name ≠ c.base.name := by
    intro d hd
    have hd := h.fresh d hd
    rwa [List.mem_append, List.mem_singleton, not_or] at hd
  constructor
  · rw [List.forall_mem_cons]
    exact ⟨List.mem_of_getElem? hc, h.stored⟩
  · rw [List.forall_mem_cons]
    exact ⟨hnew, fun d hd => (hfresh d hd).1⟩
  · rw [names_cons, List.nodup_cons]
    refine ⟨fun hmem => ?_, h.nodup⟩
    obtain ⟨d, hd, hname⟩ := List.mem_map.mp hmem
    exact (hfresh d hd).2 hname
  · rw [hnames, List.forall_mem_cons]
    refine ⟨fun d hd => ?_, fun i hi => h.pending i (List.mem_append_right _ hi)⟩
    cases hc.symm.trans hd
    exact List.mem_append_left _ (List.mem_append_right _ (List.mem_singleton_self _))
  · rw [hnames, List.forall_mem_cons]
    exact ⟨fun i hi => h.pending i (List.mem_append_left _ hi), h.children⟩

theorem missingEntries_completes (s : Store Definition) (known : List String)
    (pending : List Nat) :
    ∃ copied, missingEntries s known pending = copied.map (entryOf s) ∧
      Completes s known pending copied := by
  -- the recursion of the walk: a name is added to the known ones just when its entry is copied
  induction known, pending using missingEntries.induct s with
  | case1 known =>
    exact ⟨[], missingEntries_nil, by constructor <;> simp [Store.names]⟩
  | case2 known id pending hnone ih =>
    obtain ⟨copied, hentries, hcopied⟩ := ih
    rw [missingEntries_of_none hnone]
    exact ⟨copied, hentries, hcopied.skip fun c hc => by cases hnone.symm.trans hc⟩
  | case3 known id pending c hc hknown ih =>
    obtain ⟨copied, hentries, hcopied⟩ := ih
    have hknown := List.contains_iff_mem.mp hknown
    rw [missingEntries_of_known hc hknown]
    refine ⟨copied, hentries, hcopied.skip fun d hd => ?_⟩
    cases hc.symm.trans hd
    exact hknown
  | case4 known id pending c hc hnew ih =>
    obtain ⟨copied, hentries, hcopied⟩ := ih
    have hnew : c.base.name ∉ known := fun hmem => hnew (List.contains_iff_mem.mpr hmem)
    rw [missingEntries_of_new hc hnew, hentries]
    exact ⟨c :: copied, rfl, hcopied.copy hc hnew⟩

/-! ## global references -/

/-- the reference for an entry of a registry, if its tag is not among `tags` and its id has a
component -/
def referenceAt (s : Store Definition) (tags : List String) (e : String × Nat) :
    Option Reference :=
  if e.1 ∈ tags then none else (s.get? e.2).map fun c => ⟨e.1, c.base.name⟩

theorem addGlobals_cons (globals : List Reference) (e : String × Nat) (l : List (String × Nat)) :
    addGlobals s globals (e :: l) =
      addGlobals s (globals ++ (referenceAt s (globals.map Reference.tag) e).toList) l := by
  have hcontains : s.contains e.2 = (s.get? e.2).isSome := by
    rw [Bool.eq_iff_iff, Store.contains, decide_eq_true_eq, Store.get?, Store.size]
    simp
  have hany : globals.any (fun r => r.tag == e.1) = decide (e.1 ∈ globals.map Reference.tag) := by
    rw [Bool.eq_iff_iff, List.any_eq_true, decide_eq_true_eq, List.mem_map]
    simp only [beq_iff_eq]
  rw [addGlobals, hcontains, hany, referenceAt]
  by_cases htag : e.1 ∈ globals.map Reference.tag
  · simp [htag]
  · cases hc : s.get? e.2 with
    | none => simp [htag]
    | some c => simp [htag, nameOf_of_get? hc]

/-- a tag that is added keeps others from being added only if they are the same -/
theorem referenceAt_concat {tags : List String} {tag : String} {e : String × Nat}
    (hne : e.1 ≠ tag) : referenceAt s (tags ++ [tag]) e = referenceAt s tags e := by
  simp only [referenceAt, List.mem_append, List.mem_singleton, hne, or_false]

theorem tag_of_referenceAt {tags : List String} {e : String × Nat} {r : Reference}
    (h : referenceAt s tags e = some r) : r.tag = e.1 := by
  rw [referenceAt] at h
  split at h
  · cases h
  · obtain ⟨c, _, rfl⟩ := Option.map_eq_some_iff.mp h
    rfl

/-- references are added for the entries whose tags are new and whose ids have components -/
theorem addGlobals_eq_filterMap {globals : List Reference} {l : List (String × Nat)}
    (htags : (l.map Prod.fst).Nodup) :
    addGlobals s globals l =
      globals ++ l.filterMap (referenceAt s (globals.map Reference.tag)) := by
  induction l generalizing globals with
  | nil => rw [addGlobals, List.filterMap_nil, List.append_nil]
  | cons e l ih =>
    rw [List.map_cons, List.nodup_cons] at htags
    rw [addGlobals_cons, ih htags.2]
    cases href : referenceAt s (globals.map Reference.tag) e with
    | none => rw [Option.toList_none, List.append_nil, List.filterMap_cons_none href]
    | some r =>
      rw [Option.toList_some, List.map_append, List.map_singleton, tag_of_referenceAt href,
        List.filterMap_cons_some href, List.append_assoc, List.singleton_append]
      refine congrArg (fun more => globals ++ r :: more) (List.filterMap_congr fun d hd => ?_)
      exact referenceAt_concat fun heq => htags.1 (heq ▸ List.mem_map_of_mem hd)

/-- if all tags are new and all ids have components there is a reference for each entry -/
theorem addGlobals_eq {globals : List Reference} {l : List (String × Nat)}
    (hids : ∀ e ∈ l, e.2 < s.size)
    (htags : (globals.map Reference.tag ++ l.map Prod.fst).Nodup) :
    addGlobals s globals l = globals ++ l.map fun e => ⟨e.1, nameOf s e.2⟩ := by
  obtain ⟨_, hl, hdisjoint⟩ := List.nodup_append.mp htags
  have hmap : (l.map fun e => (⟨e.1, nameOf s e.2⟩ : Reference)) =
      l.filterMap fun e => some ⟨e.1, nameOf s e.2⟩ := (congrFun List.filterMap_eq_map l).symm
  rw [addGlobals_eq_filterMap hl, hmap]
  refine congrArg (globals ++ ·) (List.filterMap_congr fun e he => ?_)
  obtain ⟨c, hc, hname⟩ := exists_get? (hids e he)
  have hnew : e.1 ∉ globals.map Reference.tag :=
    fun hmem => hdisjoint e.1 hmem e.1 (List.mem_map_of_mem he) rfl
  rw [referenceAt, if_neg hnew, hc, hname]
  rfl

/-! ## the manifest of two graphs -/

variable {out source : Graph Definition} {globals : Registry}

/-- a manifest of `out` with references to components of `source`, some of which it copies -/
structure Joins (out source : Graph Definition) (globals : Registry) (m : Manifest)
    (copied : List (Component Definition)) : Prop where
  completes : Completes source.store out.store.names globals.values copied
  root : m.root = nameOf out.store out.root
  components : m.components =
    out.store.components.map (entryOf out.store) ++ copied.map (entryOf source.store)
  globals : m.globals = globals.entries.map fun e => ⟨e.1, nameOf source.store e.2⟩

theorem exists_joins (out : Graph Definition)
    (hglobals : ∀ id ∈ globals.values, id < source.store.size) :
    ∃ copied, Joins out source globals ((ofGraph out).withGlobals source globals) copied := by
  obtain ⟨copied, hentries, hcopied⟩ :=
    missingEntries_completes source.store out.store.names globals.values
  have hids : ∀ e ∈ globals.entries, e.2 < source.store.size :=
    fun e he => hglobals _ (List.mem_map_of_mem he)
  have htags : (([] : List Reference).map Reference.tag ++
      globals.entries.map Prod.fst).Nodup := globals.nodup
  refine ⟨copied, hcopied, rfl, ?_, (addGlobals_eq hids htags).trans (List.nil_append _)⟩
  rw [← hentries, ← names_ofGraph]
  rfl

section
variable {m : Manifest} {copied : List (Component Definition)}

theorem Joins.names_eq (h : Joins out source globals m copied) :
    m.names = out.store.names ++ Store.names ⟨copied⟩ := by
  rw [names, h.components, List.map_append, List.map_map, List.map_map]
  rfl

theorem mem_names_of_children {s : Store Definition} {c : Component Definition}
    (h : ∀ id ∈ c.children.values, nameOf s id ∈ m.names) :
    ∀ r ∈ (entryOf s c).children, r.component ∈ m.names := by
  intro r hr
  obtain ⟨e, he, rfl⟩ := List.mem_map.mp hr
  exact h e.2 (List.mem_map_of_mem he)

theorem Joins.mem_names_of_global (h : Joins out source globals m copied) {id : Nat}
    (hid : id ∈ globals.values) {c : Component Definition} (hc : source.store.get? id = some c) :
    c.base.name ∈ m.names := by
  rw [h.names_eq]
  exact h.completes.pending id hid c hc

theorem Joins.consistent (h : Joins out source globals m copied) (hout : out.Sound)
    (hsource : source.Sound) (hglobals : ∀ id ∈ globals.values, id < source.store.size) :
    m.Consistent := by
  have hkept : ∀ id < out.store.size, nameOf out.store id ∈ m.names := by
    intro id hid
    rw [h.names_eq]
    exact List.mem_append_left _ (nameOf_mem_names hid)
  constructor
  · rw [h.names_eq, List.nodup_append]
    refine ⟨hout.names, h.completes.nodup, fun a ha b hb hab => ?_⟩
    obtain ⟨c, hc, rfl⟩ := List.mem_map.mp hb
    exact h.completes.fresh c hc (hab ▸ ha)
  · rw [h.components, List.forall_mem_append, List.forall_mem_map, List.forall_mem_map]
    constructor
    · intro c hc
      exact mem_names_of_children fun id hid => hkept id (hout.children c hc id hid)
    · intro c hc
      refine mem_names_of_children fun id hid => ?_
      obtain ⟨d, hget, hname⟩ :=
        exists_get? (hsource.children c (h.completes.stored c hc) id hid)
      rw [h.names_eq, hname]
      exact h.completes.children c hc id hid d hget
  · rw [h.globals, List.forall_mem_map]
    intro e he
    have hmem : e.2 ∈ globals.values := List.mem_map_of_mem he
    obtain ⟨d, hget, hname⟩ := exists_get? (hglobals e.2 hmem)
    rw [hname]
    exact h.mem_names_of_global hmem hget
  · rw [h.globals, List.map_map]
    exact globals.nodup
  · rw [h.root]
    exact hkept out.root hout.root

theorem Joins.components_storeAt (h : Joins out source globals m copied) (hout : out.Sound) :
    m.storeAt.components =
      out.store.components ++ (copied.map (entryOf source.store)).map m.componentAt := by
  rw [storeAt, h.components, List.map_append,
    map_componentAt_entryOf h.names_eq hout.names hout.children]

theorem Joins.idxOf_name (h : Joins out source globals m copied) (hout : out.Sound) {k : Nat}
    {c : Component Definition} (hc : out.store.get? k = some c) :
    m.names.idxOf c.base.name = k ∧ m.storeAt.get? k = some c := by
  have hlt : k < out.store.size := (List.getElem?_eq_some_iff.mp hc).1
  constructor
  · rw [← nameOf_of_get? hc, h.names_eq, idxOf_nameOf hout.names hlt]
  · rw [Store.get?, h.components_storeAt hout, List.getElem?_append_left hlt]
    exact hc

theorem Joins.copy_of_name (h : Joins out source globals m copied) (hsource : source.Sound)
    (hm : m.Consistent) {c : Component Definition} (hc : c ∈ source.store.components)
    {e : Entry} (he : e ∈ m.components) (hname : e.name = c.base.name)
    (hmissing : c.base.name ∉ out.store.names) :
    e = entryOf source.store c ∧ entryOf m.storeAt (m.componentAt e) = e := by
  -- the entries of `out` have other names
  have hcopied : ∃ d ∈ copied, entryOf source.store d = e := by
    rw [h.components, List.mem_append] at he
    rcases he with he | he
    · obtain ⟨d, hd, rfl⟩ := List.mem_map.mp he
      exact absurd (hname ▸ List.mem_map_of_mem hd) hmissing
    · exact List.mem_map.mp he
  obtain ⟨d, hd, rfl⟩ := hcopied
  have htags : ((entryOf source.store d).children.map Reference.tag).Nodup := by
    rw [entryOf, List.map_map]
    exact d.children.nodup
  have hsame := hsource.eq_of_name (h.completes.stored d hd) hc hname
  exact ⟨by rw [hsame], entryOf_componentAt hm he htags⟩

end

/-- The manifest of a sound graph, with the global components of another one, describes a graph that
starts with the components of the first one, under their ids.  Its global tags are those of the
registry.  Each stands for the component of the name that it has in the other graph: the one of
the first graph if there is one, or else a copy. -/
theorem toGraph_withGlobals (out source : Graph Definition) (globals : Registry)
    (hout : out.Sound) (hsource : source.Sound)
    (hglobals : ∀ id ∈ globals.values, id < source.store.size) :
    ∃ g r, ((ofGraph out).withGlobals source globals).toGraph = .ok (g, r) ∧
      g.root = out.root ∧ out.store.components <+: g.store.components ∧
      r.keys = globals.keys ∧
      ∀ tag id, globals.get? tag = some id → ∃ place c d,
        r.get? tag = some place ∧ source.store.get? id = some c ∧
        g.store.get? place = some d ∧ d.base.name = c.base.name ∧
        (∀ k e, out.store.get? k = some e → e.base.name = c.base.name → place = k ∧ d = e) ∧
        (c.base.name ∉ out.store.names →
          d.template = c.template ∧ d.base.extra = c.base.extra ∧
          (entryOf g.store d).children = (entryOf source.store c).children) := by
  obtain ⟨copied, hjoins⟩ := exists_joins out hglobals
  have hm := hjoins.consistent hout hsource hglobals
  generalize (ofGraph out).withGlobals source globals = m at hjoins hm ⊢
  obtain ⟨r, hgraph, hentries⟩ := toGraph_of_consistent hm
  have hlinks : r.entries =
      globals.entries.map fun e => (e.1, m.names.idxOf (nameOf source.store e.2)) := by
    rw [hentries, hjoins.globals, List.map_map]
    rfl
  refine ⟨_, r, hgraph, ?_, ⟨_, (hjoins.components_storeAt hout).symm⟩, ?_, ?_⟩
  · show m.names.idxOf m.root = out.root
    rw [hjoins.root, hjoins.names_eq, idxOf_nameOf hout.names hout.root]
  · rw [Dict.keys, hlinks, List.map_map]
    rfl
  · intro tag id hid
    have hentry := Dict.get?_eq_some_iff.mp hid
    have hmem : id ∈ globals.values := List.mem_map_of_mem hentry
    obtain ⟨c, hc, hname⟩ := exists_get? (hglobals id hmem)
    obtain ⟨e, he, hsame, hget⟩ := exists_get?_storeAt (hjoins.mem_names_of_global hmem hc)
    refine ⟨m.names.idxOf c.base.name, c, m.componentAt e, ?_, hc, hget, hsame, ?_, ?_⟩
    · rw [Dict.get?_eq_some_iff, hlinks, List.mem_map]
      exact ⟨(tag, id), hentry, by rw [hname]⟩
    · -- the names of `out` come first, and their places are the ids in `out`
      intro k d hd hdc
      obtain ⟨hplace, hkept⟩ := hjoins.idxOf_name hout hd
      rw [hdc] at hplace
      rw [hplace, hkept] at hget
      exact ⟨hplace, (Option.some.inj hget).symm⟩
    · intro hmissing
      obtain ⟨rfl, hcopy⟩ :=
        hjoins.copy_of_name hsource hm (List.mem_of_getElem? hc) he hsame hmissing
      exact ⟨rfl, rfl, congrArg Entry.children hcopy⟩

def named (name template : String) (children : List (String × Nat)) : Component Definition :=
  ⟨template, Dict.ofList children, ⟨name, []⟩⟩

/-- three components in a cycle, and two more that lead to it and to each other -/
def cycleGraph : Graph Definition :=
  ⟨⟨[named "a" "<a/>" [("x-b", 1)], named "b" "<b/>" [("x-c", 2)], named "c" "<c/>" [("x-a", 0)],
    named "l" "<l/>" [("x-b", 1), ("x-n", 4)], named "n" "<n/>" [("x-l", 3)]]⟩, 0⟩

/-- two of these in another order and with other templates and children -/
def pairGraph : Graph Definition :=
  ⟨⟨[named "b" "<b x/>" [("x-a", 1)], named "a" "<a x/>" [("x-b", 0)]]⟩, 1⟩

/-- the pair with the other three behind it -/
def pairWithCopies : Graph Definition :=
  ⟨⟨[named "b" "<b x/>" [("x-a", 1)], named "a" "<a x/>" [("x-b", 0)],
    named "l" "<l/>" [("x-b", 0), ("x-n", 3)], named "n" "<n/>" [("x-l", 2)],
    named "c" "<c/>" [("x-a", 1)]]⟩, 1⟩

def cycleGlobals : Registry := Dict.ofList [("x-b", 1), ("x-l", 3), ("x-c", 2)]

theorem toGraph_withGlobals_pair :
    pairGraph.Sound ∧ cycleGraph.Sound ∧
      (∀ id ∈ cycleGlobals.values, id < cycleGraph.store.size) ∧
      ((ofGraph pairGraph).withGlobals cycleGraph cycleGlobals).toGraph =
        .ok (pairWithCopies, Dict.ofList [("x-b", 0), ("x-l", 2), ("x-c", 4)]) ∧
      pairGraph.store.components <+: pairWithCopies.store.components ∧
      ∃ d, pairWithCopies.store.get? 2 = some d ∧ d.template = "<l/>" ∧
        (entryOf pairWithCopies.store d).children = [⟨"x-b", "b"⟩, ⟨"x-n", "n"⟩] := by
  have hout : pairGraph.Sound := ⟨by decide, by decide, by decide⟩
  have hsource : cycleGraph.Sound := ⟨by decide, by decide, by decide⟩
  have hglobals : ∀ id ∈ cycleGlobals.values, id < cycleGraph.store.size := by decide
  have hevaluated : ((ofGraph pairGraph).withGlobals cycleGraph cycleGlobals).toGraph =
      .ok (pairWithCopies, Dict.ofList [("x-b", 0), ("x-l", 2), ("x-c", 4)]) := by cbv
  obtain ⟨g, r, hgraph, _, hprefix, _, htags⟩ :=
    toGraph_withGlobals pairGraph cycleGraph cycleGlobals hout hsource hglobals
  cases hevaluated.symm.trans hgraph
  obtain ⟨place, c, d, hplace, hc, hd, _, _, hcopy⟩ := htags "x-l" 3 rfl
  cases hplace
  cases hc
  obtain ⟨htemplate, _, hchildren⟩ := hcopy (by decide)
  exact ⟨hout, hsource, hglobals, hevaluated, hprefix, d, hd, htemplate, hchildren⟩

end Manifest

end Stencil
