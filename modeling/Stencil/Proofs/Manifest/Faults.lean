import Stencil.Proofs.Manifest.Names

/-!
# The first fault of a manifest

A manifest that is not consistent describes no graph, and there may be several reasons for it.  The
names of the entries are looked at first, then the children of all entries, then the global
components one by one, and the root last.  Of the faults of one kind the first one counts.

* `Manifest.Finds`         references that all name a component;
* `Manifest.Faulty`        an error that speaks of a fault, with nothing wrong before it;
* `Faulty.toGraph_eq`      such a fault is reported;
* `faulty_of_toGraph`      what is reported is such a fault;
* `toGraph_result`         when there is a graph, and when there is which error.
-/

namespace Stencil

namespace Manifest

variable {m : Manifest}

/-! ## faults -/

/-- every reference names a component -/
def Finds (m : Manifest) (l : List Reference) : Prop := ∀ r ∈ l, r.component ∈ m.names

/-- the children of all entries, in the order of the entries and of their declarations -/
def childReferences (m : Manifest) : List Reference := m.components.flatMap Entry.children

/-- the first fault of a manifest, as the error that it gives -/
inductive Faulty (m : Manifest) : Error → Prop
  /-- an entry has the name of an earlier one -/
  | name {before after : List String} {n : String} (h : m.names = before ++ n :: after)
      (hbefore : before.Nodup) (hn : n ∈ before) : Faulty m (.duplicate n)
  /-- a child names no component -/
  | child {before after : List Reference} {r : Reference} (hnames : m.names.Nodup)
      (h : m.childReferences = before ++ r :: after) (hbefore : m.Finds before)
      (hr : r.component ∉ m.names) : Faulty m (.unknownComponent r.component)
  /-- a global tag stands for no component, whether it is there already or not -/
  | globalName {before after : List Reference} {r : Reference} (hnames : m.names.Nodup)
      (hchildren : m.Finds m.childReferences) (h : m.globals = before ++ r :: after)
      (hbefore : m.Finds before) (htags : (before.map Reference.tag).Nodup)
      (hr : r.component ∉ m.names) : Faulty m (.unknownComponent r.component)
  /-- a global tag for a component is there already -/
  | globalTag {before after : List Reference} {r : Reference} (hnames : m.names.Nodup)
      (hchildren : m.Finds m.childReferences) (h : m.globals = before ++ r :: after)
      (hbefore : m.Finds before) (htags : (before.map Reference.tag).Nodup)
      (hr : r.component ∈ m.names) (htag : r.tag ∈ before.map Reference.tag) :
      Faulty m (.duplicateGlobal r.tag)
  /-- nothing is wrong but the root -/
  | root (hnames : m.names.Nodup) (hchildren : m.Finds m.childReferences)
      (hglobals : m.Finds m.globals) (htags : (m.globals.map Reference.tag).Nodup)
      (hroot : m.root ∉ m.names) : Faulty m (.unknownComponent m.root)

/-! ## first elements -/

section
variable {α : Type} {P : List α → α → Prop}

theorem not_split_nil : ¬ ∃ before a after, ([] : List α) = before ++ a :: after ∧ P before a := by
  rintro ⟨before, a, after, h, _⟩
  cases before <;> cases h

/-- an element of a list is its head, or stands behind it -/
theorem split_cons_iff {a : α} {l : List α} :
    (∃ before b after, a :: l = before ++ b :: after ∧ P before b) ↔
      P [] a ∨ ∃ before b after, l = before ++ b :: after ∧ P (a :: before) b := by
  constructor
  · rintro ⟨before, b, after, h, hb⟩
    cases before with
    | nil => exact .inl ((List.cons.inj h).1 ▸ hb)
    | cons c before =>
      obtain ⟨rfl, rfl⟩ := List.cons.inj h
      exact .inr ⟨before, b, after, rfl, hb⟩
  · rintro (ha | ⟨before, b, after, rfl, hb⟩)
    · exact ⟨[], a, l, rfl, ha⟩
    · exact ⟨a :: before, b, after, rfl, hb⟩

theorem bind_pure_eq_error_iff {ε γ : Type} {x : Except ε α} {f : α → γ} {e : ε} :
    (x >>= fun a => pure (f a)) = .error e ↔ x = .error e := by
  cases x with
  | error e' => exact ⟨fun h => (by cases h; rfl), fun h => (by cases h; rfl)⟩
  | ok a => exact ⟨fun h => (by cases h), fun h => (by cases h)⟩

end

/-! ## names -/

/-- a name is found where it stands behind an equal one for the first time -/
theorem firstRepeated_eq_some_iff {seen l : List String} {n : String} :
    firstRepeated seen l = some n ↔ ∃ before a after, l = before ++ a :: after ∧
      (before.Nodup ∧ (∀ b ∈ before, b ∉ seen) ∧ a ∈ seen ++ before ∧ a = n) := by
  induction l generalizing seen with
  | nil => exact ⟨fun h => (by cases h), fun h => absurd h not_split_nil⟩
  | cons a l ih =>
    rw [split_cons_iff, firstRepeated, List.contains_eq_mem, List.append_nil]
    by_cases ha : a ∈ seen
    · rw [if_pos (decide_eq_true ha), Option.some.injEq]
      constructor
      · intro hn
        exact .inl ⟨List.nodup_nil, by simp, ha, hn⟩
      · rintro (⟨_, _, _, hn⟩ | ⟨before, b, after, _, _, hseen, _⟩)
        · exact hn
        · exact absurd ha (hseen a (List.mem_cons_self ..))
    · rw [if_neg (by rwa [decide_eq_true_eq]), ih, or_iff_right fun h => ha h.2.2.1]
      simp only [← and_assoc, nodup_new_cons_iff ha, List.append_assoc, List.singleton_append]

theorem idOf_eq_error_iff {name : String} {e : Error} :
    m.idOf name = .error e ↔ name ∉ m.names ∧ e = .unknownComponent name := by
  by_cases hname : name ∈ m.names
  · rw [idOf_of_mem hname]
    exact ⟨fun h => (by cases h), fun h => absurd hname h.1⟩
  · rw [idOf, List.idxOf?_eq_none_iff.mpr hname]
    exact ⟨fun h => (by cases h; exact ⟨hname, rfl⟩), fun h => (by rw [h.2])⟩

/-! ## children -/

theorem finds_nil : m.Finds [] := List.forall_mem_nil _

theorem finds_cons {r : Reference} {l : List Reference} :
    m.Finds (r :: l) ↔ r.component ∈ m.names ∧ m.Finds l := List.forall_mem_cons

theorem finds_childReferences : m.Finds m.childReferences ↔
    ∀ e ∈ m.components, ∀ r ∈ e.children, r.component ∈ m.names := by
  rw [Finds, childReferences, List.forall_mem_flatMap]

/-- the links of references fail with the first one that names no component -/
theorem mapM_linkOf_eq_error_iff {l : List Reference} {e : Error} :
    l.mapM m.linkOf = .error e ↔ ∃ before r after, l = before ++ r :: after ∧
      (m.Finds before ∧ r.component ∉ m.names ∧ e = .unknownComponent r.component) := by
  induction l with
  | nil => exact ⟨fun h => (by cases h), fun h => absurd h not_split_nil⟩
  | cons r l ih =>
    simp only [split_cons_iff, finds_cons, and_assoc]
    rw [List.mapM_cons, linkOf]
    by_cases hr : r.component ∈ m.names
    · rw [idOf_of_mem hr, or_iff_right fun h => h.2.1 hr]
      simp only [hr, true_and]
      exact bind_pure_eq_error_iff.trans ih
    · rw [idOf_eq_error_iff.mpr ⟨hr, rfl⟩, or_iff_left]
      · exact ⟨fun h => (by cases h; exact ⟨finds_nil, hr, rfl⟩), fun h => (by rw [h.2.2]; rfl)⟩
      · -- nothing behind `r` can be the first fault
        rintro ⟨_, _, _, _, h, _⟩
        exact hr h

/-- the components of entries fail as the links of their children do -/
theorem mapM_componentOf_eq_error_iff {l : List Entry} {e : Error} :
    l.mapM m.componentOf = .error e ↔ (l.flatMap Entry.children).mapM m.linkOf = .error e := by
  induction l with
  | nil => exact ⟨fun h => (by cases h), fun h => (by cases h)⟩
  | cons entry l ih =>
    rw [List.mapM_cons, List.flatMap_cons, List.mapM_append, componentOf]
    cases entry.children.mapM m.linkOf with
    | error e' => exact ⟨fun h => (by cases h; rfl), fun h => (by cases h; rfl)⟩
    | ok links => exact bind_pure_eq_error_iff.trans (ih.trans bind_pure_eq_error_iff.symm)

/-! ## global components -/

theorem registerGlobal_eq_error_iff {globals : Registry} {r : Reference} {e : Error} :
    m.registerGlobal globals r = .error e ↔
      (r.component ∉ m.names ∧ e = .unknownComponent r.component) ∨
      (r.component ∈ m.names ∧ r.tag ∈ globals.keys ∧ e = .duplicateGlobal r.tag) := by
  by_cases hr : r.component ∈ m.names
  · rw [registerGlobal, idOf_of_mem hr, or_iff_right fun h => h.1 hr]
    show (Registry.register globals r.tag _).mapError _ = _ ↔ _
    rw [Registry.register_eq]
    by_cases htag : r.tag ∈ globals.keys
    · rw [if_pos htag]
      exact ⟨fun h => (by cases h; exact ⟨hr, htag, rfl⟩), fun h => (by rw [h.2.2]; rfl)⟩
    · rw [if_neg htag]
      exact ⟨fun h => (by cases h), fun h => absurd h.2.1 htag⟩
  · rw [registerGlobal, idOf_eq_error_iff.mpr ⟨hr, rfl⟩, or_iff_left fun h => hr h.1]
    exact ⟨fun h => (by cases h; exact ⟨hr, rfl⟩), fun h => (by rw [h.2]; rfl)⟩

/-- global components fail with the first that names no component, or has a tag of an earlier one -/
theorem foldlM_registerGlobal_eq_error_iff {l : List Reference} {globals : Registry} {e : Error} :
    l.foldlM m.registerGlobal globals = .error e ↔ ∃ before r after, l = before ++ r :: after ∧
      (m.Finds before ∧ (globals.keys ++ before.map Reference.tag).Nodup ∧
        ((r.component ∉ m.names ∧ e = .unknownComponent r.component) ∨
          (r.component ∈ m.names ∧ r.tag ∈ globals.keys ++ before.map Reference.tag ∧
            e = .duplicateGlobal r.tag))) := by
  induction l generalizing globals with
  | nil => exact ⟨fun h => (by cases h), fun h => absurd h not_split_nil⟩
  | cons r l ih =>
    rw [split_cons_iff, List.foldlM_cons]
    cases hregister : m.registerGlobal globals r with
    | error e' =>
      have hfault := registerGlobal_eq_error_iff.mp hregister
      constructor
      · rintro ⟨⟩
        refine .inl ⟨finds_nil, ?_, ?_⟩
        · rw [List.map_nil, List.append_nil]
          exact globals.nodup
        · rwa [List.map_nil, List.append_nil]
      · rintro (⟨_, _, h⟩ | ⟨before, r', after, _, hfinds, htags, _⟩)
        · rw [List.map_nil, List.append_nil, ← registerGlobal_eq_error_iff, hregister] at h
          exact h
        · rcases hfault with ⟨hr, _⟩ | ⟨_, htag, _⟩
          · exact absurd (hfinds r (List.mem_cons_self ..)) hr
          · exact absurd htag (not_mem_of_nodup_append htags)
    | ok next =>
      obtain ⟨hr, _, hkeys⟩ := registerGlobal_ok hregister
      refine ih.trans ?_
      rw [or_iff_right]
      · simp only [finds_cons, hr, true_and, hkeys, List.append_assoc, List.map_cons,
          List.singleton_append]
      · rintro ⟨_, _, h⟩
        rw [List.map_nil, List.append_nil, ← registerGlobal_eq_error_iff, hregister] at h
        cases h

/-! ## graphs -/

/-- names that are distinct leave the other three steps -/
theorem toGraph_of_nodup (h : m.names.Nodup) :
    m.toGraph = (do
      let components ← m.components.mapM m.componentOf
      let globals ← m.globals.foldlM m.registerGlobal Dict.empty
      let root ← m.idOf m.root
      pure (⟨⟨components⟩, root⟩, globals)) := by
  rw [toGraph, firstRepeated_eq_none_iff.mpr ⟨h, fun _ _ => List.not_mem_nil⟩]

/-- a fault with nothing wrong before it is reported -/
theorem Faulty.toGraph_eq {e : Error} (h : m.Faulty e) : m.toGraph = .error e := by
  cases h with
  | name h hbefore hn =>
    have hrepeated := firstRepeated_eq_some_iff.mpr
      ⟨_, _, _, h, hbefore, fun _ _ => List.not_mem_nil, hn, rfl⟩
    rw [toGraph, hrepeated]
    rfl
  | child hnames h hbefore hr =>
    have hcomponents := mapM_componentOf_eq_error_iff.mpr
      (mapM_linkOf_eq_error_iff.mpr ⟨_, _, _, h, hbefore, hr, rfl⟩)
    rw [toGraph_of_nodup hnames, hcomponents]
    rfl
  | globalName hnames hchildren h hbefore htags hr =>
    have hglobals : m.globals.foldlM m.registerGlobal Dict.empty = .error (.unknownComponent _) :=
      foldlM_registerGlobal_eq_error_iff.mpr ⟨_, _, _, h, hbefore, htags, .inl ⟨hr, rfl⟩⟩
    rw [toGraph_of_nodup hnames, mapM_componentOf (finds_childReferences.mp hchildren), hglobals]
    rfl
  | globalTag hnames hchildren h hbefore htags hr htag =>
    have hglobals : m.globals.foldlM m.registerGlobal Dict.empty = .error (.duplicateGlobal _) :=
      foldlM_registerGlobal_eq_error_iff.mpr ⟨_, _, _, h, hbefore, htags, .inr ⟨hr, htag, rfl⟩⟩
    rw [toGraph_of_nodup hnames, mapM_componentOf (finds_childReferences.mp hchildren), hglobals]
    rfl
  | root hnames hchildren hglobals htags hroot =>
    have hdistinct : ((Dict.empty : Registry).keys ++ m.globals.map Reference.tag).Nodup := htags
    obtain ⟨globals, hregistered, _⟩ := foldlM_registerGlobal hglobals hdistinct
    rw [toGraph_of_nodup hnames, mapM_componentOf (finds_childReferences.mp hchildren),
      hregistered, idOf_eq_error_iff.mpr ⟨hroot, rfl⟩]
    rfl

/-- what is reported is a fault with nothing wrong before it -/
theorem faulty_of_toGraph {e : Error} (h : m.toGraph = .error e) : m.Faulty e := by
  cases hrepeated : firstRepeated [] m.names with
  | some n =>
    obtain ⟨before, n, after, hnames, hbefore, _, hn, rfl⟩ :=
      firstRepeated_eq_some_iff.mp hrepeated
    rw [toGraph, hrepeated] at h
    cases h
    exact .name hnames hbefore hn
  | none =>
    have hnames := (firstRepeated_eq_none_iff.mp hrepeated).1
    rw [toGraph_of_nodup hnames] at h
    cases hcomponents : m.components.mapM m.componentOf with
    | error e' =>
      rw [hcomponents] at h
      cases h
      obtain ⟨before, r, after, hchildren, hbefore, hr, rfl⟩ :=
        mapM_linkOf_eq_error_iff.mp (mapM_componentOf_eq_error_iff.mp hcomponents)
      exact .child hnames hchildren hbefore hr
    | ok components =>
      have hchildren := finds_childReferences.mpr (mem_names_of_mapM_componentOf hcomponents)
      rw [hcomponents] at h
      cases hregistered : m.globals.foldlM m.registerGlobal Dict.empty with
      | error e' =>
        rw [hregistered] at h
        cases h
        obtain ⟨before, r, after, hglobals, hbefore, htags, ⟨hr, rfl⟩ | ⟨hr, htag, rfl⟩⟩ :=
          foldlM_registerGlobal_eq_error_iff.mp hregistered
        · exact .globalName hnames hchildren hglobals hbefore htags hr
        · exact .globalTag hnames hchildren hglobals hbefore htags hr htag
      | ok globals =>
        obtain ⟨hglobals, htags⟩ := foldlM_registerGlobal_ok hregistered
        rw [hregistered] at h
        cases hid : m.idOf m.root with
        | ok id => rw [hid] at h; cases h
        | error e' =>
          obtain ⟨hroot, rfl⟩ := idOf_eq_error_iff.mp hid
          rw [hid] at h
          cases h
          exact .root hnames hchildren hglobals htags hroot

/-- the store of a manifest without faults has the entries in their places -/
theorem get?_storeAt (m : Manifest) (id : Nat) :
    m.storeAt.get? id = m.components[id]?.map m.componentAt := List.getElem?_map

/-- a manifest describes a graph just if it is consistent, and no other than the one of its entries
with places for names -/
theorem toGraph_eq_ok_iff {g : Graph Definition} {globals : Registry} :
    m.toGraph = .ok (g, globals) ↔ m.Consistent ∧
      (∀ id, g.store.get? id = m.components[id]?.map m.componentAt) ∧
      g.root = m.names.idxOf m.root ∧ globals.entries = m.globals.map m.linkAt := by
  constructor
  · intro h
    have hm := consistent_of_toGraph h
    obtain ⟨globals', hgraph, hentries⟩ := toGraph_of_consistent hm
    cases h.symm.trans hgraph
    exact ⟨hm, get?_storeAt m, rfl, hentries⟩
  · rintro ⟨hm, hstore, hroot, hentries⟩
    obtain ⟨globals', hgraph, hentries'⟩ := toGraph_of_consistent hm
    have hglobals : globals = globals' := Dict.ext (hentries.trans hentries'.symm)
    have hcomponents : g.store.components = m.storeAt.components :=
      List.ext_getElem? fun id => (hstore id).trans (get?_storeAt m id).symm
    have hg : g = ⟨m.storeAt, m.names.idxOf m.root⟩ :=
      congrArg₂ Graph.mk (congrArg Store.mk hcomponents) hroot
    rw [hg, hglobals, hgraph]

/-- A manifest describes a graph just if names and global tags are distinct and all references are
resolved, and the component of an entry then has the place of the entry as its id.  Otherwise the
error is the first fault: of the names, else of the children, else of the global components, else
of the root. -/
theorem toGraph_result (m : Manifest) :
    ((∃ g globals, m.toGraph = .ok (g, globals)) ↔ m.Consistent) ∧
    (∀ e, m.toGraph = .error e ↔ m.Faulty e) ∧
    ∀ g globals, m.toGraph = .ok (g, globals) ↔ m.Consistent ∧
      (∀ id, g.store.get? id = m.components[id]?.map m.componentAt) ∧
      g.root = m.names.idxOf m.root ∧ globals.entries = m.globals.map m.linkAt := by
  refine ⟨⟨?_, fun hm => ?_⟩, fun e => ⟨faulty_of_toGraph, Faulty.toGraph_eq⟩,
    fun g globals => toGraph_eq_ok_iff⟩
  · rintro ⟨g, globals, h⟩
    exact consistent_of_toGraph h
  · obtain ⟨globals, hgraph, _⟩ := toGraph_of_consistent hm
    exact ⟨_, globals, hgraph⟩

-- a repeated tag for an unknown component is unknown first
example : Manifest.toGraph ⟨"c", [⟨"a", "<a>", [], []⟩], [⟨"x", "a"⟩, ⟨"x", "b"⟩]⟩ =
    .error (.unknownComponent "b") := by rfl

end Manifest

end Stencil
