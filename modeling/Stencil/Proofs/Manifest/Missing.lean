import Mathlib
import Stencil.Proofs.Manifest.Copies

/-!
# What is missing from a manifest

A manifest lacks the components that its global components reach past the names that it has.  They
are copied by a loop with a stack of pending ids: it takes the last one, copies the entry unless
the name is known, and puts the children on the stack from the last one to the first.

* `Copying.turn`                 one turn of the loop;
* `Copying.work_turn_lt`         each turn leaves less to do;
* `Copying.exists_turns`         the loop ends, with the entries of the recursive walk;
* `reachesNew_iff`               components reached on new names, in terms of ids;
* `withGlobals_copies_missing`   what the global components of a registry add to a manifest.
-/

namespace Stencil

namespace Manifest

/-! ## the loop -/

/-- the known names, the pending ids with the next one last, and the entries copied so far -/
structure Copying where
  known : List String
  stack : List Nat
  copied : List Entry

namespace Copying

def turn (s : Store Definition) (x : Copying) : Copying :=
  match x.stack.getLast? with
  | none => x
  | some id =>
    match s.get? id with
    | none => { x with stack := x.stack.dropLast }
    | some c =>
      if c.base.name ∈ x.known then { x with stack := x.stack.dropLast }
      else ⟨x.known ++ [c.base.name], x.stack.dropLast ++ c.children.values.reverse,
        x.copied ++ [entryOf s c]⟩

section
variable {s : Store Definition} {known : List String} {rest : List Nat} {copied : List Entry}
  {id : Nat} {c : Component Definition}

theorem turn_of_none (hc : s.get? id = none) :
    turn s ⟨known, rest ++ [id], copied⟩ = ⟨known, rest, copied⟩ := by
  simp only [turn, List.getLast?_concat, List.dropLast_concat, hc]

theorem turn_of_known (hc : s.get? id = some c) (hknown : c.base.name ∈ known) :
    turn s ⟨known, rest ++ [id], copied⟩ = ⟨known, rest, copied⟩ := by
  simp only [turn, List.getLast?_concat, List.dropLast_concat, hc, if_pos hknown]

theorem turn_of_new (hc : s.get? id = some c) (hnew : c.base.name ∉ known) :
    turn s ⟨known, rest ++ [id], copied⟩ = ⟨known ++ [c.base.name],
      rest ++ c.children.values.reverse, copied ++ [entryOf s c]⟩ := by
  simp only [turn, List.getLast?_concat, List.dropLast_concat, hc, if_neg hnew]

end

/-! ## the end of the loop -/

/-- the number of links of the components whose names are not known -/
def openLinks (known : List String) (l : List (Component Definition)) : Nat :=
  (l.map fun c => if c.base.name ∈ known then 0 else c.children.size).sum

theorem openLinks_cons (known : List String) (c : Component Definition)
    (l : List (Component Definition)) : openLinks known (c :: l) =
      (if c.base.name ∈ known then 0 else c.children.size) + openLinks known l := by
  rw [openLinks, List.map_cons, List.sum_cons, openLinks]

theorem openLinks_concat_le (known : List String) (name : String)
    (l : List (Component Definition)) :
    openLinks (known ++ [name]) l ≤ openLinks known l := by
  refine List.sum_le_sum fun c _ => ?_
  by_cases hc : c.base.name ∈ known
  · rw [if_pos (List.mem_append_left _ hc)]
    exact Nat.zero_le _
  · rw [if_neg hc]
    split
    · exact Nat.zero_le _
    · exact Nat.le_refl _

/-- a component whose name becomes known takes its links with it -/
theorem openLinks_concat_add_le {known : List String} {c : Component Definition}
    {l : List (Component Definition)} (hc : c ∈ l) (hnew : c.base.name ∉ known) :
    openLinks (known ++ [c.base.name]) l + c.children.size ≤ openLinks known l := by
  induction l with
  | nil => cases hc
  | cons d l ih =>
    have hrest := openLinks_concat_le known c.base.name l
    rw [openLinks_cons, openLinks_cons]
    rcases List.mem_cons.mp hc with rfl | hc
    · rw [if_pos (List.mem_append_right _ (List.mem_singleton_self _)), if_neg hnew]
      omega
    · have ih := ih hc
      have hd := openLinks_concat_le known c.base.name [d]
      rw [openLinks_cons, openLinks_cons, openLinks, openLinks] at hd
      simp only [List.map_nil, List.sum_nil, Nat.add_zero] at hd
      omega

/-- what is on the stack, and what may still get there -/
def work (s : Store Definition) (x : Copying) : Nat :=
  x.stack.length + openLinks x.known s.components

theorem work_mk (s : Store Definition) (known : List String) (stack : List Nat)
    (copied : List Entry) :
    work s ⟨known, stack, copied⟩ = stack.length + openLinks known s.components := rfl

theorem work_turn_lt {s : Store Definition} {x : Copying} (h : x.stack ≠ []) :
    (turn s x).work s < x.work s := by
  obtain ⟨known, stack, copied⟩ := x
  obtain ⟨rest, id, rfl⟩ := (List.eq_nil_or_concat' stack).resolve_left h
  have hlength : (rest ++ [id]).length = rest.length + 1 := List.length_append
  cases hc : s.get? id with
  | none =>
    rw [turn_of_none hc, work_mk, work_mk, hlength]
    omega
  | some c =>
    by_cases hknown : c.base.name ∈ known
    · rw [turn_of_known hc hknown, work_mk, work_mk, hlength]
      omega
    · have hlinks := openLinks_concat_add_le (List.mem_of_getElem? hc) hknown
      have hvalues : c.children.values.reverse.length = c.children.size := by
        rw [List.length_reverse, Dict.values, List.length_map, Dict.size]
      rw [turn_of_new hc hknown, work_mk, work_mk, hlength, List.length_append, hvalues]
      omega

/-- the loop ends, and it has copied what the recursion copies from the pending ids in order -/
theorem exists_turns (s : Store Definition) (known : List String) (pending : List Nat)
    (copied : List Entry) :
    ∃ n after, n ≤ work s ⟨known, pending.reverse, copied⟩ ∧
      (turn s)^[n] ⟨known, pending.reverse, copied⟩ =
        ⟨after, [], copied ++ missingEntries s known pending⟩ := by
  have hstep : ∀ {x y : Copying} {n : Nat} {z : Copying}, x.stack ≠ [] → turn s x = y →
      n ≤ y.work s → (turn s)^[n] y = z → n + 1 ≤ x.work s ∧ (turn s)^[n + 1] x = z := by
    rintro x _ n z hx rfl hn rfl
    have hlt := work_turn_lt (s := s) hx
    exact ⟨by omega, Function.iterate_succ_apply ..⟩
  induction known, pending using missingEntries.induct s generalizing copied with
  | case1 known =>
    rw [missingEntries_nil, List.append_nil]
    exact ⟨0, known, Nat.zero_le _, rfl⟩
  | case2 known id pending hnone ih =>
    obtain ⟨n, after, hn, hrun⟩ := ih copied
    rw [missingEntries_of_none hnone, List.reverse_cons]
    obtain ⟨hn, hrun⟩ := hstep (by simp) (turn_of_none hnone) hn hrun
    exact ⟨n + 1, after, hn, hrun⟩
  | case3 known id pending c hc hknown ih =>
    obtain ⟨n, after, hn, hrun⟩ := ih copied
    have hknown := List.contains_iff_mem.mp hknown
    rw [missingEntries_of_known hc hknown, List.reverse_cons]
    obtain ⟨hn, hrun⟩ := hstep (by simp) (turn_of_known hc hknown) hn hrun
    exact ⟨n + 1, after, hn, hrun⟩
  | case4 known id pending c hc hnew ih =>
    obtain ⟨n, after, hn, hrun⟩ := ih (copied ++ [entryOf s c])
    have hnew : c.base.name ∉ known := fun hmem => hnew (List.contains_iff_mem.mpr hmem)
    rw [missingEntries_of_new hc hnew, List.reverse_cons]
    rw [List.reverse_append] at hn hrun
    rw [List.append_assoc, List.singleton_append] at hrun
    obtain ⟨hn, hrun⟩ := hstep (by simp) (turn_of_new hc hnew) hn hrun
    exact ⟨n + 1, after, hn, hrun⟩

end Copying

/-! ## components with new names -/

/-- the id of a component whose name is not among `names` -/
def IsNew (s : Store Definition) (names : List String) (id : Nat) : Prop :=
  ∃ c, s.get? id = some c ∧ c.base.name ∉ names

/-- links lead from `a` to `b` on components whose names are not among `names`, both ends
included -/
def ReachesNew (s : Store Definition) (names : List String) (a b : Nat) : Prop :=
  IsNew s names a ∧ Relation.ReflTransGen (fun x y => s.Links x y ∧ IsNew s names y) a b

/-- the ids of the components that have one of the names -/
def idsNamed (s : Store Definition) (names : List String) : List Nat :=
  (List.range s.size).filter fun id => decide (nameOf s id ∈ names)

theorem nodup_idsNamed (s : Store Definition) (names : List String) : (idsNamed s names).Nodup :=
  List.nodup_range.filter _

theorem knows_idsNamed (s : Store Definition) (names : List String) :
    Knows s names (idsNamed s names) := by
  intro id c hc
  have hlt : id < s.size := (List.getElem?_eq_some_iff.mp hc).1
  rw [idsNamed, List.mem_filter, List.mem_range, decide_eq_true_eq, nameOf_of_get? hc]
  exact (and_iff_right hlt).symm

section
variable {s : Store Definition} {names : List String} {met : List Nat} {a b : Nat}

theorem Knows.isNew_iff (h : Knows s names met) {id : Nat} :
    IsNew s names id ↔ id ∉ met ∧ s.contains id = true := by
  rw [Store.contains, decide_eq_true_eq]
  constructor
  · rintro ⟨c, hc, hname⟩
    exact ⟨fun hid => hname ((h id c hc).mpr hid), (List.getElem?_eq_some_iff.mp hc).1⟩
  · rintro ⟨hid, hlt⟩
    obtain ⟨c, hc, _⟩ := exists_get? hlt
    exact ⟨c, hc, fun hname => hid ((h id c hc).mp hname)⟩

theorem contains_of_links (h : s.Links a b) : s.contains a = true := by
  obtain ⟨tag, hlink⟩ := h
  obtain ⟨c, hc, _⟩ := Store.mem_links.mp hlink
  rw [Store.contains, decide_eq_true_eq]
  exact (List.getElem?_eq_some_iff.mp hc).1

/-- a path has new names if it goes past the ids of known ones and ends at a component -/
theorem reachesNew_iff (h : Knows s names met) :
    ReachesNew s names a b ↔ s.ReachesOutside met a b ∧ s.contains b = true := by
  constructor
  · rintro ⟨ha, hr⟩
    have hb : IsNew s names b := by
      cases hr with
      | refl => exact ha
      | tail _ hlink => exact hlink.2
    refine ⟨⟨(h.isNew_iff.mp ha).1, Relation.ReflTransGen.mono ?_ _ _ hr⟩, (h.isNew_iff.mp hb).2⟩
    exact fun _ y hxy => ⟨hxy.1, (h.isNew_iff.mp hxy.2).1⟩
  · rintro ⟨⟨ha, hr⟩, hb⟩
    -- from the end of the path on, since an id that has a link has a component
    induction hr with
    | refl => exact ⟨h.isNew_iff.mpr ⟨ha, hb⟩, .refl⟩
    | tail _ hlink ih =>
      have hnew := h.isNew_iff.mpr ⟨hlink.2, hb⟩
      obtain ⟨ha, hr⟩ := ih (contains_of_links hlink.1)
      exact ⟨ha, hr.tail ⟨hlink.1, hnew⟩⟩

end

/-! ## manifests with the missing entries -/

theorem filterMap_entryAt_filter (s : Store Definition) (ids : List Nat) :
    ids.filterMap (entryAt s) = (ids.filter s.contains).filterMap (entryAt s) := by
  rw [List.filterMap_filter]
  refine List.filterMap_congr fun id _ => ?_
  by_cases hid : s.contains id = true
  · rw [if_pos hid]
  · rw [if_neg hid, entryAt, Store.get?, List.getElem?_eq_none, Option.map_none]
    rwa [Store.contains, decide_eq_true_eq, Nat.not_lt] at hid

/-- what the first visits of a walk from known names on are, if their ids have components -/
theorem missingEntries_eq_explore {s : Store Definition} (hs : s.names.Nodup)
    (known : List String) (todo : List (Option String × Nat)) :
    missingEntries s known (todo.map Prod.snd) =
      ((s.explore (idsNamed s known) todo).ids.filter s.contains).filterMap (entryAt s) := by
  have hwalk := walk_seenAfter s (idsNamed s known) todo
  obtain ⟨new, known', hafter, _, hcopied⟩ :=
    missingEntries_of_walk hs hwalk (knows_idsNamed s known)
  have hcopied := hcopied []
  rw [missingEntries_nil, List.append_nil, List.append_nil] at hcopied
  rw [hcopied, List.append_cancel_left hafter, ← filterMap_entryAt_filter]

/-- A manifest with the global components of a registry keeps what it has.  It gets the entries of
the components that global components reach on names that it has not, each once, in the order in
which a walk first visits them, and a reference for each global tag that it has not.  The loop that
copies the entries ends. -/
theorem withGlobals_copies_missing (m : Manifest) (source : Graph Definition) (globals : Registry)
    (hs : source.store.names.Nodup) :
    ∃ ids, ids = (source.store.explore (idsNamed source.store m.names)
        (globals.entries.map fun e => (some e.1, e.2))).ids.filter source.store.contains ∧
      ids.Nodup ∧
      (∀ id, id ∈ ids ↔ ∃ start ∈ globals.values, ReachesNew source.store m.names start id) ∧
      (m.withGlobals source globals).root = m.root ∧
      (m.withGlobals source globals).components =
        m.components ++ ids.filterMap (entryAt source.store) ∧
      (m.withGlobals source globals).globals = m.globals ++
        globals.entries.filterMap (referenceAt source.store (m.globals.map Reference.tag)) ∧
      ∃ n after, n ≤ globals.size + Copying.openLinks m.names source.store.components ∧
        (Copying.turn source.store)^[n] ⟨m.names, globals.values.reverse, []⟩ =
          ⟨after, [], ids.filterMap (entryAt source.store)⟩ := by
  have hvalues : (globals.entries.map fun e => (some e.1, e.2)).map Prod.snd = globals.values := by
    rw [List.map_map]
    rfl
  have hentries := missingEntries_eq_explore hs m.names
    (globals.entries.map fun e => (some e.1, e.2))
  rw [hvalues] at hentries
  have hnodup := source.store.nodup_seenAfter (nodup_idsNamed source.store m.names)
    (globals.entries.map fun e => (some e.1, e.2))
  refine ⟨_, rfl, (List.nodup_append.mp hnodup).2.1.filter _, fun id => ?_, rfl, ?_,
    addGlobals_eq_filterMap globals.nodup, ?_⟩
  · rw [List.mem_filter, Store.mem_ids_explore_outside, ← hvalues]
    simp only [reachesNew_iff (knows_idsNamed source.store m.names), List.mem_map,
      exists_exists_and_eq_and, ← and_assoc, exists_and_right]
  · rw [withGlobals, hentries]
  · obtain ⟨n, after, hn, hrun⟩ := Copying.exists_turns source.store m.names globals.values []
    rw [List.nil_append, hentries] at hrun
    refine ⟨n, after, ?_, hrun⟩
    rwa [Copying.work_mk, List.length_reverse, Dict.values, List.length_map] at hn

/-- a cycle that leads to ids without a component and to a component that leads to another one -/
def strayGraph : Graph Definition :=
  ⟨⟨[named "a" "<a/>" [("x-b", 1), ("x-z", 9)], named "b" "<b/>" [("x-a", 0), ("x-c", 2)],
    named "c" "<c/>" [("x-d", 3)], named "d" "<d/>" []]⟩, 0⟩

def strayGlobals : Registry := Dict.ofList [("x-b", 1), ("x-g", 7), ("x-a", 0)]

/-- a manifest with one of these components, which cuts another one off -/
def singleManifest : Manifest := ⟨"c", [⟨"c", "<c x/>", [], []⟩], [⟨"x-b", "c"⟩]⟩

theorem withGlobals_copies_missing_stray :
    strayGraph.store.names.Nodup ∧
    (singleManifest.withGlobals strayGraph strayGlobals).names = ["c", "b", "a"] ∧
    (singleManifest.withGlobals strayGraph strayGlobals).globals =
      [⟨"x-b", "c"⟩, ⟨"x-a", "a"⟩] ∧
    ∃ ids : List Nat, ids.Nodup ∧
      (∀ id, id ∈ ids ↔ ∃ start ∈ [1, 7, 0], ReachesNew strayGraph.store ["c"] start id) ∧
      (singleManifest.withGlobals strayGraph strayGlobals).components =
        singleManifest.components ++ ids.filterMap (entryAt strayGraph.store) := by
  have hs : strayGraph.store.names.Nodup := by decide
  obtain ⟨ids, _, hnodup, hids, _, hcomponents, _⟩ :=
    withGlobals_copies_missing singleManifest strayGraph strayGlobals hs
  exact ⟨hs, by cbv, by decide, ids, hnodup, hids, hcomponents⟩

end Manifest

end Stencil
