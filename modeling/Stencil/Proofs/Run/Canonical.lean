import Stencil.Proofs.Component.Rename
import Stencil.Proofs.Run.Bound
import Stencil.Proofs.Run.Mirror
import Stencil.Proofs.Edit.Rescan

/-!
# Canonical numbers

A run numbers the components of its graph in the order in which they are first met.  A walk of the
new graph meets its components in the same order, so a further run leaves all numbers as they are.

* `Graph.Canonical`          the ids are those of a walk from the root, from 0 on;
* `renames_graphOf`          the graph of a run has the old links under the new ids;
* `Instruction.Declines`     an instruction without any answer;
* `transform_declining`      a run of it changes nothing but the ids;
* `transform_canonical`      the graph of every run is canonical, and such a run gives it again.
-/

namespace Stencil

open Stencil.Markup

variable {σ τ β : Type}

/-- the ids are `0`, `1`, `2`, … in the order in which a walk from the root meets them -/
structure Graph.Canonical (g : Graph β) : Prop where
  root : g.root = 0
  walk : Walk g.store [] [g.root] (List.range g.store.size)

/-! ## new ids -/

/-- a walk meets the root first -/
theorem Store.ids_spanning_eq_cons (s : Store β) (root : Nat) :
    ∃ rest, (s.spanning root).ids = root :: rest := by
  rw [Store.spanning, s.explore_cons_of_not_mem List.not_mem_nil, Forest.ids_node]
  exact ⟨_, rfl⟩

section
variable {s : Store β} {root : Nat} {log : List (Change β)}
  (hids : log.map Change.id = (s.spanning root).ids)
  (horiginal : ∀ ch ∈ log, s.get? ch.id = some ch.original)

include hids in
theorem closed_ids {a b : Nat} (ha : a ∈ log.map Change.id) (hab : s.Links a b) :
    b ∈ log.map Change.id := by
  rw [hids, s.mem_ids_spanning] at ha ⊢
  exact Relation.ReflTransGen.tail ha hab

include horiginal in
theorem links_graphOf {a : Nat} (ha : a ∈ log.map Change.id) :
    (graphOf log root).store.links ((log.map Change.id).idxOf a) =
      (s.links a).map (Prod.map id (log.map Change.id).idxOf) := by
  obtain ⟨ch, hch, rfl, hget⟩ := get?_graphOf root ha
  rw [Store.links, hget, Store.links, horiginal ch hch]
  rfl

include hids horiginal in
theorem renames_graphOf :
    Renames (log.map Change.id).idxOf (· ∈ log.map Change.id) s (graphOf log root).store :=
  renames_idxOf (fun _ ha _ => closed_ids hids ha) fun _ => links_graphOf horiginal

include hids horiginal in
theorem lt_size_graphOf {a child : Nat} {tag : String}
    (h : (tag, child) ∈ (graphOf log root).store.links a) :
    child < (graphOf log root).store.size := by
  obtain ⟨ch, hch, b, hb, rfl⟩ := mem_links_graphOf h
  have hlink : s.Links ch.id b := ⟨tag, Store.mem_links.mpr ⟨ch.original, horiginal ch hch, hb⟩⟩
  rw [size_graphOf]
  exact List.idxOf_lt_length_of_mem (closed_ids hids (List.mem_map_of_mem hch) hlink)

include hids in
theorem root_mem_ids : root ∈ log.map Change.id := by
  obtain ⟨rest, hrest⟩ := s.ids_spanning_eq_cons root
  rw [hids, hrest]
  exact List.mem_cons_self ..

include hids horiginal in
theorem canonical_graphOf : (graphOf log root).Canonical := by
  have hroot : (graphOf log root).root = 0 := by
    obtain ⟨rest, hrest⟩ := s.ids_spanning_eq_cons root
    rw [root_graphOf, hids, hrest, List.idxOf_cons_self]
  have hnodup : (log.map Change.id).Nodup := hids ▸ s.nodup_ids_spanning root
  -- the ids that a walk of the new graph meets are the places of those that the old walk has met
  have hmet : ((graphOf log root).store.spanning (graphOf log root).root).ids =
      List.range (graphOf log root).store.size := by
    rw [root_graphOf, (renames_graphOf hids horiginal).spanning_eq (root_mem_ids hids),
      Forest.ids_map, ← hids, map_idxOf hnodup, size_graphOf]
  refine ⟨hroot, ?_⟩
  rw [← hmet]
  exact walk_seenAfter _ [] [(none, _)]

end

/-! ## instructions without answers -/

/-- never fails, and neither changes a template nor a base -/
structure Instruction.Declines (i : Instruction σ β) : Prop where
  event : ∀ e st, ∃ t, (i.event e).run.run st = (.ok (), t)
  analyze : ∀ tag c st, ∃ t, (i.analyze tag c).run.run st = (.ok (), t)
  replace : ∀ part c st, ∃ t, (i.replace part c).run.run st = (.ok none, t)
  substitute : ∀ c st, ∃ t, (i.substitute c).run.run st = (.ok none, t)

section
variable {i : Instruction σ β}

theorem Instruction.Declines.perform (hi : i.Declines) (c : Call β) (st : σ) :
    ∃ t, (i.perform c).run.run st = (.ok (), t) := by
  cases c with
  | event e => exact hi.event e st
  | analyze tag c => exact hi.analyze tag c st
  | replace part c =>
    obtain ⟨t, ht⟩ := hi.replace part c st
    exact ⟨t, by rw [Instruction.perform, run_map, ht]; rfl⟩
  | substitute c =>
    obtain ⟨t, ht⟩ := hi.substitute c st
    exact ⟨t, by rw [Instruction.perform, run_map, ht]; rfl⟩

theorem Instruction.Declines.editTemplate (hi : i.Declines) (c : Component β) {template : String}
    {ps : List Piece} (hps : parse template = .ok ps) (st : σ) :
    ∃ t, (editTemplate i c template).run.run st = (.ok template, t) := by
  obtain ⟨t, hask⟩ := run_mapM_map (l := openingTags ps)
    (fun tag _ => run_mapM_map (l := tag.parts) fun part _ => hi.replace part c) st
  have hrender : String.ofList (render ps) = template := by
    rw [(parse_ok_iff.mp hps).2, String.ofList_toList]
  refine ⟨t, ?_⟩
  rw [run_editTemplate_ok hps hask, putAll_declined, hrender]

/-- a change that leaves everything as it is in `s` -/
structure Change.Unchanged (s : Store β) (ch : Change β) : Prop where
  original : s.get? ch.id = some ch.original
  template : ch.template = ch.original.template
  base : ch.base = none

theorem Instruction.Declines.unchanged (hi : i.Declines) {s : Store β} {ch : Change β}
    (h : ch.Answered i s) : ch.Unchanged s := by
  obtain ⟨st, t, htemplate⟩ := h.template
  obtain ⟨u, v, hbase⟩ := h.base
  refine ⟨h.original, ?_, ?_⟩
  · cases hps : parse ch.original.template with
    | error e =>
      rw [Stencil.editTemplate, hps] at htemplate
      cases htemplate
    | ok ps =>
      obtain ⟨t', hkept⟩ := hi.editTemplate ch.original hps st
      exact Except.ok.inj (congrArg Prod.fst (htemplate.symm.trans hkept))
  · obtain ⟨v', hnone⟩ := hi.substitute ch.original u
    exact Except.ok.inj (congrArg Prod.fst (hbase.symm.trans hnone))

/-- a run of such an instruction succeeds if nothing is bound to fail, and changes nothing -/
theorem transform_declining (hi : i.Declines) {g : Graph β} {globals : Registry}
    (hplan : forM (plan g globals) Step.bound = .ok ()) (st : σ) :
    ∃ log t, transform i g globals st = (.ok (graphOf log g.root), t) ∧
      log.map Change.id = (g.store.spanning g.root).ids ∧ ∀ ch ∈ log, ch.Unchanged g.store := by
  have hsure : ∀ c s, (i.perform c).run.run s = (.ok (), ((i.perform c).run.run s).2) := by
    intro c s
    obtain ⟨t, ht⟩ := hi.perform c s
    rw [ht]
  obtain ⟨result, _, _, hrun, _, hresult⟩ :=
    transform_of_sure hsure g globals st
  obtain ⟨out, rfl⟩ := map_unit_eq_ok_iff.mp (hresult.trans hplan)
  obtain ⟨log, rfl, hids, hanswered⟩ := exists_changes_of_ok hrun
  exact ⟨log, _, hrun, hids, fun ch hch => hi.unchanged (hanswered ch hch)⟩

end

/-! ## canonical graphs -/

theorem idxOf_range {n k : Nat} (h : k < n) : (List.range n).idxOf k = k := by
  have hk : k < (List.range n).length := by rwa [List.length_range]
  have hplace := List.nodup_range.idxOf_getElem k hk
  rwa [List.getElem_range] at hplace

theorem map_get?_range (s : Store β) :
    (List.range s.size).map s.get? = s.components.map some := by
  refine List.ext_getElem (by simp [Store.size]) fun n hn _ => ?_
  rw [List.length_map, List.length_range] at hn
  rw [List.getElem_map, List.getElem_range, List.getElem_map, Store.get?,
    List.getElem?_eq_getElem hn]
  rfl

/-- nothing is changed if all ids stay in their places -/
theorem graphOf_unchanged {g : Graph β} {log : List (Change β)}
    (hids : log.map Change.id = List.range g.store.size) (hroot : g.root < g.store.size)
    (hclosed : ∀ id tag child, (tag, child) ∈ g.store.links id → child < g.store.size)
    (hall : ∀ ch ∈ log, ch.Unchanged g.store) : graphOf log g.root = g := by
  have hcomponent : ∀ ch ∈ log,
      some (ch.component (log.map Change.id).idxOf) = g.store.get? ch.id := by
    intro ch hch
    have hchildren : ch.original.children.map (log.map Change.id).idxOf =
        ch.original.children := by
      apply Dict.ext
      rw [Dict.entries_map]
      refine (List.map_congr_left fun e he => ?_).trans (List.map_id _)
      have hlink := Store.mem_links.mpr ⟨ch.original, (hall ch hch).original, he⟩
      rw [hids, idxOf_range (hclosed ch.id e.1 e.2 hlink)]
      rfl
    rw [(hall ch hch).original, Change.component, hchildren, (hall ch hch).template,
      (hall ch hch).base]
    rfl
  have hcomponents : (graphOf log g.root).store.components.map some =
      g.store.components.map some := by
    rw [components_graphOf, List.map_map, ← map_get?_range, ← hids, List.map_map]
    exact List.map_congr_left hcomponent
  have hstore : (graphOf log g.root).store = g.store :=
    congrArg Store.mk (List.map_injective_iff.mpr (Option.some_injective _) hcomponents)
  have hroot' : (graphOf log g.root).root = g.root := by
    rw [root_graphOf, hids, idxOf_range hroot]
  exact congrArg₂ Graph.mk hstore hroot'

theorem Graph.Canonical.ids_spanning {g : Graph β} (h : g.Canonical) :
    (g.store.spanning g.root).ids = List.range g.store.size :=
  (walk_seenAfter g.store [] [(none, g.root)]).unique h.walk

/-- nothing stops a run on a canonical graph whose templates scan -/
theorem Graph.Canonical.forM_plan {g : Graph β} (h : g.Canonical)
    (hscan : ∀ c ∈ g.store.components, ∃ found, scan c.template = .ok found) :
    forM (plan g Dict.empty) Step.bound = .ok () := by
  rw [forM_plan_eq_ok_iff]
  have hmet : metIds g Dict.empty = List.range g.store.size := h.ids_spanning
  rw [hmet, h.ids_spanning]
  constructor
  · intro a ha hmissing
    exact absurd (List.mem_range.mp ha) (Nat.not_lt.mpr (List.getElem?_eq_none_iff.mp hmissing))
  · rintro a _ e ⟨c, hc, herror⟩
    obtain ⟨found, hfound⟩ := hscan c (List.mem_of_getElem? hc)
    cases herror.symm.trans hfound

theorem canonical_single (template : String) (base : β) :
    (Graph.single template base).Canonical := by
  have hfirst : Walk (Graph.single template base).store [] [0] [0] :=
    .fresh List.not_mem_nil (.done [0]) (.done [0])
  exact ⟨rfl, hfirst⟩

/-- The graph of a run is canonical: a walk from its root meets its ids in their order.  So, if all
of its templates scan, a run without answers gives this graph again. -/
theorem transform_canonical (i : Instruction σ β) (g out : Graph β) (globals : Registry)
    (st st' : σ) (h : transform i g globals st = (.ok out, st')) :
    out.root = 0 ∧ Walk out.store [] [out.root] (List.range out.store.size) ∧
    ((∀ c ∈ out.store.components, ∃ found, scan c.template = .ok found) →
      ∀ (τ : Type) (j : Instruction τ β), j.Declines → ∀ s, ∃ t,
        transform j out Dict.empty s = (.ok out, t)) := by
  obtain ⟨log, rfl, hids, hanswered⟩ := exists_changes_of_ok h
  have horiginal : ∀ ch ∈ log, g.store.get? ch.id = some ch.original :=
    fun ch hch => (hanswered ch hch).original
  have hcanonical : (graphOf log g.root).Canonical := canonical_graphOf hids horiginal
  refine ⟨hcanonical.root, hcanonical.walk, fun hscan τ j hj s => ?_⟩
  have hroot : (graphOf log g.root).root < (graphOf log g.root).store.size := by
    rw [root_graphOf, size_graphOf]
    exact List.idxOf_lt_length_of_mem (root_mem_ids hids)
  obtain ⟨again, t, hrun, hids', hall⟩ := transform_declining hj (hcanonical.forM_plan hscan) s
  rw [hcanonical.ids_spanning] at hids'
  rw [graphOf_unchanged hids' hroot (fun _ _ _ => lt_size_graphOf hids horiginal) hall] at hrun
  exact ⟨t, hrun⟩

theorem exists_of_isOk {ε α : Type} {x : Except ε α} (h : x.isOk = true) : ∃ a, x = .ok a := by
  cases x with
  | error e => cases h
  | ok a => exact ⟨a, rfl⟩

/-- counts the components that it is shown and the parts that it is asked about -/
def counting : Instruction Nat String where
  replace _ _ := do
    modify (· + 1)
    pure none
  analyze _ _ := modify (· + 1)

theorem counting_declines : counting.Declines where
  event _ n := ⟨n, rfl⟩
  analyze _ _ n := ⟨n + 1, rfl⟩
  replace _ _ n := ⟨n + 1, rfl⟩
  substitute _ n := ⟨n, rfl⟩

theorem transform_canonical_loop :
    transform markSecond loopGraph Dict.empty 0 = (.ok loopMarked, 3) ∧
      loopMarked.root = 0 ∧ Walk loopMarked.store [] [loopMarked.root] [0, 1, 2] ∧
      (∀ c ∈ loopMarked.store.components, ∃ found, scan c.template = .ok found) ∧
      counting.Declines ∧
      ∃ t, transform counting loopMarked Dict.empty 0 = (.ok loopMarked, t) := by
  have h : transform markSecond loopGraph Dict.empty 0 = (.ok loopMarked, 3) := by cbv
  have hscan : ∀ c ∈ loopMarked.store.components, ∃ found, scan c.template = .ok found := by
    have hall : ∀ c ∈ loopMarked.store.components, (scan c.template).isOk = true := by
      decide +kernel
    exact fun c hc => exists_of_isOk (hall c hc)
  obtain ⟨hroot, hwalk, hagain⟩ :=
    transform_canonical markSecond loopGraph loopMarked Dict.empty 0 3 h
  exact ⟨h, hroot, hwalk, hscan, counting_declines, hagain hscan Nat counting counting_declines 0⟩

end Stencil
