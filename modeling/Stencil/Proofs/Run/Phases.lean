import Stencil.Proofs.Run.Analysis
import Stencil.Proofs.Run.Draft

/-!
# The two phases of a run

Both phases follow explorations, so a run makes the steps of its plan, and its graph is made of the
changes of what the root reaches.

* `graphOf`            the graph of some changes;
* `phases_eq`          the phases in terms of the plan of the first one and these changes;
* `phases_eq_follow`   the phases make the steps of the plan.
-/

namespace Stencil

variable {σ τ β : Type}

/-! ## the graph of some changes -/

/-- the graph of a log, with the places of its entries as new ids -/
def graphOf (log : List (Change β)) (root : Nat) : Graph β :=
  (Draft.empty.add (log.map Change.id).idxOf log).graph ((log.map Change.id).idxOf root)

theorem components_graphOf (log : List (Change β)) (root : Nat) :
    (graphOf log root).store.components =
      log.map fun ch => ch.component (log.map Change.id).idxOf := by
  simp [graphOf, Draft.graph, Draft.add, Draft.empty, List.filterMap_map]

theorem root_graphOf (log : List (Change β)) (root : Nat) :
    (graphOf log root).root = (log.map Change.id).idxOf root := rfl

theorem size_graphOf (log : List (Change β)) (root : Nat) :
    (graphOf log root).store.size = (log.map Change.id).length := by
  rw [Store.size, components_graphOf, List.length_map, List.length_map]

/-! ## the phases agree -/

/-- From the same ids on, the one phase visits what the other one gives new ids to, in the same
order; so the new id of a component is its place among the visits. -/
theorem visited_eq_ids {i : Instruction σ β} {j : Instruction τ β} {s : Store β}
    {tag : Option String} {id newId : Nat} {seen visited : List Nat} {d after : Draft β}
    {st t : σ} {st' t' : τ} (hd : d.Numbers seen)
    (hvisited : (Subtype.val <$> analyzeComponent i s tag id seen).run.run st = (.ok visited, t))
    (hafter : (Subtype.val <$> editComponent j s id d).run.run st' = (.ok (newId, after), t')) :
    after.ids = visited ∧ newId = visited.idxOf id := by
  have hanalyzes := (analyzes i s).1 tag id seen
  have hedits := (edits j s (s.seenAfter seen [(tag, id)])).1 id d tag seen hd List.prefix_rfl
  rw [hanalyzes.visited_eq hvisited]
  obtain ⟨hnew, hnumbers⟩ := hedits.ids_eq hd hafter
  exact ⟨hnumbers.ids, hnew⟩

/-- without global components the whole phases agree -/
theorem visited_eq_ids_of_no_globals {i : Instruction σ β} {j : Instruction τ β} {g : Graph β}
    {globals : Registry} {visited : List Nat} {root : Nat} {draft : Draft β} {st t : σ} {st' t' : τ}
    (hglobals : globals.entries = [])
    (hvisited : (analyzeGraph i g globals).run.run st = (.ok visited, t))
    (hdraft : (editGraph j g).run.run st' = (.ok (root, draft), t')) :
    draft.ids = visited ∧ root = visited.idxOf g.root := by
  have hroot : analyzeGraph i g globals =
      Subtype.val <$> analyzeComponent i g.store none g.root [] := by
    rw [analyzeGraph, hglobals, analyzeLinks, pure_bind, bind_pure_comp]
  rw [hroot] at hvisited
  exact visited_eq_ids Draft.Numbers.empty hvisited hdraft

/-! ## phases as plans -/

theorem phases_eq (i : Instruction σ β) (g : Graph β) (globals : Registry) :
    phases i g globals = (do
      follow i (analysis g globals)
      Run.hook (i.event .replace)
      let log ← changes i g.store (g.store.spanning g.root)
      pure (graphOf log g.root)) := by
  rw [phases, analyzeGraph_eq_follow, editGraph_eq_changes]
  simp only [bind_map_left]
  rfl

theorem phases_eq_follow (i : Instruction σ β) (g : Graph β) (globals : Registry) :
    (fun _ => ()) <$> phases i g globals = follow i (plan g globals) := by
  rw [phases_eq, plan, follow_append, follow_cons, ← forget_changes]
  simp only [map_bind, bind_pure_comp, Functor.map_map, Step.take, Instruction.perform]

end Stencil
