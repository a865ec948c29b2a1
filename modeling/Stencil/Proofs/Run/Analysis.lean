import Stencil.Proofs.Run.Plan

/-!
# The first phase follows an exploration

The first phase keeps a list of visited ids.  It looks at what `Store.explore` visits from the
same starting points when these ids are seen already, in the same order and under the same tags,
and the ids that it has visited in the end are those that the exploration has seen.

* `Store.looks`             the steps of an exploration;
* `Analyzes`                what it means to follow one;
* `analyzes`                the recursion of the first phase follows one, from a component and from
                            a list of links;
* `analyzeGraph_eq_follow`  the whole phase.
-/

namespace Stencil

variable {σ β : Type}

/-! ## the two functions, by cases -/

section
variable (i : Instruction σ β) (s : Store β)

theorem analyzeComponent_of_mem (tag : Option String) {id : Nat} {visited : List Nat}
    (h : id ∈ visited) : Subtype.val <$> analyzeComponent i s tag id visited = pure visited := by
  rw [analyzeComponent, dif_pos h, map_pure]

theorem analyzeComponent_of_none (tag : Option String) {id : Nat} {visited : List Nat}
    (h : id ∉ visited) (hc : s.get? id = none) :
    Subtype.val <$> analyzeComponent i s tag id visited = throw (.unknownComponent id) := by
  rw [analyzeComponent, dif_neg h]
  split
  next => rfl
  next c hsome => cases hc.symm.trans hsome

theorem analyzeComponent_of_some (tag : Option String) {id : Nat} {visited : List Nat}
    (h : id ∉ visited) {c : Component β} (hc : s.get? id = some c) :
    Subtype.val <$> analyzeComponent i s tag id visited = (do
      Run.hook (i.analyze tag c)
      Subtype.val <$> analyzeLinks i s c.children.entries (visited ++ [id])) := by
  rw [analyzeComponent, dif_neg h]
  split
  next hnone => cases hc.symm.trans hnone
  next d hsome =>
    cases hc.symm.trans hsome
    simp only [map_bind, bind_pure_comp, Functor.map_map]

theorem analyzeLinks_nil (visited : List Nat) :
    Subtype.val <$> analyzeLinks i s [] visited = pure visited := by
  rw [analyzeLinks, map_pure]

theorem analyzeLinks_cons (tag : String) (id : Nat) (links : List (String × Nat))
    (visited : List Nat) :
    Subtype.val <$> analyzeLinks i s ((tag, id) :: links) visited = (do
      let first ← Subtype.val <$> analyzeComponent i s (some tag) id visited
      Subtype.val <$> analyzeLinks i s links first) := by
  rw [analyzeLinks]
  simp only [map_bind, bind_pure_comp, Functor.map_map, bind_map_left]

end

/-! ## following an exploration -/

/-- the steps of an exploration: a look at each component that it visits -/
def Store.looks (s : Store β) (seen : List Nat) (todo : List (Option String × Nat)) :
    List (Step β) :=
  (s.explore seen todo).visits.map (analysisStep s)

theorem Store.looks_append (s : Store β) (seen : List Nat) (l r : List (Option String × Nat)) :
    s.looks seen (l ++ r) = s.looks seen l ++ s.looks (s.seenAfter seen l) r := by
  rw [looks, explore_append, List.map_append]
  rfl

/-- `x` looks at what is explored from `todo` on, and answers with all ids that are seen then -/
def Analyzes (i : Instruction σ β) (s : Store β) (seen : List Nat)
    (todo : List (Option String × Nat)) (x : Run σ (List Nat)) : Prop :=
  x = (fun _ => s.seenAfter seen todo) <$> follow i (s.looks seen todo)

section
variable {i : Instruction σ β} {s : Store β} {seen : List Nat} {todo : List (Option String × Nat)}

theorem Analyzes.append {more : List (Option String × Nat)} {x : Run σ (List Nat)}
    {f : List Nat → Run σ (List Nat)} (h : Analyzes i s seen todo x)
    (hf : Analyzes i s (s.seenAfter seen todo) more (f (s.seenAfter seen todo))) :
    Analyzes i s seen (todo ++ more) (x >>= f) := by
  rw [Analyzes, h, s.looks_append, seenAfter_append, follow_append, bind_map_left, hf]
  simp only [map_bind]

theorem Analyzes.visited_eq {x : Run σ (List Nat)} {visited : List Nat} {st t : σ}
    (h : Analyzes i s seen todo x) (hx : x.run.run st = (.ok visited, t)) :
    visited = s.seenAfter seen todo := by
  rw [h, run_map] at hx
  rcases hsteps : (follow i (s.looks seen todo)).run.run st with ⟨e | ⟨⟩, u⟩
  · rw [hsteps] at hx
    cases hx
  · rw [hsteps] at hx
    cases hx
    rfl

theorem analyzes_nil (i : Instruction σ β) (s : Store β) (seen : List Nat) :
    Analyzes i s seen [] (pure seen) := by
  rw [Analyzes, Store.looks, s.explore_nil, s.seenAfter_nil]
  rfl

theorem analyzes_known (tag : Option String) {id : Nat} (h : id ∈ seen) :
    Analyzes i s seen [(tag, id)] (pure seen) := by
  rw [Analyzes, Store.looks, s.explore_cons_of_mem h, s.explore_nil, s.seenAfter_of_mem h,
    s.seenAfter_nil]
  rfl

theorem analyzes_missing (tag : Option String) {id : Nat} (h : id ∉ seen)
    (hc : s.get? id = none) :
    Analyzes i s seen [(tag, id)] (throw (.unknownComponent id)) := by
  rw [Analyzes, Store.looks, s.explore_cons_of_not_mem h, Forest.visits, List.map_cons,
    follow_cons, analysisStep, hc]
  rfl

theorem analyzes_fresh (tag : Option String) {id : Nat} (h : id ∉ seen) {c : Component β}
    (hc : s.get? id = some c) {x : Run σ (List Nat)}
    (hx : Analyzes i s (seen ++ [id]) (s.steps id) x) :
    Analyzes i s seen [(tag, id)] (do
      Run.hook (i.analyze tag c)
      x) := by
  rw [Analyzes, Store.looks, s.explore_cons_of_not_mem h, s.explore_nil, Forest.visits,
    Forest.visits, List.append_nil, s.seenAfter_of_not_mem h, s.seenAfter_nil, List.map_cons,
    follow_cons, analysisStep, hc, hx, map_bind]
  rfl

end

/-! ## the two recursions -/

theorem analyzes (i : Instruction σ β) (s : Store β) :
    (∀ tag id visited, Analyzes i s visited [(tag, id)]
      (Subtype.val <$> analyzeComponent i s tag id visited)) ∧
    ∀ links visited, Analyzes i s visited (links.map fun e => (some e.1, e.2))
      (Subtype.val <$> analyzeLinks i s links visited) := by
  refine analyzeComponent.mutual_induct s _ _ ?known ?missing ?found ?nil ?cons
  case known =>
    intro tag id visited hid
    rw [analyzeComponent_of_mem i s tag hid]
    exact analyzes_known tag hid
  case missing =>
    intro tag id visited hid hc
    rw [analyzeComponent_of_none i s tag hid hc]
    exact analyzes_missing tag hid hc
  case found =>
    intro tag id visited hid c hc ih
    rw [analyzeComponent_of_some i s tag hid hc]
    rw [← s.steps_of_get? hc] at ih
    exact analyzes_fresh tag hid hc ih
  case nil =>
    intro visited
    rw [analyzeLinks_nil]
    exact analyzes_nil i s visited
  case cons =>
    intro visited tag id links ihFirst ihRest
    rw [analyzeLinks_cons]
    exact ihFirst.append (ihRest ⟨_, s.unseen_append_le visited _⟩)

/-- the whole phase follows an exploration from the global components and the root -/
theorem analyzes_graph (i : Instruction σ β) (g : Graph β) (globals : Registry) :
    Analyzes i g.store [] (starts g globals) (analyzeGraph i g globals) := by
  obtain ⟨hcomponent, hlinks⟩ := analyzes i g.store
  have hphase : Analyzes i g.store [] (starts g globals) (do
      let visited ← Subtype.val <$> analyzeLinks i g.store globals.entries []
      Subtype.val <$> analyzeComponent i g.store none g.root visited) :=
    (hlinks globals.entries []).append (hcomponent none g.root _)
  rw [bind_map_left] at hphase
  rw [analyzeGraph]
  simp only [bind_pure_comp]
  exact hphase

theorem analyzeGraph_eq_follow (i : Instruction σ β) (g : Graph β) (globals : Registry) :
    analyzeGraph i g globals =
      (fun _ => (g.store.explore [] (starts g globals)).ids) <$> follow i (analysis g globals) :=
  analyzes_graph i g globals

theorem run_analyzeGraph_ok {i : Instruction σ β} {g : Graph β} {globals : Registry}
    {visited : List Nat} {st t : σ}
    (h : (analyzeGraph i g globals).run.run st = (.ok visited, t)) :
    visited = (g.store.explore [] (starts g globals)).ids :=
  (analyzes_graph i g globals).visited_eq h

end Stencil
