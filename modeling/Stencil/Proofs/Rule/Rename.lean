import Stencil.Proofs.Rule.Failure
import Stencil.Proofs.Run.Canonical

/-!
# Rules and ids

A rule set does not look at ids.  What it makes of a graph is decided by what the root reaches,
whatever the ids are, whatever else is in the store and whatever the global components are.

* `Component.rename`, `Change.rename`   components and their changes under other ids;
* `Graph.Corresponds`                   graphs that differ in ids and what the root does not reach;
* `changes_rename`                      a run makes the changes of the other one, under other ids;
* `graphOf_rename`                      these make the same graph;
* `transform_rules_renamed`             the runs of a rule set on such graphs.
-/

namespace Stencil

open Stencil.Markup

variable {σ β : Type}

/-! ## other ids -/

def Component.rename (f : Nat → Nat) (c : Component β) : Component β :=
  { c with children := c.children.map f }

def RunError.rename (f : Nat → Nat) : RunError → RunError
  | .scan component source => .scan (f component) source
  | .instruction text => .instruction text
  | .unknownComponent id => .unknownComponent (f id)

def Change.rename (f : Nat → Nat) (ch : Change β) : Change β :=
  ⟨f ch.id, ch.original.rename f, ch.template, ch.base⟩

theorem map_id_rename (f : Nat → Nat) (log : List (Change β)) :
    (log.map (Change.rename f)).map Change.id = (log.map Change.id).map f := by
  rw [List.map_map, List.map_map]
  rfl

/-! ## runs that do not look at ids -/

section
variable {i : Instruction σ β} {f : Nat → Nat}
  (hreplace : ∀ part c, i.replace part (c.rename f) = i.replace part c)
  (hsubstitute : ∀ c, i.substitute (c.rename f) = i.substitute c)

include hreplace in
theorem editTemplate_rename (id : Nat) (c : Component β) (template : String) :
    (ExceptT.adapt (EditError.toRunError (f id)) (editTemplate i (c.rename f) template) :
        Run σ String) =
      ExceptT.adapt (RunError.rename f)
        (ExceptT.adapt (EditError.toRunError id) (editTemplate i c template)) := by
  have hsame : editTemplate i (c.rename f) template = editTemplate i c template := by
    unfold editTemplate
    simp only [hreplace]
  rw [hsame]
  refine run_ext fun st => ?_
  rw [run_adapt, run_adapt, run_adapt]
  rcases (editTemplate i c template).run.run st with ⟨(_ | _) | a, t⟩ <;> rfl

theorem hook_rename {α : Type} (h : Hook σ α) :
    Run.hook h = ExceptT.adapt (RunError.rename f) (Run.hook h) := by
  refine run_ext fun st => ?_
  rw [run_adapt, Run.hook, run_adapt]
  rcases h.run.run st with ⟨_ | a, t⟩ <;> rfl

include hreplace hsubstitute in
/-- the changes of a forest with other ids are its changes with other ids -/
theorem changes_rename {s s' : Store β} {forest : Forest}
    (h : ∀ id ∈ forest.ids, s'.get? (f id) = (s.get? id).map (Component.rename f)) :
    changes i s' (forest.map f) =
      ExceptT.adapt (RunError.rename f) (List.map (Change.rename f) <$> changes i s forest) := by
  induction forest with
  | nil => rfl
  | node tag id below beside ihBelow ihBeside =>
    rw [Forest.ids_node, List.forall_mem_cons, List.forall_mem_append] at h
    have hcomponent := h.1
    rw [Forest.map, changes, changes, ihBelow h.2.1, ihBeside h.2.2, Run.component, Run.component,
      hcomponent]
    cases s.get? id with
    | none => rfl
    | some c =>
      simp only [Option.map_some, pure_bind, editTemplate_rename hreplace, hsubstitute,
        ← hook_rename, adapt_bind, adapt_map, map_bind, bind_map_left, map_pure,
        List.map_cons, List.map_append]
      rfl

end

/-! ## the graphs of runs -/

/-- changes under other ids make the same graph -/
theorem graphOf_rename {f : Nat → Nat} {log : List (Change β)} {root : Nat}
    (hf : Set.InjOn f {a | a ∈ log.map Change.id})
    (hchildren : ∀ ch ∈ log, ∀ e ∈ ch.original.children.entries, e.2 ∈ log.map Change.id)
    (hroot : root ∈ log.map Change.id) :
    graphOf (log.map (Change.rename f)) (f root) = graphOf log root := by
  have hcomponents : (graphOf (log.map (Change.rename f)) (f root)).store.components =
      (graphOf log root).store.components := by
    rw [components_graphOf, components_graphOf, map_id_rename, List.map_map]
    refine List.map_congr_left fun ch hch => ?_
    have hplaces : (ch.original.children.map f).map ((log.map Change.id).map f).idxOf =
        ch.original.children.map (log.map Change.id).idxOf := by
      apply Dict.ext
      rw [Dict.entries_map, Dict.entries_map, Dict.entries_map, List.map_map]
      refine List.map_congr_left fun e he => ?_
      show (e.1, ((log.map Change.id).map f).idxOf (f e.2)) = _
      rw [idxOf_map hf (hchildren ch hch e he)]
    show Component.mk _ ((ch.original.children.map f).map _) _ = _
    rw [hplaces]
    rfl
  have hstore : (graphOf (log.map (Change.rename f)) (f root)).store = (graphOf log root).store :=
    congrArg Store.mk hcomponents
  have hplace : (graphOf (log.map (Change.rename f)) (f root)).root = (graphOf log root).root := by
    rw [root_graphOf, root_graphOf, map_id_rename, idxOf_map hf hroot]
  exact congrArg₂ Graph.mk hstore hplace

/-! ## runs of rule sets -/

/-- what the root of `g` reaches is, under the ids that `f` gives, what the root of `g'` reaches -/
structure Graph.Corresponds (f : Nat → Nat) (g g' : Graph β) : Prop where
  root : f g.root = g'.root
  bijective : Set.BijOn f {id | g.store.Reaches g.root id} {id | g'.store.Reaches g'.root id}
  component : ∀ id c, g.store.Reaches g.root id → g.store.get? id = some c →
    g'.store.get? (f id) = some ⟨c.template, c.children.map f, c.base⟩

/-- a rule set keeps no record of what it is shown -/
theorem run_follow_analysis (rules : List Rule) {s : Store β} {l : List (Option String × Nat)}
    (h : ∀ e ∈ l, ¬ s.Missing e.2) (hits : List Nat) :
    (follow (RuleSet.instruction rules) (l.map (analysisStep s))).run.run hits =
      (.ok (), hits) := by
  induction l with
  | nil => rfl
  | cons e l ih =>
    rw [List.forall_mem_cons] at h
    obtain ⟨c, hc⟩ := Option.ne_none_iff_exists'.mp h.1
    rw [List.map_cons, follow_cons, analysisStep, hc]
    exact ih h.2

/-- a run that lacks no component is its changes, and the graph that they make -/
theorem transform_rules_of_complete (rules : List Rule) {g : Graph β} {globals : Registry}
    (h : g.Complete globals) (hits : List Nat) :
    ∃ result after, (changes (RuleSet.instruction rules) g.store
        (g.store.spanning g.root)).run.run (RuleSet.noHits rules) = (result, after) ∧
      transform (RuleSet.instruction rules) g globals hits =
        (result.map fun log => graphOf log g.root, after) := by
  rcases hchanges : (changes (RuleSet.instruction rules) g.store
    (g.store.spanning g.root)).run.run (RuleSet.noHits rules) with ⟨result, after⟩
  refine ⟨result, after, rfl, ?_⟩
  have hvisits : ∀ e ∈ (g.store.explore [] (starts g globals)).visits, ¬ g.store.Missing e.2 :=
    fun e he => complete_iff.mp h e.2 (List.mem_map_of_mem he)
  have hphases : (phases (RuleSet.instruction rules) g globals).run.run (RuleSet.noHits rules) =
      (result.map fun log => graphOf log g.root, after) := by
    rw [phases_eq, run_bind, analysis, run_follow_analysis rules hvisits]
    show (changes _ _ _ >>= fun log => pure (graphOf log g.root)).run.run _ = _
    rw [run_bind, hchanges]
    rcases result with e | log <;> rfl
  have hstart : (Run.hook ((RuleSet.instruction (β := β) rules).event .start)).run.run hits =
      (.ok (), RuleSet.noHits rules) := rfl
  rw [transform, run_process, hstart]
  simp only [hphases]
  rcases result with e | log <;> rfl

theorem Graph.Corresponds.get?_eq {f : Nat → Nat} {g g' : Graph β} {globals : Registry}
    (h : g.Corresponds f g') (hg : g.Complete globals) {a : Nat} (ha : g.store.Reaches g.root a) :
    g'.store.get? (f a) = (g.store.get? a).map (Component.rename f) := by
  have hroot : g.root ∈ globals.values ++ [g.root] := List.mem_append_right _ (by simp)
  obtain ⟨c, hc⟩ := Option.ne_none_iff_exists'.mp (hg g.root hroot a ha)
  rw [hc, h.component a c ha hc]
  rfl

theorem Graph.Corresponds.renames {f : Nat → Nat} {g g' : Graph β} {globals : Registry}
    (h : g.Corresponds f g') (hg : g.Complete globals) :
    Renames f (g.store.Reaches g.root) g.store g'.store where
  injective := h.bijective.injOn
  closed := fun _ ha _ hab => Relation.ReflTransGen.tail ha hab
  links := fun a ha => by
    rw [Store.links, h.get?_eq hg ha, Store.links]
    cases g.store.get? a <;> rfl

/-- a run that lacks no component fails with a template that the root reaches, if at all -/
theorem error_of_complete {rules : List Rule} {g : Graph β} {globals : Registry} {hits : List Nat}
    {e : RunError} (hg : g.Complete globals)
    (h : (transform (RuleSet.instruction rules) g globals hits).1 = .error e) :
    ∃ id source, e = .scan id source ∧ g.store.Reaches g.root id := by
  rw [transform_rules_eq_error_iff, forM_plan_eq_error_iff] at h
  rcases h with ⟨id, _, hmissing⟩ | ⟨_, id, source, rfl, _, hfirst⟩
  · exact absurd hmissing.holds (complete_iff.mp hg id hmissing.mem)
  · exact ⟨id, source, rfl, g.store.mem_ids_spanning.mp hfirst.mem⟩

/-- Runs of a rule set on two graphs give the same graph and leave the same hits, if the roots reach
the same up to the ids; or both fail with the same error at components that correspond.  What else
there is in the stores makes no difference, and neither do the global components. -/
theorem transform_rules_renamed (rules : List Rule) (f : Nat → Nat) (g g' : Graph β)
    (globals globals' : Registry) (hits hits' : List Nat) (hg : g.Complete globals)
    (hg' : g'.Complete globals') (h : g.Corresponds f g') :
    ∃ after,
      (∃ out, transform (RuleSet.instruction rules) g globals hits = (.ok out, after) ∧
        transform (RuleSet.instruction rules) g' globals' hits' = (.ok out, after)) ∨
      ∃ id source, g.store.Reaches g.root id ∧
        transform (RuleSet.instruction rules) g globals hits =
          (.error (.scan id source), after) ∧
        transform (RuleSet.instruction rules) g' globals' hits' =
          (.error (.scan (f id) source), after) := by
  have hrenames := h.renames hg
  have hspanning : g'.store.spanning g'.root = (g.store.spanning g.root).map f := by
    rw [← h.root, hrenames.spanning_eq Relation.ReflTransGen.refl]
  have hget : ∀ a ∈ (g.store.spanning g.root).ids,
      g'.store.get? (f a) = (g.store.get? a).map (Component.rename f) :=
    fun a ha => h.get?_eq hg (g.store.mem_ids_spanning.mp ha)
  obtain ⟨result, after, hchanges, hrun⟩ := transform_rules_of_complete rules hg hits
  obtain ⟨result', after', hchanges', hrun'⟩ := transform_rules_of_complete rules hg' hits'
  have hrenamed := changes_rename (i := RuleSet.instruction rules) (fun _ _ => rfl) (fun _ => rfl)
    hget
  rw [hspanning, hrenamed, run_adapt, run_map, hchanges] at hchanges'
  rcases result with e | log
  · obtain ⟨id, source, rfl, hid⟩ := error_of_complete hg (congrArg Prod.fst hrun)
    cases hchanges'
    exact ⟨after, .inr ⟨id, source, hid, hrun, hrun'⟩⟩
  · obtain ⟨hids, hanswered⟩ := run_changes_ok hchanges
    have horiginal : ∀ ch ∈ log, g.store.get? ch.id = some ch.original :=
      fun ch hch => (hanswered ch hch).original
    have hinjective : Set.InjOn f {a | a ∈ log.map Change.id} := by
      refine hrenames.injective.mono fun a ha => ?_
      rw [hids] at ha
      exact g.store.mem_ids_spanning.mp ha
    have hchildren : ∀ ch ∈ log, ∀ e ∈ ch.original.children.entries, e.2 ∈ log.map Change.id := by
      intro ch hch e he
      have hlink : g.store.Links ch.id e.2 :=
        ⟨e.1, Store.mem_links.mpr ⟨ch.original, horiginal ch hch, he⟩⟩
      exact closed_ids hids (List.mem_map_of_mem hch) hlink
    have hgraph := graphOf_rename hinjective hchildren (root_mem_ids hids)
    rw [h.root] at hgraph
    cases hchanges'
    refine ⟨after, .inl ⟨graphOf log g.root, hrun, hrun'.trans ?_⟩⟩
    show (Except.ok (graphOf (log.map (Change.rename f)) g'.root), after) = _
    rw [hgraph]

/-- inserts a text into the tags named `b` -/
def markB : List Rule := [⟨["b"], some " x", [], [], Dict.empty, none⟩]

/-- what the root of the loop reaches under other ids, with another component beside it -/
def shuffledGraph : Graph String :=
  ⟨⟨[⟨"<i k=v>", Dict.ofList [("x-i", 0), ("x-a", 2)], "other"⟩, ⟨"<c/>", Dict.empty, "c"⟩,
    ⟨"<a/>", Dict.ofList [("x-b", 3), ("x-c", 1)], "a"⟩,
    ⟨"<b/>", Dict.ofList [("x-a", 2), ("x-b", 3)], "b"⟩]⟩, 2⟩

def shuffledGlobals : Registry := Dict.ofList [("x-i", 0), ("x-c", 1)]

def shuffle (id : Nat) : Nat := if id = 0 then 2 else if id = 2 then 3 else 1

def loopInserted : Graph String :=
  ⟨⟨[⟨"<a/>", Dict.ofList [("x-b", 1), ("x-c", 2)], "a"⟩,
    ⟨"<b x/>", Dict.ofList [("x-a", 0), ("x-b", 1)], "b"⟩, ⟨"<c/>", Dict.empty, "c"⟩]⟩, 0⟩

theorem corresponds_shuffle : loopGraph.Corresponds shuffle shuffledGraph := by
  have hids : (loopGraph.store.spanning loopGraph.root).ids = [0, 2, 3] := by cbv
  have hids' : (shuffledGraph.store.spanning shuffledGraph.root).ids = [2, 3, 1] := by cbv
  have hreach : ∀ id, loopGraph.store.Reaches loopGraph.root id ↔ id ∈ [0, 2, 3] :=
    fun id => by rw [← hids, Store.mem_ids_spanning]
  have hreach' : ∀ id, shuffledGraph.store.Reaches shuffledGraph.root id ↔ id ∈ [2, 3, 1] :=
    fun id => by rw [← hids', Store.mem_ids_spanning]
  have hmaps : ∀ a ∈ [0, 2, 3], shuffle a ∈ [2, 3, 1] := by decide
  have hinjective : ∀ a ∈ [0, 2, 3], ∀ b ∈ [0, 2, 3], shuffle a = shuffle b → a = b := by decide
  have honto : ∀ a ∈ [2, 3, 1], ∃ b ∈ [0, 2, 3], shuffle b = a := by decide
  have hcomponents : ∀ a ∈ [0, 2, 3], shuffledGraph.store.get? (shuffle a) =
      (loopGraph.store.get? a).map fun c => ⟨c.template, c.children.map shuffle, c.base⟩ := by
    decide
  refine ⟨rfl, ?_, fun id c hid hc => ?_⟩
  · simp only [hreach, hreach']
    exact ⟨hmaps, fun a ha b hb => hinjective a ha b hb, honto⟩
  · rw [hcomponents id ((hreach id).mp hid), hc]
    rfl

theorem transform_rules_renamed_loop :
    loopGraph.Complete Dict.empty ∧ shuffledGraph.Complete shuffledGlobals ∧
      loopGraph.Corresponds shuffle shuffledGraph ∧
      transform (RuleSet.instruction markB) loopGraph Dict.empty [] = (.ok loopInserted, [1]) ∧
      transform (RuleSet.instruction markB) shuffledGraph shuffledGlobals [7] =
        (.ok loopInserted, [1]) := by
  have hmet : metIds loopGraph Dict.empty = [0, 2, 3] := by cbv
  have hmet' : metIds shuffledGraph shuffledGlobals = [0, 2, 3, 1] := by cbv
  have hg : loopGraph.Complete Dict.empty := complete_iff.mpr (by rw [hmet]; decide)
  have hg' : shuffledGraph.Complete shuffledGlobals := complete_iff.mpr (by rw [hmet']; decide)
  have hrun : transform (RuleSet.instruction markB) loopGraph Dict.empty [] =
    (.ok loopInserted, [1]) := by cbv
  refine ⟨hg, hg', corresponds_shuffle, hrun, ?_⟩
  obtain ⟨after, ⟨out, hout, hout'⟩ | ⟨id, source, _, herror, _⟩⟩ :=
    transform_rules_renamed markB shuffle loopGraph shuffledGraph Dict.empty shuffledGlobals [] [7]
      hg hg' corresponds_shuffle
  · cases hrun.symm.trans hout
    exact hout'
  · cases hrun.symm.trans herror

end Stencil
