import Stencil.Proofs.Component.Turns
import Stencil.Proofs.Edit.Splice
import Stencil.Proofs.Run.Visits

/-!
# How the calls of an edit nest

A run that succeeds asks about a template when its component is entered, and about the base when it
is left.  Components are entered in the order of the new ids.

* `Turn.Calls`        the calls of one turn;
* `exists_blocks`     the steps that edit a forest are the calls of its turns;
* `transform_nests`   the calls of a run that succeeds, and what its two phases have met.
-/

namespace Stencil

open Stencil.Markup

variable {σ β : Type}

/-! ## the calls of a turn -/

/-- all questions about the template when a component is entered, and the one about its base when
it is left -/
inductive Turn.Calls (s : Store β) : Turn → List (Call β) → Prop
  | enter {id : Nat} {c : Component β} {found : List ScannedTag} (hc : s.get? id = some c)
      (hscan : scan c.template = .ok found) :
      Turn.Calls s (.enter id) ((found.flatMap ScannedTag.parts).map fun part => .replace part c)
  | leave {id : Nat} {c : Component β} (hc : s.get? id = some c) :
      Turn.Calls s (.leave id) [.substitute c]

theorem templateSteps_of_scan {id : Nat} {c : Component β} {found : List ScannedTag}
    (h : scan c.template = .ok found) : templateSteps id c =
      ((found.flatMap ScannedTag.parts).map fun part => Call.replace part c).map Step.call := by
  obtain ⟨ps, hps, rfl⟩ := map_ok_iff.mp h
  rw [templateSteps, hps, parts_tagsFrom, List.map_map]
  rfl

/-- the steps that edit a forest are the calls of its turns, block by block -/
theorem exists_blocks {s : Store β} {f : Forest} (h : ∀ id ∈ f.ids, s.editable id = .ok ()) :
    ∃ blocks : List (List (Call β)), editing s f = blocks.flatten.map Step.call ∧
      List.Forall₂ (Turn.Calls s) f.turns blocks := by
  induction f with
  | nil => exact ⟨[], rfl, .nil⟩
  | node tag id below beside ihBelow ihBeside =>
    rw [Forest.ids_node, List.forall_mem_cons, List.forall_mem_append] at h
    obtain ⟨hid, hbelow, hbeside⟩ := h
    obtain ⟨c, found, hc, hscan⟩ := s.editable_eq_ok_iff.mp hid
    obtain ⟨inner, hinner, hinnerCalls⟩ := ihBelow hbelow
    obtain ⟨outer, houter, houterCalls⟩ := ihBeside hbeside
    refine ⟨_, ?_, .cons (.enter hc hscan) (List.rel_append hinnerCalls
      (.cons (.leave hc) houterCalls))⟩
    rw [editing, hc]
    simp only
    rw [templateSteps_of_scan hscan, hinner, houter]
    simp only [List.flatten_cons, List.flatten_append, List.map_append, List.map_cons,
      List.singleton_append]

/-! ## runs that succeed -/

/-- a plan that succeeds makes the looks of the first phase and the calls of the turns -/
theorem Takes.calls_of_ok {i : Instruction σ β} {g : Graph β} {globals : Registry} {s t : σ}
    {taken : List (Step β)} (h : Takes i (plan g globals) s taken (.ok ()) t) :
    ∃ (looks : List (Call β)) (blocks : List (List (Call β))),
      callsOf taken = looks ++ .event .replace :: blocks.flatten ∧
      List.Forall₂ (Shows g.store) (g.store.explore [] (starts g globals)).visits looks ∧
      List.Forall₂ (Turn.Calls g.store) (g.store.spanning g.root).turns blocks := by
  rcases h.of_append with ⟨e, hne, _⟩ | ⟨first, rest, u, rfl, hanalysis, hrest⟩
  · cases hne
  · cases hrest with
    | @went _ _ edits _ _ _ _ _ hediting =>
      have hmet := hanalysis.bound_of_ok
      have hedited := hediting.bound_of_ok
      rw [forM_analysis, forM_present_eq_ok_iff] at hmet
      rw [forM_editing, forM_eq_ok] at hedited
      obtain ⟨looks, hlooks, hshows⟩ := exists_shows fun v hv => hmet v.2 (List.mem_map_of_mem hv)
      obtain ⟨blocks, hblocks, hcalls⟩ := exists_blocks hedited
      rw [analysis, hlooks] at hanalysis
      rw [hblocks] at hediting
      refine ⟨looks, blocks, ?_, hshows, hcalls⟩
      rw [← hanalysis.of_calls.2 rfl, ← hediting.of_calls.2 rfl]
      exact callsOf_append first (.call (.event .replace) :: edits)

/-- In a run that succeeds the questions about templates come in blocks, one for each component that
the root reaches and in the order of the new components.  The question about the base of a component
comes once, behind its block and the questions about all that is reached first through it.  The
first phase has visited the components that it looks at, and the second one has given new ids in the
order of its blocks.  Without global components both have met the same components in the same order,
so the looks are at the originals of the new components. -/
theorem transform_nests (i : Instruction σ β) (g out : Graph β) (globals : Registry) (st st' : σ)
    (h : transform i g globals st = (.ok out, st')) :
    ∃ (met f : Forest) (draft : Draft β) (looks : List (Call β)) (blocks : List (List (Call β)))
      (changes : List (Change β)) (t u v w : σ),
      (Run.hook (i.event .start)).run.run st = (.ok (), t) ∧
      (analyzeGraph i g globals).run.run t = (.ok met.ids, u) ∧
      (Run.hook (i.event .replace)).run.run u = (.ok (), v) ∧
      (editGraph i g).run.run v = (.ok (out.root, draft), w) ∧
      draft.newIds = f.ids.zipIdx ∧ (∀ p ∈ draft.places, p.isSome) ∧ draft.graph out.root = out ∧
      transform i.traced g globals (st, []) = (.ok out, st',
        .event .start :: (looks ++ .event .replace :: (blocks.flatten ++ [.event .finish]))) ∧
      Spans g.store [] (starts g globals) met ∧ List.Forall₂ (Shows g.store) met.visits looks ∧
      Spans g.store [] [(none, g.root)] f ∧ List.Forall₂ (Turn.Calls g.store) f.turns blocks ∧
      f.ids.Nodup ∧ (∀ id, id ∈ f.ids ↔ g.store.Reaches g.root id) ∧
      enteredIds f.turns = f.ids ∧ (leftIds f.turns).Perm f.ids ∧
      (∀ ch ∈ changes, ch.Answered i g.store) ∧ Mirrors g changes f.ids.idxOf out ∧
      (∀ id ∈ f.ids, ∃ before below after,
        f.turns = before ++ .enter id :: (below.turns ++ .leave id :: after) ∧
        Spans g.store (enteredIds before ++ [id]) (g.store.steps id) below ∧
        enteredIds below.turns = below.ids ∧ (leftIds below.turns).Perm below.ids) ∧
      (globals.entries = [] → met = f ∧ met.ids = draft.ids) := by
  obtain ⟨visited, root, draft, t, u, v, w, hstart, hanalyze, hreplace, hedit, _, hgraph⟩ :=
    run_transform_ok h
  obtain ⟨taken, inner, _, result, after, hplan, hrun, htraced, hok⟩ :=
    exists_plan_of_started g globals (run_adapt_ok.mp hstart)
  obtain ⟨rfl, rfl⟩ := Prod.mk.inj (hrun.symm.trans h)
  obtain rfl := hok out rfl
  obtain ⟨looks, blocks, hmade, hshows, hcalls⟩ := hplan.calls_of_ok
  rw [hmade, List.append_assoc, List.cons_append] at htraced
  obtain rfl := run_analyzeGraph_ok hanalyze
  obtain ⟨changes, hchanges, rfl, rfl⟩ := run_editGraph_ok hedit
  obtain ⟨hids, hanswered⟩ := run_changes_ok hchanges
  obtain rfl := hgraph
  have hmirrors := mirrors_of_answered hids hanswered
  have hnumbers := Draft.Numbers.empty.add_changes hchanges (changes.map Change.id).idxOf
  have hmet : Spans g.store [] (starts g globals) (g.store.explore [] (starts g globals)) :=
    spans_explore g.store [] (starts g globals)
  have hspans : Spans g.store [] [(none, g.root)] (g.store.spanning g.root) :=
    spans_explore g.store [] [(none, g.root)]
  rw [hids] at hmirrors
  refine ⟨_, _, _, looks, blocks, changes, t, u, v, w, hstart, hanalyze, hreplace, hedit,
    hnumbers.newIds, isSome_of_mem_places_add _ _, rfl, htraced, hmet, hshows,
    hspans, hcalls, g.store.nodup_ids_spanning g.root, fun id => g.store.mem_ids_spanning,
    Forest.enteredIds_turns _, Forest.leftIds_turns_perm _, hanswered, hmirrors, fun id hid => ?_,
    fun hglobals => ⟨?_, ?_⟩⟩
  · obtain ⟨before, below, after, hturns, hbelow⟩ := hspans.exists_turn hid
    exact ⟨before, below, after, hturns, hbelow, below.enteredIds_turns, below.leftIds_turns_perm⟩
  · rw [starts, hglobals] at hmet ⊢
    exact hmet.unique hspans
  · exact (visited_eq_ids_of_no_globals hglobals hanalyze hedit).1.symm

theorem transform_nests_loop :
    transform markSecond loopGraph Dict.empty 0 = (.ok loopMarked, 3) ∧
    ∃ (f : Forest) (draft : Draft String) (looks : List (Call String))
      (blocks : List (List (Call String))) (t u v w : Nat),
      f.turns = [.enter 0, .enter 2, .leave 2, .enter 3, .leave 3, .leave 0] ∧
      (analyzeGraph markSecond loopGraph Dict.empty).run.run t = (.ok [0, 2, 3], u) ∧
      (editGraph markSecond loopGraph).run.run v = (.ok (0, draft), w) ∧
      draft.newIds = [(0, 0), (2, 1), (3, 2)] ∧
      List.Forall₂ (Turn.Calls loopGraph.store) f.turns blocks ∧
      List.Forall₂ (Shows loopGraph.store) f.visits looks ∧
      transform markSecond.traced loopGraph Dict.empty (0, []) = (.ok loopMarked, 3,
        .event .start :: (looks ++ .event .replace :: (blocks.flatten ++ [.event .finish]))) := by
  have hrun : transform markSecond loopGraph Dict.empty 0 = (.ok loopMarked, 3) := by cbv
  have hforest : (loopGraph.store.spanning loopGraph.root).turns =
      [.enter 0, .enter 2, .leave 2, .enter 3, .leave 3, .leave 0] := by cbv
  obtain ⟨met, f, draft, looks, blocks, _, t, u, v, w, _, hanalyze, _, hedit, hnewIds, _, _,
    htraced, _, hshows, hspans, hcalls, _, _, hentered, _, _, _, _, hempty⟩ :=
    transform_nests markSecond loopGraph loopMarked Dict.empty 0 3 hrun
  obtain ⟨rfl, _⟩ := hempty rfl
  rw [Store.spanning, ← hspans.unique (spans_explore _ _ _)] at hforest
  have hids : met.ids = [0, 2, 3] := by
    rw [← hentered, hforest]
    rfl
  rw [hids] at hanalyze hnewIds
  exact ⟨hrun, met, draft, looks, blocks, t, u, v, w, hforest, hanalyze, hedit, hnewIds, hcalls,
    hshows, htraced⟩

end Stencil
