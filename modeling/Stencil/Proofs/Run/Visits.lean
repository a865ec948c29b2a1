import Stencil.Proofs.Run.Bound
import Stencil.Proofs.Run.Mirror

/-!
# Looks at components

A run looks at each component that a global component or the root reaches, once and under the tag
that leads to it first.  Only a root that no global component reaches is looked at without a tag.

* `Instruction.Makes`      calls up to the first one that fails;
* `Shows`                  the look at a component that is visited;
* `filter_isNone_visits`   the visits without a tag;
* `transform_analyzes`     the looks of a run.
-/

namespace Stencil

variable {σ β : Type}

/-! ## calls one after the other -/

/-- `made` are all of the `calls`, or those up to the first one that fails, from state `s` on -/
def Instruction.Makes (i : Instruction σ β) (s : σ) (calls made : List (Call β)) : Prop :=
  made = calls ∨ ∃ before call after t u text, calls = before ++ call :: after ∧
    made = before ++ [call] ∧ (forM before i.perform).run.run s = (.ok (), t) ∧
    (i.perform call).run.run t = (.error text, u)

theorem Instruction.Makes.cons {i : Instruction σ β} {s t : σ} {call : Call β}
    {calls made : List (Call β)} (hcall : (i.perform call).run.run s = (.ok (), t))
    (h : i.Makes t calls made) : i.Makes s (call :: calls) (call :: made) := by
  rcases h with rfl | ⟨before, last, after, u, v, text, rfl, rfl, hbefore, hlast⟩
  · exact .inl rfl
  · refine .inr ⟨call :: before, last, after, u, v, text, rfl, rfl, ?_, hlast⟩
    rw [List.forM_cons, run_bind, hcall]
    exact hbefore

/-- a plan of calls is followed up to the first one that fails -/
theorem Takes.of_calls {i : Instruction σ β} {calls : List (Call β)} {s t : σ}
    {taken : List (Step β)} {result : Except RunError Unit}
    (h : Takes i (calls.map Step.call) s taken result t) :
    i.Makes s calls (callsOf taken) ∧ (result = .ok () → callsOf taken = calls) := by
  induction calls generalizing s taken with
  | nil =>
    cases h
    exact ⟨.inl rfl, fun _ => rfl⟩
  | cons call calls ih =>
    cases h with
    | failed hcall =>
      obtain ⟨text, rfl, hfailed⟩ := run_hook_error hcall
      exact ⟨.inr ⟨[], call, calls, s, t, text, rfl, rfl, rfl, hfailed⟩, nofun⟩
    | went hcall hr =>
      obtain ⟨hmakes, hall⟩ := ih hr
      exact ⟨hmakes.cons (run_adapt_ok.mp hcall), fun hok => congrArg (call :: ·) (hall hok)⟩

/-- no step is taken that is not in the plan -/
theorem Takes.mem {i : Instruction σ β} {steps taken : List (Step β)} {s t : σ}
    {result : Except RunError Unit} (h : Takes i steps s taken result t) :
    ∀ a ∈ taken, a ∈ steps := by
  induction h with
  | done s => exact fun a ha => ha
  | failed _ =>
    intro a ha
    rw [List.mem_singleton.mp ha]
    exact List.mem_cons_self ..
  | went _ _ ih =>
    intro a ha
    rcases List.mem_cons.mp ha with rfl | ha
    · exact List.mem_cons_self ..
    · exact List.mem_cons_of_mem _ (ih a ha)

/-! ## visits -/

/-- the look at a component that is visited, under the tag that leads to it -/
def Shows (s : Store β) (visit : Option String × Nat) (call : Call β) : Prop :=
  ∃ c, s.get? visit.2 = some c ∧ call = .analyze visit.1 c

theorem exists_shows {s : Store β} {visits : List (Option String × Nat)}
    (h : ∀ v ∈ visits, s.get? v.2 ≠ none) :
    ∃ calls, visits.map (analysisStep s) = calls.map Step.call ∧
      List.Forall₂ (Shows s) visits calls := by
  induction visits with
  | nil => exact ⟨[], rfl, .nil⟩
  | cons v visits ih =>
    rw [List.forall_mem_cons] at h
    obtain ⟨calls, hcalls, hshows⟩ := ih h.2
    obtain ⟨c, hc⟩ := Option.ne_none_iff_exists'.mp h.1
    refine ⟨.analyze v.1 c :: calls, ?_, .cons ⟨c, hc, rfl⟩ hshows⟩
    rw [List.map_cons, hcalls, analysisStep, hc]
    rfl

theorem isSome_of_mem_steps {s : Store β} {id : Nat} {v : Option String × Nat}
    (h : v ∈ s.steps id) : v.1.isSome := by
  obtain ⟨e, _, rfl⟩ := List.mem_map.mp h
  rfl

/-- where all starting points have tags, all visits have -/
theorem Spans.isSome_tag {s : Store β} {met : List Nat} {todo : List (Option String × Nat)}
    {f : Forest} (h : Spans s met todo f) (htodo : ∀ v ∈ todo, v.1.isSome) :
    ∀ v ∈ f.visits, v.1.isSome := by
  intro v hv
  rcases h.step_mem v hv with hv | ⟨a, _, hv⟩
  · exact htodo v hv
  · exact isSome_of_mem_steps hv

theorem filter_isNone_of_isSome {visits : List (Option String × Nat)}
    (h : ∀ v ∈ visits, v.1.isSome) : visits.filter (fun v => v.1.isNone) = [] := by
  refine List.filter_eq_nil_iff.mpr fun v hv => ?_
  have hsome := h v hv
  cases hv : v.1 with
  | none =>
    rw [hv] at hsome
    cases hsome
  | some tag => exact Bool.false_ne_true

/-- the root is visited without a tag, unless a global component reaches it -/
theorem filter_isNone_visits (g : Graph β) (globals : Registry) :
    ((∃ id ∈ globals.values, g.store.Reaches id g.root) →
      (g.store.explore [] (starts g globals)).visits.filter (fun v => v.1.isNone) = []) ∧
    ((¬ ∃ id ∈ globals.values, g.store.Reaches id g.root) →
      (g.store.explore [] (starts g globals)).visits.filter (fun v => v.1.isNone) =
        [(none, g.root)]) := by
  let entries : List (Option String × Nat) := globals.entries.map fun e => (some e.1, e.2)
  have hentries : ∀ v ∈ entries, v.1.isSome := by
    intro v hv
    obtain ⟨e, _, rfl⟩ := List.mem_map.mp hv
    rfl
  have hglobal := filter_isNone_of_isSome ((spans_explore g.store [] entries).isSome_tag hentries)
  have hreached : g.root ∈ g.store.seenAfter [] entries ↔
      ∃ id ∈ globals.values, g.store.Reaches id g.root := by
    rw [← g.store.ids_explore, g.store.mem_ids_explore]
    constructor
    · rintro ⟨start, hstart, hr⟩
      obtain ⟨e, he, rfl⟩ := List.mem_map.mp hstart
      exact ⟨e.2, List.mem_map_of_mem he, hr⟩
    · rintro ⟨id, hid, hr⟩
      obtain ⟨e, he, rfl⟩ := List.mem_map.mp hid
      exact ⟨(some e.1, e.2), List.mem_map_of_mem he, hr⟩
  rw [← hreached, starts, explore_append, List.filter_append]
  show (_ → (g.store.explore [] entries).visits.filter _ ++ _ = _) ∧
    (_ → (g.store.explore [] entries).visits.filter _ ++ _ = _)
  rw [hglobal, List.nil_append]
  constructor
  · intro hroot
    rw [g.store.explore_cons_of_mem hroot, g.store.explore_nil]
    rfl
  · intro hroot
    rw [g.store.explore_cons_of_not_mem hroot, g.store.explore_nil, Forest.visits,
      List.filter_cons_of_pos (by rfl), Forest.visits, List.append_nil]
    refine congrArg (List.cons _) (filter_isNone_of_isSome ?_)
    exact (spans_explore g.store _ _).isSome_tag fun v hv => isSome_of_mem_steps hv

/-! ## whole runs -/

/-- the calls of a run that may start are those of its plan, as far as it gets -/
theorem exists_plan_of_started {i : Instruction σ β} (g : Graph β) (globals : Registry) {s t : σ}
    (hstart : (i.event .start).run.run s = (.ok (), t)) :
    ∃ taken inner u result after, Takes i (plan g globals) t taken inner u ∧
      transform i g globals s = (result, after) ∧
      transform i.traced g globals (s, []) =
        (result, after, .event .start :: (callsOf taken ++ [.event .finish])) ∧
      (∀ out, result = .ok out → inner = .ok ()) := by
  obtain ⟨taken, inner, u, hplan, _⟩ := exists_takes i (plan g globals) t
  rcases hfinish : (i.event .finish).run.run u with ⟨ended, after⟩
  obtain ⟨result, hrun, htraced, hresult⟩ :=
    exists_transform_of_started g globals hstart hplan hfinish
  refine ⟨taken, inner, u, result, after, hplan, hrun, htraced, fun out hout => ?_⟩
  rw [hout] at hresult
  cases inner with
  | error e => cases hresult
  | ok _ => rfl

/-- a plan makes its looks first, up to one that fails, and looks at nothing later -/
theorem Takes.exists_made {i : Instruction σ β} {g : Graph β} {globals : Registry} {s t : σ}
    {taken : List (Step β)} {calls : List (Call β)} {result : Except RunError Unit}
    (h : Takes i (plan g globals) s taken result t)
    (hcalls : analysis g globals = calls.map Step.call) :
    ∃ made rest, callsOf taken = made ++ rest ∧ (∀ tag c, .analyze tag c ∉ rest) ∧
      i.Makes s calls made := by
  rcases h.of_append with ⟨e, _, hanalysis⟩ | ⟨looks, rest, u, rfl, hanalysis, hrest⟩
  · rw [hcalls] at hanalysis
    exact ⟨callsOf taken, [], (List.append_nil _).symm, by simp, hanalysis.of_calls.1⟩
  · rw [hcalls] at hanalysis
    refine ⟨callsOf looks, callsOf rest, callsOf_append looks rest, fun tag c hmem => ?_,
      hanalysis.of_calls.1⟩
    obtain ⟨a, ha, hcall⟩ := List.mem_filterMap.mp hmem
    rcases List.mem_cons.mp (hrest.mem a ha) with rfl | ha
    · cases hcall
    · have hedits := edits_of_mem_editing ha
      cases a with
      | stop e => cases hcall
      | call call =>
        cases hcall
        exact hedits

theorem tag_of_visit {g : Graph β} {globals : Registry} {f : Forest} {tag : String} {id : Nat}
    (h : Spans g.store [] (starts g globals) f) (hv : (some tag, id) ∈ f.visits) :
    (tag, id) ∈ globals.entries ∨ ∃ a ∈ f.ids, (tag, id) ∈ g.store.links a := by
  rcases h.step_mem _ hv with hv | ⟨a, ha, hv⟩
  · rcases List.mem_append.mp hv with hv | hv
    · obtain ⟨e, he, heq⟩ := List.mem_map.mp hv
      cases heq
      exact .inl he
    · cases List.mem_singleton.mp hv
  · obtain ⟨e, he, heq⟩ := List.mem_map.mp hv
    cases heq
    exact .inr ⟨a, ha, he⟩

/-- A run that may start looks at what is met from the global components in order and then from the
root, depth first and each component once, up to a look that fails.  Each look is under the tag
through which the component is met first, and there is one without a tag only if no global component
reaches the root, which is then the one that has none. -/
theorem transform_analyzes (i : Instruction σ β) (g : Graph β) (globals : Registry) (s t : σ)
    (hstart : (i.event .start).run.run s = (.ok (), t)) (hcomplete : g.Complete globals) :
    ∃ f calls made rest result after,
      Spans g.store [] (starts g globals) f ∧
      List.Forall₂ (Shows g.store) f.visits calls ∧
      f.ids.Nodup ∧
      (∀ id, id ∈ f.ids ↔ ∃ start ∈ globals.values ++ [g.root], g.store.Reaches start id) ∧
      (∀ tag id, (some tag, id) ∈ f.visits →
        (tag, id) ∈ globals.entries ∨ ∃ a ∈ f.ids, (tag, id) ∈ g.store.links a) ∧
      ((∃ id ∈ globals.values, g.store.Reaches id g.root) →
        f.visits.filter (fun v => v.1.isNone) = []) ∧
      ((¬ ∃ id ∈ globals.values, g.store.Reaches id g.root) →
        f.visits.filter (fun v => v.1.isNone) = [(none, g.root)]) ∧
      transform i g globals s = (result, after) ∧
      transform i.traced g globals (s, []) = (result, after, .event .start :: (made ++ rest)) ∧
      (∀ tag c, .analyze tag c ∉ rest) ∧
      i.Makes t calls made := by
  have hspans := spans_explore g.store [] (starts g globals)
  have hpresent : ∀ v ∈ (g.store.explore [] (starts g globals)).visits,
      g.store.get? v.2 ≠ none :=
    fun v hv => complete_iff.mp hcomplete v.2 (List.mem_map_of_mem hv)
  obtain ⟨calls, hcalls, hshows⟩ := exists_shows hpresent
  obtain ⟨taken, _, _, result, after, hplan, hrun, htraced, _⟩ :=
    exists_plan_of_started g globals hstart
  obtain ⟨made, rest, hmake, hrest, hmade⟩ := hplan.exists_made hcalls
  obtain ⟨hreached, hunreached⟩ := filter_isNone_visits g globals
  rw [hmake, List.append_assoc] at htraced
  refine ⟨_, calls, made, rest ++ [.event .finish], result, after, hspans, hshows,
    g.store.nodup_seenAfter List.nodup_nil _, fun id => mem_metIds,
    fun tag id hv => tag_of_visit hspans hv, hreached, hunreached, hrun, htraced, ?_, hmade⟩
  intro tag c hmem
  rcases List.mem_append.mp hmem with hmem | hmem
  · exact hrest tag c hmem
  · cases List.mem_singleton.mp hmem

/-- the second component of the loop as a global component; it reaches the root -/
def loopGlobals : Registry := Dict.ofList [("x-g", 2)]

theorem transform_analyzes_loop :
    (markSecond.event .start).run.run 0 = (.ok (), 0) ∧ loopGraph.Complete loopGlobals ∧
    ∃ (f : Forest) (calls made rest : List (Call String)) (result : Except RunError (Graph String))
      (after : Nat), f.visits = [(some "x-g", 2), (some "x-a", 0), (some "x-c", 3)] ∧
      List.Forall₂ (Shows loopGraph.store) f.visits calls ∧
      transform markSecond.traced loopGraph loopGlobals (0, []) =
        (result, after, .event .start :: (made ++ rest)) ∧
      markSecond.Makes 0 calls made := by
  have hvisits : (loopGraph.store.explore [] (starts loopGraph loopGlobals)).visits =
      [(some "x-g", 2), (some "x-a", 0), (some "x-c", 3)] := by cbv
  have hmet : metIds loopGraph loopGlobals = [2, 0, 3] := by
    rw [metIds, Forest.ids, hvisits]
    rfl
  have hcomplete : loopGraph.Complete loopGlobals := complete_iff.mpr (by rw [hmet]; decide)
  obtain ⟨f, calls, made, rest, result, after, hspans, hshows, _, _, _, _, _, _, htraced, _,
    hmade⟩ := transform_analyzes markSecond loopGraph loopGlobals 0 0 rfl hcomplete
  rw [← hspans.unique (spans_explore _ _ _)] at hvisits
  exact ⟨rfl, hcomplete, f, calls, made, rest, result, after, hvisits, hshows, htraced, hmade⟩

end Stencil
