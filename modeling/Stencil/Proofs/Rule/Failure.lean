import Stencil.Proofs.Rule.Run

/-!
# When a run of a rule set fails

A rule set refuses nothing, so that only the graph and its templates decide.

* `transform_rules_eq_error_iff`   a run fails just as its plan does;
* `transform_rules_result`         the first missing id that is met decides, or else the first
                                   malformed template below the root.
-/

namespace Stencil

open Stencil.Markup

variable {β : Type}

theorem transform_rules_eq_error_iff (rules : List Rule) (g : Graph β) (globals : Registry)
    (hits : List Nat) {e : RunError} :
    (transform (RuleSet.instruction rules) g globals hits).1 = .error e ↔
      forM (plan g globals) Step.bound = .error e := by
  obtain ⟨result, hrun, _, hresult⟩ := transform_rules rules g globals hits
  rw [hrun, ← hresult, map_unit_eq_error_iff]

theorem transform_rules_unknown_iff (rules : List Rule) (g : Graph β) (globals : Registry)
    (hits : List Nat) {id : Nat} :
    (transform (RuleSet.instruction rules) g globals hits).1 = .error (.unknownComponent id) ↔
      IsFirst g.store.Missing (metIds g globals) id := by
  rw [transform_rules_eq_error_iff, forM_plan_eq_error_iff]
  constructor
  · rintro (⟨_, heq, h⟩ | ⟨_, _, _, heq, _⟩)
    · cases heq
      exact h
    · cases heq
  · intro h
    exact .inl ⟨id, rfl, h⟩

/-- the order in which ids are met depends on the children alone -/
theorem metIds_congr {g g' : Graph β} (hroot : g'.root = g.root)
    (hstore : SameChildren g.store g'.store) (globals : Registry) :
    metIds g' globals = metIds g globals := by
  have hwalk := (walk_metIds g globals).congr hstore
  have hwalk' := walk_metIds g' globals
  rw [hroot] at hwalk'
  exact hwalk'.unique hwalk

/-- nothing is asked about templates when the first phase fails -/
theorem not_mem_presented {g : Graph β} {globals : Registry}
    (h : forM (analysis g globals) Step.bound ≠ .ok ()) (part : Part) (c : Component β) :
    .replace part c ∉ presented g globals := by
  intro hmem
  obtain ⟨a, ha, hcall⟩ := List.mem_filterMap.mp hmem
  rw [plan, untilStop_append_of_ne_ok h] at ha
  have hanalyzes := analyzes_of_mem_analysis (mem_of_mem_untilStop ha)
  cases a with
  | stop e => cases hcall
  | call c' =>
    cases hcall
    exact hanalyzes

/-- A run of a rule set ends at the first missing id that is met from the global components and the
root, before anything is asked about a template and whatever the templates are.  If there is none,
it ends at the first malformed template of what the root reaches, and if there is none either, it
succeeds. -/
theorem transform_rules_result (rules : List Rule) (g : Graph β) (globals : Registry)
    (hits : List Nat) :
    ∃ met below result after log,
      Walk g.store [] (globals.values ++ [g.root]) met ∧
      Walk g.store [] [g.root] below ∧
      (∀ a, a ∈ met ↔ ∃ start ∈ globals.values ++ [g.root], g.store.Reaches start a) ∧
      (∀ a, a ∈ below ↔ g.store.Reaches g.root a) ∧
      transform (RuleSet.instruction rules) g globals hits = (result, after) ∧
      transform (RuleSet.instruction rules).traced g globals (hits, []) = (result, after, log) ∧
      (∀ id, result = .error (.unknownComponent id) ↔ IsFirst g.store.Missing met id) ∧
      (∀ id, result = .error (.unknownComponent id) →
        (∀ part c, .replace part c ∉ log) ∧
        ∀ g' : Graph β, g'.root = g.root → SameChildren g.store g'.store →
          (transform (RuleSet.instruction rules) g' globals hits).1 =
            .error (.unknownComponent id)) ∧
      (∀ id source, result = .error (.scan id source) ↔
        (∀ a ∈ met, ¬ g.store.Missing a) ∧ g.store.Malformed id source ∧
          IsFirst (fun a => ∃ e, g.store.Malformed a e) below id) ∧
      ((∃ out, result = .ok out) ↔
        (∀ a ∈ met, ¬ g.store.Missing a) ∧ ∀ a ∈ below, ∀ e, ¬ g.store.Malformed a e) ∧
      ∀ text, result ≠ .error (.instruction text) := by
  obtain ⟨result, hrun, htraced, hresult⟩ := transform_rules rules g globals hits
  have herror : ∀ e, result = .error e ↔ forM (plan g globals) Step.bound = .error e :=
    fun e => by rw [← transform_rules_eq_error_iff rules g globals hits, hrun]
  have hunknown : ∀ id, result = .error (.unknownComponent id) ↔
      IsFirst g.store.Missing (metIds g globals) id :=
    fun id => by rw [← transform_rules_unknown_iff rules g globals hits, hrun]
  refine ⟨metIds g globals, (g.store.spanning g.root).ids, result, _, _, walk_metIds g globals,
    walk_seenAfter g.store [] [(none, g.root)], fun a => mem_metIds,
    fun a => g.store.mem_ids_spanning, hrun, htraced, hunknown, ?_, ?_, ?_, ?_⟩
  · intro id hid
    have hfirst := (hunknown id).mp hid
    refine ⟨fun part c hmem => ?_, fun g' hroot hstore => ?_⟩
    · have hanalysis : forM (analysis g globals) Step.bound ≠ .ok () := by
        rw [forM_analysis, (forM_present_eq_error_iff g.store).mpr ⟨id, rfl, hfirst⟩]
        exact nofun
      rcases List.mem_cons.mp hmem with heq | hmem
      · cases heq
      · rcases List.mem_append.mp hmem with hmem | hmem
        · exact not_mem_presented hanalysis part c hmem
        · cases List.mem_singleton.mp hmem
    · rw [transform_rules_unknown_iff, metIds_congr hroot hstore]
      exact (isFirst_congr fun a _ => hstore.get?_eq_none_iff a).mpr hfirst
  · intro id source
    rw [herror, forM_plan_eq_error_iff]
    constructor
    · rintro (⟨_, heq, _⟩ | ⟨hmet, _, _, heq, h⟩)
      · cases heq
      · cases heq
        exact ⟨hmet, h⟩
    · rintro ⟨hmet, h⟩
      exact .inr ⟨hmet, id, source, rfl, h⟩
  · rw [← map_unit_eq_ok_iff, hresult, forM_plan_eq_ok_iff]
  · intro text h
    rcases forM_plan_eq_error_iff.mp ((herror _).mp h) with ⟨_, heq, _⟩ | ⟨_, _, _, heq, _⟩
    · cases heq
    · cases heq

end Stencil
