import Stencil.Proofs.Run.Course
import Stencil.Proofs.Component.Walk
import Stencil.Proofs.Occurrence

/-!
# Failures that are bound to happen

If no hook fails, a run gets as far as its plan can be followed at all: up to the first id that has
no component, or else up to the first template that does not scan.

* `Step.bound`            the failure that is bound to happen in a step;
* `untilStop`             the steps of a plan up to the first such failure;
* `presented`             the calls of these steps;
* `transform_of_sure`     a run without failing hooks in terms of its plan;
* `Missing`, `Malformed`  what is wrong with an id;
* `Graph.Complete`        nothing is missing that a run meets;
* `forM_plan_eq_ok_iff`, `forM_plan_eq_error_iff`   when a plan fails, and with which failure.
-/

namespace Stencil

open Stencil.Markup

variable {σ β : Type}

/-! ## plans without failing hooks -/

def Step.bound : Step β → Except RunError Unit
  | .call _ => .ok ()
  | .stop e => .error e

/-- the steps up to the first failure that is bound to happen, with this failure -/
def untilStop : List (Step β) → List (Step β)
  | [] => []
  | .call c :: r => .call c :: untilStop r
  | .stop e :: _ => [.stop e]

theorem untilStop_of_ok {steps : List (Step β)} (h : forM steps Step.bound = .ok ()) :
    untilStop steps = steps := by
  induction steps with
  | nil => rfl
  | cons a r ih =>
    rw [List.forM_cons] at h
    cases a with
    | call c => exact congrArg (Step.call c :: ·) (ih h)
    | stop e => cases h

/-- no step of a plan that succeeds is bound to fail -/
theorem Takes.bound_of_ok {i : Instruction σ β} {steps taken : List (Step β)} {s t : σ}
    (h : Takes i steps s taken (.ok ()) t) : forM steps Step.bound = .ok () := by
  generalize hresult : (.ok () : Except RunError Unit) = result at h
  induction h with
  | done s => rfl
  | failed _ => cases hresult
  | @went a r taken s t u result ha _ ih =>
    rw [List.forM_cons]
    cases a with
    | call call => exact ih hresult
    | stop e => cases ha

theorem untilStop_append_of_ne_ok {l r : List (Step β)} (h : forM l Step.bound ≠ .ok ()) :
    untilStop (l ++ r) = untilStop l := by
  induction l with
  | nil => exact absurd rfl h
  | cons a l ih =>
    rw [List.forM_cons] at h
    cases a with
    | call c => exact congrArg (Step.call c :: ·) (ih h)
    | stop e => rfl

theorem mem_of_mem_untilStop {steps : List (Step β)} {a : Step β} (h : a ∈ untilStop steps) :
    a ∈ steps := by
  induction steps with
  | nil => exact h
  | cons b r ih =>
    cases b with
    | call c =>
      rcases List.mem_cons.mp h with rfl | h
      · exact List.mem_cons_self ..
      · exact List.mem_cons_of_mem _ (ih h)
    | stop e => rw [List.mem_singleton.mp h]; exact List.mem_cons_self ..

/-- the calls of a run between its first and its last notice, if no hook fails -/
def presented (g : Graph β) (globals : Registry) : List (Call β) :=
  callsOf (untilStop (plan g globals))

section
variable {i : Instruction σ β} {next : σ → Call β → σ}

/-- an instruction that never fails takes all steps of a plan up to the first one that is bound to
fail -/
theorem takes_of_sure (hi : ∀ c s, (i.perform c).run.run s = (.ok (), next s c))
    (steps : List (Step β)) (s : σ) :
    Takes i steps s (untilStop steps) (forM steps Step.bound)
      ((callsOf (untilStop steps)).foldl next s) := by
  induction steps generalizing s with
  | nil => exact .done s
  | cons a r ih =>
    rw [List.forM_cons]
    cases a with
    | stop e => exact .failed rfl
    | call c => exact .went (run_adapt_ok.mpr (hi c s)) (ih (next s c))

/-- a run without failing hooks fails as its plan does, and its trace and its states follow the
plan -/
theorem transform_of_sure (hi : ∀ c s, (i.perform c).run.run s = (.ok (), next s c))
    (g : Graph β) (globals : Registry) (s : σ) :
    ∃ result after, after = (presented g globals).foldl next (next s (.event .start)) ∧
      transform i g globals s = (result, next after (.event .finish)) ∧
      transform i.traced g globals (s, []) = (result, next after (.event .finish),
        .event .start :: (presented g globals ++ [.event .finish])) ∧
      (result.map fun _ => ()) = forM (plan g globals) Step.bound := by
  obtain ⟨result, hrun, htraced, hresult⟩ := exists_transform_of_started g globals
    (hi (.event .start) s) (takes_of_sure hi (plan g globals) _) (hi (.event .finish) _)
  refine ⟨result, _, rfl, hrun, htraced, hresult.trans ?_⟩
  cases forM (plan g globals) Step.bound <;> rfl

end

/-! ## what a plan is bound to fail with -/

def Store.present (s : Store β) (id : Nat) : Except RunError Unit :=
  match s.get? id with
  | some _ => .ok ()
  | none => .error (.unknownComponent id)

/-- whether a component and its template can be edited -/
def Store.editable (s : Store β) (id : Nat) : Except RunError Unit :=
  match s.get? id with
  | some c => ((scan c.template).mapError (RunError.scan id)).map fun _ => ()
  | none => .error (.unknownComponent id)

/-- the ids that are met from the global components and the root, in order -/
def metIds (g : Graph β) (globals : Registry) : List Nat :=
  (g.store.explore [] (starts g globals)).ids

theorem forM_analysis (g : Graph β) (globals : Registry) :
    forM (analysis g globals) Step.bound = forM (metIds g globals) g.store.present := by
  rw [analysis, metIds, Forest.ids, List.forM_map, List.forM_map]
  refine congrArg (forM _) (funext fun visit => ?_)
  unfold analysisStep Store.present
  cases g.store.get? visit.2 <;> rfl

theorem forM_eq_ok {α : Type} {f : α → Except RunError Unit} {l : List α} :
    forM l f = .ok () ↔ ∀ a ∈ l, f a = .ok () := by
  induction l with
  | nil => exact ⟨fun _ a ha => (by cases ha), fun _ => rfl⟩
  | cons a l ih =>
    rw [List.forM_cons, List.forall_mem_cons, ← ih]
    cases f a with
    | error e => exact ⟨fun h => (by cases h), fun h => (by cases h.1)⟩
    | ok u => exact ⟨fun h => ⟨rfl, h⟩, fun h => h.2⟩

theorem forM_templateSteps {s : Store β} {id : Nat} {c : Component β} (hc : s.get? id = some c) :
    forM (templateSteps id c) Step.bound = s.editable id := by
  unfold templateSteps Store.editable scan
  simp only [hc]
  cases parse c.template with
  | error e => rfl
  | ok ps =>
    refine forM_eq_ok.mpr fun a ha => ?_
    obtain ⟨part, _, rfl⟩ := List.mem_map.mp ha
    rfl

theorem forM_editing (s : Store β) (f : Forest) :
    forM (editing s f) Step.bound = forM f.ids s.editable := by
  induction f with
  | nil => rfl
  | node tag id below beside ihBelow ihBeside =>
    rw [editing, Forest.ids_node, List.forM_cons, List.forM_append, ← ihBelow, ← ihBeside]
    cases hc : s.get? id with
    | none =>
      rw [Store.editable, hc]
      rfl
    | some c =>
      simp only
      rw [List.forM_append, forM_templateSteps hc, List.forM_append, List.forM_cons]
      rfl

/-- the ids of the first phase are looked up, and then the templates of the second one scanned -/
theorem forM_plan (g : Graph β) (globals : Registry) :
    forM (plan g globals) Step.bound =
      forM (metIds g globals) g.store.present >>= fun _ =>
        forM (g.store.spanning g.root).ids g.store.editable := by
  rw [plan, List.forM_append, List.forM_cons, forM_analysis, forM_editing]
  rfl

/-! ## first failures -/

section
variable {α : Type}

/-- steps over a list fail with the failure of the first one that fails -/
theorem forM_eq_error {f : α → Except RunError Unit} {l : List α} {e : RunError} :
    forM l f = .error e ↔ ∃ a, f a = .error e ∧ IsFirst (fun a => f a ≠ .ok ()) l a := by
  induction l with
  | nil => exact ⟨fun h => (by cases h), fun ⟨a, _, ha⟩ => absurd ha (isFirst_nil a)⟩
  | cons b l ih =>
    rw [List.forM_cons]
    constructor
    · intro h
      cases hb : f b with
      | error e' =>
        rw [hb] at h
        cases h
        exact ⟨b, hb, isFirst_cons.mpr (.inl ⟨rfl, by rw [hb]; exact nofun⟩)⟩
      | ok u =>
        rw [hb] at h
        obtain ⟨a, ha, hfirst⟩ := ih.mp h
        exact ⟨a, ha, isFirst_cons.mpr (.inr ⟨by rw [hb]; exact fun hne => hne rfl, hfirst⟩)⟩
    · rintro ⟨a, ha, hfirst⟩
      rcases isFirst_cons.mp hfirst with ⟨rfl, _⟩ | ⟨hb, hfirst⟩
      · rw [ha]
        rfl
      · have hok : f b = .ok () := by
          by_contra hne
          exact hb hne
        rw [hok]
        exact ih.mpr ⟨a, ha, hfirst⟩

end

/-! ## what is wrong with an id -/

namespace Store

variable (s : Store β)

def Missing (id : Nat) : Prop := s.get? id = none

/-- the template under the id does not scan -/
def Malformed (id : Nat) (e : ScanError) : Prop :=
  ∃ c, s.get? id = some c ∧ scan c.template = .error e

theorem present_eq_error_iff {id : Nat} {e : RunError} :
    s.present id = .error e ↔ e = .unknownComponent id ∧ s.Missing id := by
  unfold present Missing
  cases s.get? id with
  | none => exact ⟨fun h => (by cases h; exact ⟨rfl, rfl⟩), fun h => (by rw [h.1])⟩
  | some c => exact ⟨fun h => (by cases h), fun h => (by cases h.2)⟩

theorem editable_eq_ok_iff {id : Nat} : s.editable id = .ok () ↔
    ∃ c found, s.get? id = some c ∧ scan c.template = .ok found := by
  unfold editable
  cases s.get? id with
  | none => exact ⟨fun h => (by cases h), fun ⟨_, _, h, _⟩ => (by cases h)⟩
  | some c =>
    simp only
    cases hscan : scan c.template with
    | error e =>
      refine ⟨fun h => (by cases h), fun ⟨d, found, hd, hfound⟩ => ?_⟩
      cases hd
      cases hscan.symm.trans hfound
    | ok found => exact ⟨fun _ => ⟨c, found, rfl, hscan⟩, fun _ => rfl⟩

theorem editable_eq_error_iff {id : Nat} (hid : ¬ s.Missing id) {e : RunError} :
    s.editable id = .error e ↔ ∃ source, e = .scan id source ∧ s.Malformed id source := by
  unfold editable Malformed
  cases hc : s.get? id with
  | none => exact absurd hc hid
  | some c =>
    simp only
    constructor
    · intro h
      cases hscan : scan c.template with
      | error source =>
        rw [hscan] at h
        cases h
        exact ⟨source, rfl, c, rfl, hscan⟩
      | ok tags =>
        rw [hscan] at h
        cases h
    · rintro ⟨source, rfl, d, hd, hscan⟩
      cases hd
      rw [hscan]
      rfl

end Store

theorem ne_ok_iff {x : Except RunError Unit} : x ≠ .ok () ↔ ∃ e, x = .error e := by
  cases x with
  | error e => exact ⟨fun _ => ⟨e, rfl⟩, fun _ => nofun⟩
  | ok u => exact ⟨fun h => absurd rfl h, fun ⟨e, h⟩ => (by cases h)⟩

/-- the first id whose component cannot be looked up -/
theorem forM_present_eq_error_iff (s : Store β) {ids : List Nat} {e : RunError} :
    forM ids s.present = .error e ↔ ∃ id, e = .unknownComponent id ∧ IsFirst s.Missing ids id := by
  have hmissing : ∀ id, s.present id ≠ .ok () ↔ s.Missing id := by
    intro id
    rw [ne_ok_iff]
    simp only [s.present_eq_error_iff, exists_eq_left]
  rw [forM_eq_error]
  constructor
  · rintro ⟨id, hid, hfirst⟩
    exact ⟨id, (s.present_eq_error_iff.mp hid).1, (isFirst_congr fun a _ => hmissing a).mp hfirst⟩
  · rintro ⟨id, rfl, hfirst⟩
    exact ⟨id, s.present_eq_error_iff.mpr ⟨rfl, hfirst.holds⟩,
      (isFirst_congr fun a _ => hmissing a).mpr hfirst⟩

theorem forM_present_eq_ok_iff (s : Store β) {ids : List Nat} :
    forM ids s.present = .ok () ↔ ∀ id ∈ ids, ¬ s.Missing id := by
  rw [forM_eq_ok]
  refine forall₂_congr fun id _ => ?_
  unfold Store.present Store.Missing
  cases s.get? id with
  | none => exact ⟨fun h => (by cases h), fun h => absurd rfl h⟩
  | some c => exact ⟨fun _ => nofun, fun _ => rfl⟩

/-- the first id whose template does not scan -/
theorem forM_editable_eq_error_iff (s : Store β) {ids : List Nat}
    (hids : ∀ id ∈ ids, ¬ s.Missing id) {e : RunError} :
    forM ids s.editable = .error e ↔ ∃ id source, e = .scan id source ∧ s.Malformed id source ∧
      IsFirst (fun a => ∃ err, s.Malformed a err) ids id := by
  have hmalformed : ∀ id ∈ ids, s.editable id ≠ .ok () ↔ ∃ err, s.Malformed id err := by
    intro id hid
    rw [ne_ok_iff]
    simp only [s.editable_eq_error_iff (hids id hid)]
    constructor
    · rintro ⟨_, source, _, h⟩
      exact ⟨source, h⟩
    · rintro ⟨source, h⟩
      exact ⟨_, source, rfl, h⟩
  rw [forM_eq_error]
  constructor
  · rintro ⟨id, hid, hfirst⟩
    obtain ⟨source, he, h⟩ := (s.editable_eq_error_iff (hids id hfirst.mem)).mp hid
    exact ⟨id, source, he, h, (isFirst_congr hmalformed).mp hfirst⟩
  · rintro ⟨id, source, he, h, hfirst⟩
    exact ⟨id, (s.editable_eq_error_iff (hids id hfirst.mem)).mpr ⟨source, he, h⟩,
      (isFirst_congr hmalformed).mpr hfirst⟩

theorem forM_editable_eq_ok_iff (s : Store β) {ids : List Nat}
    (hids : ∀ id ∈ ids, ¬ s.Missing id) :
    forM ids s.editable = .ok () ↔ ∀ id ∈ ids, ∀ source, ¬ s.Malformed id source := by
  rw [forM_eq_ok]
  refine forall₂_congr fun id hid => ?_
  rw [← not_iff_not, ← ne_eq, ne_ok_iff]
  simp only [s.editable_eq_error_iff (hids id hid), not_forall, not_not]
  constructor
  · rintro ⟨_, source, _, h⟩
    exact ⟨source, h⟩
  · rintro ⟨source, h⟩
    exact ⟨_, source, rfl, h⟩

/-! ## the plan of a run -/

theorem map_snd_starts (g : Graph β) (globals : Registry) :
    (starts g globals).map Prod.snd = globals.values ++ [g.root] := by
  simp [starts, Dict.values, Function.comp_def]

theorem walk_metIds (g : Graph β) (globals : Registry) :
    Walk g.store [] (globals.values ++ [g.root]) (metIds g globals) := by
  rw [← map_snd_starts]
  exact walk_seenAfter g.store [] (starts g globals)

theorem mem_metIds {g : Graph β} {globals : Registry} {a : Nat} :
    a ∈ metIds g globals ↔ ∃ start ∈ globals.values ++ [g.root], g.store.Reaches start a := by
  rw [metIds, g.store.mem_ids_explore, ← map_snd_starts]
  constructor
  · rintro ⟨start, hs, hr⟩
    exact ⟨start.2, List.mem_map_of_mem hs, hr⟩
  · rintro ⟨id, hid, hr⟩
    obtain ⟨start, hs, rfl⟩ := List.mem_map.mp hid
    exact ⟨start, hs, hr⟩

/-- no id that a global component or the root reaches is missing -/
def Graph.Complete (g : Graph β) (globals : Registry) : Prop :=
  ∀ start ∈ globals.values ++ [g.root], ∀ id, g.store.Reaches start id → ¬ g.store.Missing id

theorem complete_iff {g : Graph β} {globals : Registry} :
    g.Complete globals ↔ ∀ a ∈ metIds g globals, g.store.get? a ≠ none := by
  constructor
  · intro h a ha
    obtain ⟨start, hs, hr⟩ := mem_metIds.mp ha
    exact h start hs a hr
  · intro h start hs a hr
    exact h a (mem_metIds.mpr ⟨start, hs, hr⟩)

/-- what the root reaches is met already when the components are looked at -/
theorem ids_spanning_subset_metIds (g : Graph β) (globals : Registry) :
    ∀ a ∈ (g.store.spanning g.root).ids, a ∈ metIds g globals := by
  intro a ha
  have hroot : g.root ∈ globals.values ++ [g.root] := List.mem_append_right _ (by simp)
  exact mem_metIds.mpr ⟨g.root, hroot, g.store.mem_ids_spanning.mp ha⟩

theorem forM_plan_eq_error_iff {g : Graph β} {globals : Registry} {e : RunError} :
    forM (plan g globals) Step.bound = .error e ↔
      (∃ id, e = .unknownComponent id ∧ IsFirst g.store.Missing (metIds g globals) id) ∨
      ((∀ a ∈ metIds g globals, ¬ g.store.Missing a) ∧
        ∃ id source, e = .scan id source ∧ g.store.Malformed id source ∧
          IsFirst (fun a => ∃ err, g.store.Malformed a err) (g.store.spanning g.root).ids id) := by
  have hbelow := ids_spanning_subset_metIds g globals
  rw [forM_plan]
  cases hmet : forM (metIds g globals) g.store.present with
  | error e' =>
    have hfirst := (forM_present_eq_error_iff g.store).mp hmet
    obtain ⟨id, _, hid⟩ := hfirst
    constructor
    · intro h
      cases h
      exact .inl ((forM_present_eq_error_iff g.store).mp hmet)
    · rintro (h | ⟨h, _⟩)
      · rw [(forM_present_eq_error_iff g.store).mpr h] at hmet
        cases hmet
        rfl
      · exact absurd hid.holds (h id hid.mem)
  | ok u =>
    have hpresent := (forM_present_eq_ok_iff g.store).mp hmet
    have heditable := forM_editable_eq_error_iff g.store (e := e) fun id hid =>
      hpresent id (hbelow id hid)
    constructor
    · intro h
      exact .inr ⟨hpresent, heditable.mp h⟩
    · rintro (⟨id, _, hid⟩ | ⟨_, h⟩)
      · exact absurd hid.holds (hpresent id hid.mem)
      · exact heditable.mpr h

theorem forM_plan_eq_ok_iff {g : Graph β} {globals : Registry} :
    forM (plan g globals) Step.bound = .ok () ↔
      (∀ a ∈ metIds g globals, ¬ g.store.Missing a) ∧
      ∀ a ∈ (g.store.spanning g.root).ids, ∀ source, ¬ g.store.Malformed a source := by
  have hbelow := ids_spanning_subset_metIds g globals
  rw [forM_plan, ← forM_present_eq_ok_iff]
  cases hmet : forM (metIds g globals) g.store.present with
  | error e => exact ⟨fun h => (by cases h), fun h => (by cases h.1)⟩
  | ok u =>
    have hpresent := (forM_present_eq_ok_iff g.store).mp hmet
    rw [← forM_editable_eq_ok_iff g.store fun id hid => hpresent id (hbelow id hid)]
    exact ⟨fun h => ⟨rfl, h⟩, fun h => h.2⟩

/-! ## results -/

theorem map_unit_eq_error_iff {α : Type} {result : Except RunError α} {e : RunError} :
    (result.map fun _ => ()) = .error e ↔ result = .error e := by
  cases result with
  | error e' => exact ⟨fun h => (by cases h; rfl), fun h => (by cases h; rfl)⟩
  | ok a => exact ⟨fun h => (by cases h), fun h => (by cases h)⟩

theorem map_unit_eq_ok_iff {α : Type} {result : Except RunError α} :
    (result.map fun _ => ()) = .ok () ↔ ∃ a, result = .ok a := by
  cases result with
  | error e => exact ⟨fun h => (by cases h), fun ⟨_, h⟩ => (by cases h)⟩
  | ok a => exact ⟨fun _ => ⟨a, rfl⟩, fun _ => rfl⟩

end Stencil
