import Stencil.Proofs.Run.Trace

/-!
# The course of a run

A run that may start looks at components, tells the instruction that the templates are next, edits
them, and tells it that the run is over.  A failure ends all but the last notice, and the first
one is the result.

* `Course`             the six courses that a run can take, each with its calls and its result;
* `transform_course`   every run takes one of them, and its trace shows the calls.

In both phases the steps are those of the plan, up to and with the first one that fails (`Takes`).
-/

namespace Stencil

open Stencil.Markup

variable {σ β : Type}

/-! ## what the steps of a phase are -/

/-- a look at a component, or a failure since there is none -/
def Step.Analyzes (s : Store β) : Step β → Prop
  | .call (.analyze _ c) => ∃ id, s.get? id = some c
  | .stop (.unknownComponent id) => s.get? id = none
  | _ => False

/-- a question about a component or its template, or a failure since there is no component or
its template does not scan -/
def Step.Edits (s : Store β) : Step β → Prop
  | .call (.replace _ c) => ∃ id, s.get? id = some c
  | .call (.substitute c) => ∃ id, s.get? id = some c
  | .stop (.unknownComponent id) => s.get? id = none
  | .stop (.scan id e) => ∃ c, s.get? id = some c ∧ scan c.template = .error e
  | _ => False

theorem analyzes_of_mem_analysis {g : Graph β} {globals : Registry} {a : Step β}
    (ha : a ∈ analysis g globals) : a.Analyzes g.store := by
  obtain ⟨visit, _, rfl⟩ := List.mem_map.mp ha
  unfold analysisStep
  cases hc : g.store.get? visit.2 with
  | none => exact hc
  | some c => exact ⟨visit.2, hc⟩

theorem edits_of_mem_templateSteps {s : Store β} {id : Nat} {c : Component β}
    (hc : s.get? id = some c) {a : Step β} (ha : a ∈ templateSteps id c) : a.Edits s := by
  unfold templateSteps at ha
  cases hps : parse c.template with
  | error e =>
    rw [hps] at ha
    rw [List.mem_singleton.mp ha]
    exact ⟨c, hc, scan_error_iff.mpr hps⟩
  | ok ps =>
    rw [hps] at ha
    obtain ⟨part, _, rfl⟩ := List.mem_map.mp ha
    exact ⟨id, hc⟩

/-- a step of the second phase is about a component, or there is none -/
theorem mem_editing_cases {s : Store β} {f : Forest} {a : Step β} (ha : a ∈ editing s f) :
    (∃ id, s.get? id = none ∧ a = .stop (.unknownComponent id)) ∨
      ∃ id c, s.get? id = some c ∧ (a ∈ templateSteps id c ∨ a = .call (.substitute c)) := by
  induction f with
  | nil => cases ha
  | node tag id below beside ihBelow ihBeside =>
    rw [editing] at ha
    cases hc : s.get? id with
    | none =>
      rw [hc] at ha
      exact .inl ⟨id, hc, List.mem_singleton.mp ha⟩
    | some c =>
      rw [hc] at ha
      rcases List.mem_append.mp ha with ha | ha
      · exact .inr ⟨id, c, hc, .inl ha⟩
      · rcases List.mem_append.mp ha with ha | ha
        · exact ihBelow ha
        · rcases List.mem_cons.mp ha with ha | ha
          · exact .inr ⟨id, c, hc, .inr ha⟩
          · exact ihBeside ha

theorem edits_of_mem_editing {s : Store β} {f : Forest} {a : Step β} (ha : a ∈ editing s f) :
    a.Edits s := by
  rcases mem_editing_cases ha with ⟨id, hid, rfl⟩ | ⟨id, c, hc, ha | rfl⟩
  · exact hid
  · exact edits_of_mem_templateSteps hc ha
  · exact ⟨id, hc⟩

/-! ## courses -/

/-- the calls of a run that starts in state `s`, its first failure if there is one, and the state
that it ends in -/
inductive Course (i : Instruction σ β) (g : Graph β) (globals : Registry) (s : σ) :
    List (Call β) → Except RunError Unit → σ → Prop
  | refused {text : String} {t : σ}
      (hstart : (i.event .start).run.run s = (.error text, t)) :
      Course i g globals s [.event .start] (.error (.instruction text)) t
  | analysisFailed {taken : List (Step β)} {e : RunError} {ended : Except String Unit} {t u v : σ}
      (hstart : (i.event .start).run.run s = (.ok (), t))
      (hanalysis : Takes i (analysis g globals) t taken (.error e) u)
      (hfinish : (i.event .finish).run.run u = (ended, v)) :
      Course i g globals s (.event .start :: (callsOf taken ++ [.event .finish])) (.error e) v
  | noticeFailed {taken : List (Step β)} {text : String} {ended : Except String Unit}
      {t u v w : σ}
      (hstart : (i.event .start).run.run s = (.ok (), t))
      (hanalysis : Takes i (analysis g globals) t taken (.ok ()) u)
      (hnotice : (i.event .replace).run.run u = (.error text, v))
      (hfinish : (i.event .finish).run.run v = (ended, w)) :
      Course i g globals s
        (.event .start :: (callsOf taken ++ [.event .replace, .event .finish]))
        (.error (.instruction text)) w
  | editingFailed {taken edits : List (Step β)} {e : RunError} {ended : Except String Unit}
      {t u v w x : σ}
      (hstart : (i.event .start).run.run s = (.ok (), t))
      (hanalysis : Takes i (analysis g globals) t taken (.ok ()) u)
      (hnotice : (i.event .replace).run.run u = (.ok (), v))
      (hediting : Takes i (editing g.store (g.store.spanning g.root)) v edits (.error e) w)
      (hfinish : (i.event .finish).run.run w = (ended, x)) :
      Course i g globals s
        (.event .start :: (callsOf taken ++ .event .replace :: (callsOf edits ++ [.event .finish])))
        (.error e) x
  | finishFailed {taken edits : List (Step β)} {text : String} {t u v w x : σ}
      (hstart : (i.event .start).run.run s = (.ok (), t))
      (hanalysis : Takes i (analysis g globals) t taken (.ok ()) u)
      (hnotice : (i.event .replace).run.run u = (.ok (), v))
      (hediting : Takes i (editing g.store (g.store.spanning g.root)) v edits (.ok ()) w)
      (hfinish : (i.event .finish).run.run w = (.error text, x)) :
      Course i g globals s
        (.event .start :: (callsOf taken ++ .event .replace :: (callsOf edits ++ [.event .finish])))
        (.error (.instruction text)) x
  | completed {taken edits : List (Step β)} {t u v w x : σ}
      (hstart : (i.event .start).run.run s = (.ok (), t))
      (hanalysis : Takes i (analysis g globals) t taken (.ok ()) u)
      (hnotice : (i.event .replace).run.run u = (.ok (), v))
      (hediting : Takes i (editing g.store (g.store.spanning g.root)) v edits (.ok ()) w)
      (hfinish : (i.event .finish).run.run w = (.ok (), x)) :
      Course i g globals s
        (.event .start :: (callsOf taken ++ .event .replace :: (callsOf edits ++ [.event .finish])))
        (.ok ()) x

/-! ## whole runs -/

theorem run_hook_error {α : Type} {h : Hook σ α} {s t : σ} {e : RunError}
    (hrun : (Run.hook h).run.run s = (.error e, t)) :
    ∃ text, e = .instruction text ∧ h.run.run s = (.error text, t) := by
  rw [Run.hook, run_adapt] at hrun
  rcases hh : h.run.run s with ⟨text | a, u⟩
  · rw [hh] at hrun
    cases hrun
    exact ⟨text, rfl, rfl⟩
  · rw [hh] at hrun
    cases hrun

/-- a run in terms of its notices and its phases -/
theorem run_process (i : Instruction σ β) (g : Graph β) (globals : Registry) (s : σ) :
    (process i g globals).run.run s =
      match (Run.hook (i.event .start)).run.run s with
      | (.error e, t) => (.error e, t)
      | (.ok (), t) =>
        let inner := (phases i g globals).run.run t
        let last := (Run.hook (i.event .finish)).run.run inner.2
        (inner.1.bind fun out => last.1.map fun _ => out, last.2) := by
  rw [process, run_bind]
  rcases (Run.hook (i.event .start)).run.run s with ⟨e | ⟨⟩, t⟩
  · rfl
  · simp only
    rw [run_bind, run_outcome]
    rcases (phases i g globals).run.run t with ⟨e | out, u⟩
    · simp only
      rw [run_bind, run_outcome]
      rfl
    · simp only
      rw [run_bind, run_outcome]
      rcases (Run.hook (i.event .finish)).run.run u with ⟨e | ⟨⟩, v⟩ <;> rfl

/-- a run whose notice of the start is refused -/
theorem transform_of_refused {i : Instruction σ β} (g : Graph β) (globals : Registry) {s t : σ}
    {text : String} (h : (i.event .start).run.run s = (.error text, t)) :
    transform i g globals s = (.error (.instruction text), t) := by
  rw [transform, run_process, Run.hook, run_adapt, h]
  rfl

/-- a run that starts, in terms of its plan -/
theorem exists_transform_of_started {i : Instruction σ β} (g : Graph β) (globals : Registry)
    {s t u v : σ} {taken : List (Step β)} {inner : Except RunError Unit}
    {ended : Except String Unit} (hstart : (i.event .start).run.run s = (.ok (), t))
    (hplan : Takes i (plan g globals) t taken inner u)
    (hfinish : (i.event .finish).run.run u = (ended, v)) :
    ∃ result, transform i g globals s = (result, v) ∧
      transform i.traced g globals (s, []) =
        (result, v, .event .start :: (callsOf taken ++ [.event .finish])) ∧
      (result.map fun _ => ()) = inner.bind fun _ => ended.mapError .instruction := by
  have hfollow : ∀ log, ((fun _ => ()) <$> phases i.traced g globals).run.run (t, log) =
      (inner, u, log ++ callsOf taken) := by
    intro log
    rw [phases_eq_follow, run_follow_traced i hplan]
  -- the traced run gives the result of the run itself, and the plan gives its trace
  obtain ⟨log, htraced⟩ := shadows_process i g globals s []
  have hresult : transform i.traced g globals (s, []) =
      ((transform i g globals s).1, (transform i g globals s).2, log) := htraced
  have hstart' : (Run.hook (i.traced.event .start)).run.run (s, []) =
      (.ok (), t, [.event .start]) := by
    show (((i.event .start).run.run s).1.mapError _, ((i.event .start).run.run s).2, _) = _
    rw [hstart]
    rfl
  have hfinish' : ∀ log, (Run.hook (i.traced.event .finish)).run.run (u, log) =
      (ended.mapError .instruction, v, log ++ [.event .finish]) := by
    intro log
    show (((i.event .finish).run.run u).1.mapError _, ((i.event .finish).run.run u).2, _) = _
    rw [hfinish]
  have hphases := hfollow [.event .start]
  rw [run_map] at hphases
  rcases hrun : (phases i.traced g globals).run.run (t, [.event .start]) with ⟨result, w⟩
  rw [hrun] at hphases
  obtain ⟨hinner, rfl⟩ := Prod.mk.inj hphases
  have hprocess : transform i.traced g globals (s, []) =
      (result.bind fun out => (ended.mapError .instruction).map fun _ => out, v,
        .event .start :: (callsOf taken ++ [.event .finish])) := by
    rw [transform, run_process, hstart']
    simp only [hrun, hfinish']
    rfl
  have hpair := hresult.symm.trans hprocess
  have hstate : (transform i g globals s).2 = v := congrArg (fun p => p.2.1) hpair
  refine ⟨(transform i g globals s).1, Prod.ext rfl hstate, ?_, ?_⟩
  · rw [hprocess, congrArg Prod.fst hpair]
  · rw [congrArg Prod.fst hpair, ← hinner]
    rcases result with e | out
    · rfl
    · rcases ended with text | ⟨⟩ <;> rfl

theorem callsOf_append (l r : List (Step β)) : callsOf (l ++ r) = callsOf l ++ callsOf r :=
  List.filterMap_append

/-- Every run takes one of the courses, and its trace lists the calls of that course: a look at
each component in turn, the notice, questions about templates and components, and the last notice
once, as far as nothing fails.  Its result is the first failure, or a graph if there is none. -/
theorem transform_course (i : Instruction σ β) (g : Graph β) (globals : Registry) (s : σ) :
    (∀ a ∈ analysis g globals, a.Analyzes g.store) ∧
    (∀ a ∈ editing g.store (g.store.spanning g.root), a.Edits g.store) ∧
    ∃ result log t, transform i g globals s = (result, t) ∧
      transform i.traced g globals (s, []) = (result, t, log) ∧
      Course i g globals s log (result.map fun _ => ()) t := by
  refine ⟨fun a ha => analyzes_of_mem_analysis ha, fun a ha => edits_of_mem_editing ha, ?_⟩
  rcases hstart : (i.event .start).run.run s with ⟨text | ⟨⟩, t⟩
  · have hstart' : (i.traced.event .start).run.run (s, []) =
        (.error text, t, [.event .start]) := by
      show (((i.event .start).run.run s).1, ((i.event .start).run.run s).2, _) = _
      rw [hstart]
      rfl
    exact ⟨_, _, _, transform_of_refused g globals hstart,
      transform_of_refused g globals hstart', .refused hstart⟩
  · obtain ⟨taken, inner, u, hplan, _⟩ := exists_takes i (plan g globals) t
    rcases hfinish : (i.event .finish).run.run u with ⟨ended, v⟩
    obtain ⟨result, hrun, htraced, hresult⟩ :=
      exists_transform_of_started g globals hstart hplan hfinish
    refine ⟨result, _, v, hrun, htraced, ?_⟩
    rw [hresult]
    -- the plan fails in the first phase, at the notice or in the second phase, or not at all
    rcases hplan.of_append with ⟨e, rfl, hanalysis⟩ | ⟨looks, rest, w, rfl, hanalysis, hrest⟩
    · exact .analysisFailed hstart hanalysis hfinish
    · rw [callsOf_append, List.append_assoc]
      cases hrest with
      | failed hnotice =>
        obtain ⟨text, rfl, hrefused⟩ := run_hook_error hnotice
        exact .noticeFailed hstart hanalysis hrefused hfinish
      | went hnotice hediting =>
        have hnoticed := run_adapt_ok.mp hnotice
        rcases inner with e | ⟨⟩
        · exact .editingFailed hstart hanalysis hnoticed hediting hfinish
        · rcases ended with text | ⟨⟩
          · exact .finishFailed hstart hanalysis hnoticed hediting hfinish
          · exact .completed hstart hanalysis hnoticed hediting hfinish

end Stencil
