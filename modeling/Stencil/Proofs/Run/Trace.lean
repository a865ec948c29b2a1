import Stencil.Proofs.Run.Phases

/-!
# What a trace shows

An instruction that is traced behaves as before, and its trace lists the calls of the steps that
the run takes.

* `Shadows`             a program that does the same as another one, with more in its state;
* `shadows_process`     a traced run gives the result and the state of the run itself;
* `run_follow_traced`   the trace of a plan.
-/

namespace Stencil

open Stencil.Markup

/-! ## more in the state -/

section
variable {ε δ σ κ α γ : Type}

/-- `y` does what `x` does, and does something else to the second part of its state -/
def Shadows (x : ExceptT ε (StateM σ) α) (y : ExceptT ε (StateM (σ × κ)) α) : Prop :=
  ∀ s k, ∃ k', y.run.run (s, k) = ((x.run.run s).1, ((x.run.run s).2, k'))

theorem shadows_pure (a : α) :
    Shadows (pure a : ExceptT ε (StateM σ) α) (pure a : ExceptT ε (StateM (σ × κ)) α) :=
  fun _ k => ⟨k, rfl⟩

theorem shadows_throw (e : ε) :
    Shadows (throw e : ExceptT ε (StateM σ) α) (throw e : ExceptT ε (StateM (σ × κ)) α) :=
  fun _ k => ⟨k, rfl⟩

theorem Shadows.bind {x : ExceptT ε (StateM σ) α} {y : ExceptT ε (StateM (σ × κ)) α}
    {f : α → ExceptT ε (StateM σ) γ} {g : α → ExceptT ε (StateM (σ × κ)) γ}
    (h : Shadows x y) (hf : ∀ a, Shadows (f a) (g a)) : Shadows (x >>= f) (y >>= g) := by
  intro s k
  obtain ⟨k', hk⟩ := h s k
  rw [run_bind, run_bind, hk]
  rcases x.run.run s with ⟨e | a, t⟩
  · exact ⟨k', rfl⟩
  · exact hf a t k'

theorem Shadows.adapt {x : ExceptT ε (StateM σ) α} {y : ExceptT ε (StateM (σ × κ)) α}
    (h : Shadows x y) (g : ε → δ) : Shadows (ExceptT.adapt g x) (ExceptT.adapt g y) := by
  intro s k
  obtain ⟨k', hk⟩ := h s k
  refine ⟨k', ?_⟩
  rw [run_adapt, run_adapt, hk]

theorem Shadows.mapM {f : α → ExceptT ε (StateM σ) γ} {g : α → ExceptT ε (StateM (σ × κ)) γ}
    (h : ∀ a, Shadows (f a) (g a)) (l : List α) : Shadows (l.mapM f) (l.mapM g) := by
  induction l with
  | nil => exact shadows_pure []
  | cons a l ih =>
    rw [List.mapM_cons, List.mapM_cons]
    exact (h a).bind fun b => ih.bind fun bs => shadows_pure (b :: bs)

theorem Shadows.outcome {x : Run σ α} {y : Run (σ × κ) α} (h : Shadows x y) :
    Shadows (Run.outcome x) (Run.outcome y) := by
  intro s k
  obtain ⟨k', hk⟩ := h s k
  refine ⟨k', ?_⟩
  rw [run_outcome, run_outcome, hk]

theorem shadows_logged (h : Hook σ α) (call : κ) : Shadows h (h.logged call) :=
  fun _ k => ⟨k ++ [call], rfl⟩

end

/-! ## traced runs -/

variable {σ β : Type} (i : Instruction σ β)

theorem shadows_editTemplate (c : Component β) (template : String) :
    Shadows (editTemplate i c template) (editTemplate i.traced c template) := by
  unfold editTemplate
  cases parse template with
  | error e => exact shadows_throw _
  | ok ps =>
    refine Shadows.adapt ?_ _
    rw [edit_eq_map, edit_eq_map, map_eq_pure_bind, map_eq_pure_bind]
    refine Shadows.bind (Shadows.mapM (fun t => Shadows.mapM (fun part => ?_) _) _) fun _ =>
      shadows_pure _
    exact shadows_logged _ _

theorem shadows_component (s : Store β) (id : Nat) :
    Shadows (Run.component s id : Run σ _)
      (Run.component s id : Run (σ × List (Call β)) _) := by
  unfold Run.component
  cases s.get? id with
  | none => exact shadows_throw _
  | some c => exact shadows_pure c

theorem shadows_event (e : Event) :
    Shadows (Run.hook (i.event e)) (Run.hook (i.traced.event e)) :=
  (shadows_logged _ _).adapt _

theorem logged_map {α γ κ : Type} (g : α → γ) (h : Hook σ α) (call : κ) :
    g <$> h.logged call = (g <$> h).logged call := by
  refine run_ext fun st => ?_
  show _ = (((g <$> h).run.run st.1).1, ((g <$> h).run.run st.1).2, st.2 ++ [call])
  rw [run_map, run_map]
  rfl

theorem perform_traced (c : Call β) : i.traced.perform c = (i.perform c).logged c := by
  cases c with
  | event e => rfl
  | analyze tag c => rfl
  | replace part c => exact logged_map _ _ _
  | substitute c => exact logged_map _ _ _

theorem shadows_perform (c : Call β) :
    Shadows (Run.hook (i.perform c)) (Run.hook (i.traced.perform c)) := by
  rw [perform_traced]
  exact (shadows_logged _ _).adapt _

theorem shadows_follow (steps : List (Step β)) :
    Shadows (follow i steps) (follow i.traced steps) := by
  induction steps with
  | nil => exact shadows_pure ()
  | cons a r ih =>
    cases a with
    | stop e => exact (shadows_throw e).bind fun _ => ih
    | call c => exact (shadows_perform i c).bind fun _ => ih

theorem shadows_changes (s : Store β) (f : Forest) :
    Shadows (changes i s f) (changes i.traced s f) := by
  induction f with
  | nil => exact shadows_pure []
  | node tag id below beside ihBelow ihBeside =>
    refine (shadows_component s id).bind fun c => ?_
    refine ((shadows_editTemplate i c c.template).adapt _).bind fun template => ?_
    refine ihBelow.bind fun inner => ?_
    refine ((shadows_logged _ _).adapt _).bind fun base => ?_
    exact ihBeside.bind fun outer => shadows_pure _

theorem shadows_phases (g : Graph β) (globals : Registry) :
    Shadows (phases i g globals) (phases i.traced g globals) := by
  rw [phases_eq, phases_eq]
  refine (shadows_follow i _).bind fun _ => (shadows_event i .replace).bind fun _ => ?_
  exact (shadows_changes i _ _).bind fun log => shadows_pure (graphOf log g.root)

theorem shadows_process (g : Graph β) (globals : Registry) :
    Shadows (process i g globals) (process i.traced g globals) := by
  refine (shadows_event i .start).bind fun _ => ?_
  refine (shadows_phases i g globals).outcome.bind fun result => ?_
  refine (shadows_event i .finish).outcome.bind fun ended => ?_
  rcases result with e | out
  · exact shadows_throw e
  · rcases ended with e | ⟨⟩
    · exact shadows_throw e
    · exact shadows_pure out

/-! ## the calls of a trace -/

theorem run_take_traced (a : Step β) (s : σ) (log : List (Call β)) :
    (a.take i.traced).run.run (s, log) =
      (((a.take i).run.run s).1, ((a.take i).run.run s).2, log ++ callsOf [a]) := by
  cases a with
  | stop e => rw [callsOf, List.filterMap_cons_none rfl, List.filterMap_nil, List.append_nil]; rfl
  | call c => rw [Step.take, perform_traced]; rfl

theorem run_follow_traced {steps taken : List (Step β)} {s t : σ} {result : Except RunError Unit}
    (h : Takes i steps s taken result t) (log : List (Call β)) :
    (follow i.traced steps).run.run (s, log) = (result, t, log ++ callsOf taken) := by
  induction h generalizing log with
  | done s => rw [callsOf, List.filterMap_nil, List.append_nil]; rfl
  | failed ha =>
    rw [follow_cons, run_bind, run_take_traced, ha]
  | @went a r taken s t u result ha hr ih =>
    rw [follow_cons, run_bind, run_take_traced, ha]
    show (follow i.traced r).run.run (t, log ++ callsOf [a]) = _
    have hcalls : callsOf (a :: taken) = callsOf [a] ++ callsOf taken :=
      List.filterMap_append (l := [a])
    rw [ih, hcalls, List.append_assoc]

end Stencil
