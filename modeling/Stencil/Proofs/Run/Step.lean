import Mathlib.Data.List.Forall2
import Stencil.Run

/-!
# Steps of a run, one after the other

A step with failures of type `ε` takes a state to a result and the state after it.

* `run_bind`         two steps: the second one starts where the first one ends, if that succeeds;
* `run_bind_ok`      two steps that succeed, taken apart;
* `run_bind_congr`   two programs with a common first step;
* `run_mapM_ok`      a list of steps, none of which can fail;
* `run_mapM_map`     a list of steps whose results do not depend on the state;
* `run_adapt`        a step with its failures renamed;
* `adapt_bind`       two such steps;
* `run_outcome`      a step whose failure is a value.
-/

namespace Stencil

section
variable {ε δ σ α γ : Type}

theorem run_bind (x : ExceptT ε (StateM σ) α) (f : α → ExceptT ε (StateM σ) γ) (st : σ) :
    (x >>= f).run.run st = match x.run.run st with
      | (.ok a, t) => (f a).run.run t
      | (.error e, t) => (.error e, t) := by
  show (match x.run.run st with
    | (r, t) => (ExceptT.bindCont f r).run t) = _
  rcases x.run.run st with ⟨_ | a, t⟩ <;> rfl

/-- the second step of a success starts in the state after the first -/
theorem run_bind_ok {x : ExceptT ε (StateM σ) α} {f : α → ExceptT ε (StateM σ) γ} {st u : σ}
    {b : γ} (h : (x >>= f).run.run st = (.ok b, u)) :
    ∃ a t, x.run.run st = (.ok a, t) ∧ (f a).run.run t = (.ok b, u) := by
  rw [run_bind] at h
  rcases hx : x.run.run st with ⟨e | a, t⟩
  · rw [hx] at h; cases h
  · rw [hx] at h; exact ⟨a, t, rfl, h⟩

theorem run_map (g : α → γ) (x : ExceptT ε (StateM σ) α) (st : σ) :
    (g <$> x).run.run st = ((x.run.run st).1.map g, (x.run.run st).2) := by
  show (do let a ← x; pure (g a) : ExceptT ε (StateM σ) γ).run.run st = _
  rw [run_bind]
  rcases x.run.run st with ⟨_ | a, t⟩ <;> rfl

theorem run_ext {x y : ExceptT ε (StateM σ) α} (h : ∀ st, x.run.run st = y.run.run st) : x = y :=
  funext h

/-- two programs with the same first step agree up to `g` if their second steps do -/
theorem run_bind_congr {x : ExceptT ε (StateM σ) α} {f : α → ExceptT ε (StateM σ) γ} {γ' : Type}
    {f' : α → ExceptT ε (StateM σ) γ'} {g : γ' → γ} {st : σ}
    (h : ∀ a t, x.run.run st = (.ok a, t) → (f a).run.run t = (g <$> f' a).run.run t) :
    (x >>= f).run.run st = (g <$> (x >>= f')).run.run st := by
  rw [run_map, run_bind, run_bind]
  rcases hx : x.run.run st with ⟨e | a, t⟩
  · rfl
  · have ha := h a t hx
    rw [run_map] at ha
    exact ha

theorem run_adapt (g : ε → δ) (x : ExceptT ε (StateM σ) α) (st : σ) :
    (ExceptT.adapt g x).run.run st = ((x.run.run st).1.mapError g, (x.run.run st).2) := rfl

theorem adapt_bind (g : ε → δ) (x : ExceptT ε (StateM σ) α) (f : α → ExceptT ε (StateM σ) γ) :
    ExceptT.adapt g (x >>= f) = ExceptT.adapt g x >>= fun a => ExceptT.adapt g (f a) := by
  refine run_ext fun st => ?_
  rw [run_adapt, run_bind, run_bind, run_adapt]
  rcases x.run.run st with ⟨_ | a, t⟩ <;> rfl

theorem adapt_map (g : ε → δ) (h : α → γ) (x : ExceptT ε (StateM σ) α) :
    ExceptT.adapt g (h <$> x) = h <$> ExceptT.adapt g x := by
  rw [map_eq_pure_bind, adapt_bind, map_eq_pure_bind]
  rfl

theorem run_outcome (x : Run σ α) (st : σ) :
    (Run.outcome x).run.run st = (.ok (x.run.run st).1, (x.run.run st).2) := rfl

/-- renaming failures makes no difference to a success -/
theorem run_adapt_ok {g : ε → δ} {x : ExceptT ε (StateM σ) α} {st t : σ} {a : α} :
    (ExceptT.adapt g x).run.run st = (.ok a, t) ↔ x.run.run st = (.ok a, t) := by
  rw [run_adapt]
  rcases x.run.run st with ⟨_ | b, u⟩
  · exact ⟨fun h => (by cases h), fun h => (by cases h)⟩
  · exact ⟨fun h => (by cases h; rfl), fun h => (by cases h; rfl)⟩

theorem run_mapM_cons {f : α → ExceptT ε (StateM σ) γ} {a : α} {l : List α} {b : γ} {bs : List γ}
    {st t u : σ} (hb : (f a).run.run st = (.ok b, t)) (hbs : (l.mapM f).run.run t = (.ok bs, u)) :
    ((a :: l).mapM f).run.run st = (.ok (b :: bs), u) := by
  rw [List.mapM_cons, run_bind, hb]
  show (l.mapM f >>= fun bs => pure (b :: bs)).run.run t = _
  rw [run_bind, hbs]
  rfl

/-- a list of steps, each of which succeeds wherever it starts -/
theorem run_mapM_ok {f : α → ExceptT ε (StateM σ) γ} {P : α → γ → Prop} {l : List α}
    (h : ∀ a ∈ l, ∀ st, ∃ b t, (f a).run.run st = (.ok b, t) ∧ P a b) (st : σ) :
    ∃ bs t, (l.mapM f).run.run st = (.ok bs, t) ∧ List.Forall₂ P l bs := by
  induction l generalizing st with
  | nil => exact ⟨[], st, rfl, .nil⟩
  | cons a l ih =>
    obtain ⟨b, t, hb, hP⟩ := h a (List.mem_cons_self ..) st
    obtain ⟨bs, u, hbs, hall⟩ := ih (fun a' ha' => h a' (List.mem_cons_of_mem _ ha')) t
    exact ⟨b :: bs, u, run_mapM_cons hb hbs, .cons hP hall⟩

/-- a list of steps, each of which gives the same wherever it starts -/
theorem run_mapM_map {f : α → ExceptT ε (StateM σ) γ} {g : α → γ} {l : List α}
    (h : ∀ a ∈ l, ∀ st, ∃ t, (f a).run.run st = (.ok (g a), t)) (st : σ) :
    ∃ t, (l.mapM f).run.run st = (.ok (l.map g), t) := by
  induction l generalizing st with
  | nil => exact ⟨st, rfl⟩
  | cons a l ih =>
    obtain ⟨t, ha⟩ := h a (List.mem_cons_self ..) st
    obtain ⟨u, hl⟩ := ih (fun a' ha' => h a' (List.mem_cons_of_mem _ ha')) t
    exact ⟨u, run_mapM_cons ha hl⟩

end

end Stencil
