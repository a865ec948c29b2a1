import Stencil.Proofs.Edit.Answers
import Stencil.Proofs.Run.Change

/-!
# The plan of a run

Which calls a run makes, and in which order, does not depend on what the hooks answer: an answer
can only end the run early.  So the calls can be listed beforehand, with the failures that are
bound to happen in the places where they happen.

* `Step`, `follow`            a hook call or such a failure, and steps taken one after the other;
* `analysis`, `editing`       the steps of the two phases;
* `forget_changes`            the changes of a forest make the steps that edit it;
* `Takes`, `exists_takes`     how far a plan gets, and from which state to which.
-/

namespace Stencil

open Stencil.Markup

variable {σ β : Type}

/-! ## steps -/

inductive Step (β : Type) where
  | call (c : Call β)
  /-- a failure that no hook is asked about -/
  | stop (e : RunError)

def Step.call? : Step β → Option (Call β)
  | .call c => some c
  | .stop _ => none

/-- the hook that a call goes to, without its answer -/
def Instruction.perform (i : Instruction σ β) : Call β → Hook σ Unit
  | .event e => i.event e
  | .analyze tag c => i.analyze tag c
  | .replace part c => (fun _ => ()) <$> i.replace part c
  | .substitute c => (fun _ => ()) <$> i.substitute c

def Step.take (i : Instruction σ β) : Step β → Run σ Unit
  | .call c => Run.hook (i.perform c)
  | .stop e => throw e

def follow (i : Instruction σ β) : List (Step β) → Run σ Unit
  | [] => pure ()
  | a :: r => do
    a.take i
    follow i r

theorem follow_nil (i : Instruction σ β) : follow i [] = pure () := rfl
theorem follow_cons (i : Instruction σ β) (a : Step β) (r : List (Step β)) :
    follow i (a :: r) = a.take i >>= fun _ => follow i r := rfl
theorem follow_append (i : Instruction σ β) (l r : List (Step β)) :
    follow i (l ++ r) = follow i l >>= fun _ => follow i r := by
  induction l with
  | nil => rw [List.nil_append, follow_nil, pure_bind]
  | cons a l ih => rw [List.cons_append, follow_cons, ih, follow_cons, bind_assoc]

/-! ## hooks within a run -/

theorem hook_bind {α γ : Type} (x : Hook σ α) (f : α → Hook σ γ) :
    Run.hook (x >>= f) = Run.hook x >>= fun a => Run.hook (f a) :=
  adapt_bind _ x f

theorem hook_map {α γ : Type} (g : α → γ) (x : Hook σ α) :
    Run.hook (g <$> x) = g <$> Run.hook x :=
  adapt_map _ g x

/-- the answers for a list of parts, left aside -/
theorem forget_hook_mapM (i : Instruction σ β) (c : Component β) (l : List Part) :
    (fun _ => ()) <$> Run.hook (l.mapM fun part => i.replace part c) =
      follow i (l.map fun part => .call (.replace part c)) := by
  induction l with
  | nil => rfl
  | cons part l ih =>
    rw [List.map_cons, follow_cons, ← ih, List.mapM_cons, hook_bind]
    simp only [Step.take, Instruction.perform, hook_map, map_bind, Functor.map_map, bind_map_left,
      bind_pure_comp]

/-! ## the steps of the phases -/

def analysisStep (s : Store β) (visit : Option String × Nat) : Step β :=
  match s.get? visit.2 with
  | some c => .call (.analyze visit.1 c)
  | none => .stop (.unknownComponent visit.2)

/-- where a run starts to look: the global components in order, then the root -/
def starts (g : Graph β) (globals : Registry) : List (Option String × Nat) :=
  globals.entries.map (fun e => (some e.1, e.2)) ++ [(none, g.root)]

/-- the first phase: the global components and the root with all that they reach -/
def analysis (g : Graph β) (globals : Registry) : List (Step β) :=
  (g.store.explore [] (starts g globals)).visits.map (analysisStep g.store)

/-- what is asked about a template, in order -/
def partsOf (ps : List Piece) : List Part := (openingTags ps).flatMap OpeningTag.parts

def templateSteps (id : Nat) (c : Component β) : List (Step β) :=
  match parse c.template with
  | .error e => [.stop (.scan id e)]
  | .ok ps => (partsOf ps).map fun part => .call (.replace part c)

/-- the second phase, for a forest of components -/
def editing (s : Store β) : Forest → List (Step β)
  | .nil => []
  | .node _ id below beside =>
    match s.get? id with
    | none => [.stop (.unknownComponent id)]
    | some c =>
      templateSteps id c ++ (editing s below ++ .call (.substitute c) :: editing s beside)

/-- both phases, with the notice between them -/
def plan (g : Graph β) (globals : Registry) : List (Step β) :=
  analysis g globals ++
    .call (.event .replace) :: editing g.store (g.store.spanning g.root)

/-! ## changes as plans -/

theorem forget_askAll (i : Instruction σ β) (c : Component β) (ts : List OpeningTag) :
    (fun _ => ()) <$> Run.hook (ts.mapM fun t => t.parts.mapM fun part => i.replace part c) =
      follow i ((ts.flatMap OpeningTag.parts).map fun part => .call (.replace part c)) := by
  induction ts with
  | nil => rfl
  | cons t ts ih =>
    rw [List.flatMap_cons, List.map_append, follow_append, ← ih, ← forget_hook_mapM,
      List.mapM_cons, hook_bind]
    simp only [hook_map, map_bind, Functor.map_map, bind_map_left, bind_pure_comp]

theorem forget_editTemplate (i : Instruction σ β) (id : Nat) (c : Component β) :
    (fun _ => ()) <$> (ExceptT.adapt (EditError.toRunError id) (editTemplate i c c.template) :
        Run σ String) = follow i (templateSteps id c) := by
  unfold editTemplate templateSteps
  cases parse c.template with
  | error e => rfl
  | ok ps =>
    have hhook : (ExceptT.adapt (EditError.toRunError id) (ExceptT.adapt EditError.instruction
          (edit (fun part => i.replace part c) ps)) : Run σ String) =
        Run.hook (edit (fun part => i.replace part c) ps) := by
      refine run_ext fun st => ?_
      rw [Run.hook, run_adapt, run_adapt, run_adapt]
      rcases (edit (fun part => i.replace part c) ps).run.run st with ⟨_ | a, t⟩ <;> rfl
    simp only
    rw [hhook, edit_eq_map, hook_map, Functor.map_map]
    exact forget_askAll i c (openingTags ps)

theorem forget_changes (i : Instruction σ β) (s : Store β) (f : Forest) :
    (fun _ => ()) <$> changes i s f = follow i (editing s f) := by
  induction f with
  | nil => rfl
  | node tag id below beside ihBelow ihBeside =>
    rw [changes, editing, Run.component]
    cases s.get? id with
    | none => rfl
    | some c =>
      simp only [follow_append, follow_cons, ← forget_editTemplate, ← ihBelow, ← ihBeside,
        Step.take, Instruction.perform, hook_map, pure_bind, map_bind, Functor.map_map,
        bind_map_left, bind_pure_comp]

/-! ## how far a plan gets -/

/-- the calls among some steps, in order -/
def callsOf (steps : List (Step β)) : List (Call β) := steps.filterMap Step.call?

/-- `taken` are the steps of a plan up to the first one that fails, or all of them; the plan ends
with `result` in state `t` -/
inductive Takes (i : Instruction σ β) : List (Step β) → σ → List (Step β) →
    Except RunError Unit → σ → Prop
  | done (s : σ) : Takes i [] s [] (.ok ()) s
  | failed {a : Step β} {r : List (Step β)} {s t : σ} {e : RunError}
      (h : (a.take i).run.run s = (.error e, t)) : Takes i (a :: r) s [a] (.error e) t
  | went {a : Step β} {r taken : List (Step β)} {s t u : σ} {result : Except RunError Unit}
      (h : (a.take i).run.run s = (.ok (), t)) (hr : Takes i r t taken result u) :
      Takes i (a :: r) s (a :: taken) result u

theorem exists_takes (i : Instruction σ β) (steps : List (Step β)) (s : σ) :
    ∃ taken result t, Takes i steps s taken result t ∧
      (follow i steps).run.run s = (result, t) := by
  induction steps generalizing s with
  | nil => exact ⟨[], .ok (), s, .done s, rfl⟩
  | cons a r ih =>
    rw [follow_cons, run_bind]
    rcases ha : (a.take i).run.run s with ⟨e | ⟨⟩, t⟩
    · exact ⟨[a], .error e, t, .failed ha, rfl⟩
    · obtain ⟨taken, result, u, htakes, hrun⟩ := ih t
      exact ⟨a :: taken, result, u, .went ha htakes, hrun⟩

/-- a plan fails in its first part, or goes on with the second one -/
theorem Takes.of_append {i : Instruction σ β} {l r taken : List (Step β)} {s t : σ}
    {result : Except RunError Unit} (h : Takes i (l ++ r) s taken result t) :
    (∃ e, result = .error e ∧ Takes i l s taken (.error e) t) ∨
      ∃ first rest u, taken = first ++ rest ∧ Takes i l s first (.ok ()) u ∧
        Takes i r u rest result t := by
  induction l generalizing s taken with
  | nil => exact .inr ⟨[], taken, s, rfl, .done s, h⟩
  | cons a l ih =>
    cases h with
    | failed ha => exact .inl ⟨_, rfl, .failed ha⟩
    | went ha hr =>
      rcases ih hr with ⟨e, rfl, hl⟩ | ⟨first, rest, u, rfl, hl, hr⟩
      · exact .inl ⟨e, rfl, .went ha hl⟩
      · exact .inr ⟨a :: first, rest, u, rfl, .went ha hl, hr⟩

end Stencil
