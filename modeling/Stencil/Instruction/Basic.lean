import Stencil.Component.Basic
import Stencil.Markup.Edit

/-!
# Instructions

An instruction says how the templates of a component graph change.  It is a machine with a state
`σ`; each of its hooks may change the state, and may fail with a text.

* `Hook`          what a hook does: its answer or failure, and the state after either;
* `Instruction`   the four hooks, of which only `replace` is required;
* `Call`          one hook call;
* `traced`        the same instruction with a list of its calls in its state;
* `onlyReplace`   the same instruction with its other hooks and its failures left out.
-/

namespace Stencil

open Stencil.Markup

/-- the moments of a run that an instruction is told of -/
inductive Event where
  /-- before anything else; state of an earlier run ends here -/
  | start
  /-- all components have been looked at, the templates are next -/
  | replace
  /-- the run is over, whether it failed or not -/
  | finish
  deriving DecidableEq, Repr

/-- a hook with answer `α`; a failure keeps the state that it was met in -/
abbrev Hook (σ α : Type) : Type := ExceptT String (StateM σ) α

structure Instruction (σ β : Type) where
  /-- the answer for one part of a component's template, if there is one -/
  replace : Part → Component β → Hook σ (Option String)
  event : Event → Hook σ Unit := fun _ => pure ()
  /-- a look at a component before any template changes, with the tag that leads to it -/
  analyze : Option String → Component β → Hook σ Unit := fun _ _ => pure ()
  /-- another base for a component, if it takes one -/
  substitute : Component β → Hook σ (Option β) := fun _ => pure none

/-! ## tracing -/

inductive Call (β : Type) where
  | event (e : Event)
  | analyze (tag : Option String) (c : Component β)
  | replace (part : Part) (c : Component β)
  | substitute (c : Component β)
  deriving DecidableEq

/-- a hook that first adds its call to a list behind its state -/
def Hook.logged {σ α κ : Type} (call : κ) (hook : Hook σ α) : Hook (σ × List κ) α :=
  ExceptT.mk fun s =>
    let r := hook.run.run s.1
    (r.1, (r.2, s.2 ++ [call]))

/-- the hook that gives `a` in place of a failure -/
def Hook.recover {σ α : Type} (a : α) (hook : Hook σ α) : Hook σ α :=
  ExceptT.mk fun s =>
    let r := hook.run.run s
    (.ok (r.1.toOption.getD a), r.2)

namespace Instruction

variable {σ β : Type}

def traced (i : Instruction σ β) : Instruction (σ × List (Call β)) β where
  replace part c := (i.replace part c).logged (.replace part c)
  event e := (i.event e).logged (.event e)
  analyze tag c := (i.analyze tag c).logged (.analyze tag c)
  substitute c := (i.substitute c).logged (.substitute c)

def onlyReplace (i : Instruction σ β) : Instruction σ β where
  replace part c := (i.replace part c).recover none

end Instruction

end Stencil
