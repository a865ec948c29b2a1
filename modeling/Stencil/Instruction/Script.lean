import Stencil.Instruction.Basic

/-!
# Scripted instructions

A script is an instruction that is written down as data: a list of edits, of which the first one
that fits a part decides, and a list of substitutions for bases.

* `Script`               the data;
* `Script.State`         the numbers of calls so far;
* `Script.instruction`   the instruction that it describes.
-/

namespace Stencil

open Stencil.Markup

namespace Script

/-- an edit for the parts that meet all of its conditions -/
structure Edit (β : Type) where
  /-- `some true` for tags only, `some false` for attributes only -/
  isTag : Option Bool
  tag : Option String
  key : Option String
  /-- the number of the call, from 0 -/
  nth : Option Nat
  /-- holds of the bases of the components to edit -/
  base : β → Bool
  /-- a failure, or the text to put in if there is one -/
  answer : Except String (Option String)

/-- another base, or a failure, for the bases that it holds of -/
structure Substitution (β : Type) where
  base : β → Bool
  answer : Except String β

structure State where
  replaces : Nat
  analyzes : Nat
  deriving DecidableEq, Repr

def State.initial : State := ⟨0, 0⟩

/-- whether a condition holds, if there is one -/
def holds {α : Type} [DecidableEq α] (condition : Option α) (a : α) : Bool :=
  condition.all (· == a)

def Edit.fits {β : Type} (e : Edit β) (nth : Nat) (part : Part) (base : β) : Bool :=
  holds e.isTag part.isTag && holds e.tag part.tagName &&
    e.key.all (fun k => part.attr?.any (fun a => a.key == k)) && holds e.nth nth && e.base base

end Script

structure Script (β : Type) where
  edits : List (Script.Edit β)
  substitutions : List (Script.Substitution β)
  /-- the text that a notice fails with, if it does -/
  failEvent : Event → Option String
  /-- the number of the look at a component that fails -/
  failAnalyze : Option Nat

namespace Script

variable {β : Type}

def ofExcept {σ α : Type} (x : Except String α) : Hook σ α := ExceptT.mk (pure x)

/-- the answer for the part of call `nth`: that of the first edit which fits -/
def answer (s : Script β) (nth : Nat) (part : Part) (base : β) :
    Except String (Option String) :=
  ((s.edits.find? fun e => e.fits nth part base).map Edit.answer).getD (.ok none)

def substitute (s : Script β) (base : β) : Except String (Option β) :=
  match s.substitutions.find? fun e => e.base base with
  | some e => e.answer.map some
  | none => .ok none

def instruction (s : Script β) : Instruction State β where
  replace part c := do
    let nth := (← get).replaces
    modify fun n => { n with replaces := nth + 1 }
    ofExcept (s.answer nth part c.base)
  event e :=
    match s.failEvent e with
    | some text => throw text
    | none => pure ()
  analyze _ _ := do
    let nth := (← get).analyzes
    modify fun n => { n with analyzes := nth + 1 }
    if s.failAnalyze = some nth then throw "analyze refused" else pure ()
  substitute c := ofExcept (s.substitute c.base)

end Script

end Stencil
