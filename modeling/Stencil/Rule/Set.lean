import Stencil.Rule.Basic
import Stencil.Instruction.Basic

/-!
# Rule sets

A rule set is an instruction.  On a tag, the texts of all rules are put together in their order;
an attribute is up to the first rule that has an answer for it.

* `RuleSet.ofRules`       refuses rules that are of no use;
* `RuleSet.answers`       which rules change a part, and how;
* `RuleSet.instruction`   the instruction, which counts the changes made by each rule;
* `unused`                the rules that changed nothing.
-/

namespace Stencil

open Stencil.Markup

structure RuleSet where
  name : Option String
  description : Option String
  rules : List Rule
  deriving DecidableEq

namespace RuleSet

/-- why there is no rule set; rules have numbers from 0 -/
inductive Error where
  /-- the file could not be read -/
  | unreadable (cause : String)
  /-- the text does not describe a rule set -/
  | malformed
  | emptyRule (index : Nat)
  | invalidClass (index : Nat) (name : String)
  deriving DecidableEq, Repr

def Error.message : Error → String
  | .unreadable cause => s!"Failed to read rule file: {cause}"
  | .malformed => "Failed to parse rule TOML: the text does not describe a rule set"
  | .emptyRule index => s!"rule {index} has no action"
  | .invalidClass index name => s!"rule {index}: '{name}' is not a single class name"

def ofFault (index : Nat) : Rule.Fault → Error
  | .noAction => .emptyRule index
  | .invalidClass name => .invalidClass index name

/-- the first fault of rules that are numbered from `index` -/
def checkFrom (index : Nat) : List Rule → Except Error Unit
  | [] => .ok ()
  | r :: rs =>
    match r.check with
    | .error e => .error (ofFault index e)
    | .ok () => checkFrom (index + 1) rs

/-- a rule set without a name -/
def ofRules (rules : List Rule) : Except Error RuleSet :=
  (checkFrom 0 rules).map fun _ => ⟨none, none, rules⟩

/-! ## application -/

/-- the first answer only -/
def firstOnly {α : Type} : List (Option α) → List (Option α)
  | [] => []
  | none :: r => none :: firstOnly r
  | some a :: r => some a :: r.map fun _ => none

/-- the answers of all rules that change a part, in the places of the rules -/
def answers (rules : List Rule) (part : Part) : List (Option String) :=
  let all := rules.map fun r => r.answer part
  if part.isTag then all else firstOnly all

/-- the texts one after the other, if there are any -/
def joined (texts : List (Option String)) : Option String :=
  if texts.all Option.isNone then none else some (String.join (texts.filterMap id))

/-- one more hit for each rule with an answer -/
def countHits (hits : List Nat) (texts : List (Option String)) : List Nat :=
  hits.zipWith (fun n t => if t.isSome then n + 1 else n) texts

def noHits (rules : List Rule) : List Nat := rules.map fun _ => 0

/-- the instruction of a list of rules; its state counts the hits of each rule in the run -/
def instruction {β : Type} (rules : List Rule) : Instruction (List Nat) β where
  replace part _ := do
    let texts := answers rules part
    modify fun hits => countHits hits texts
    pure (joined texts)
  event e := if e = .start then set (noHits rules) else pure ()

end RuleSet

/-- the numbers of the rules without a hit -/
def unused (hits : List Nat) : List Nat :=
  hits.zipIdx.filterMap fun p => if p.1 = 0 then some p.2 else none

end Stencil
