import Stencil.Proofs.Run.Bound
import Stencil.Rule.Set

/-!
# Runs of rule sets

The hooks of a rule set never fail, so that a run gets as far as its plan can be followed at all.

* `tally`             the hits of the rules after a call;
* `transform_rules`   a run in terms of the plan: its failure, its trace and its hits.
-/

namespace Stencil

open Stencil.Markup

variable {β : Type}

def tally (rules : List Rule) (hits : List Nat) : Call β → List Nat
  | .event .start => RuleSet.noHits rules
  | .replace part _ => RuleSet.countHits hits (RuleSet.answers rules part)
  | _ => hits

theorem run_perform_rules (rules : List Rule) (c : Call β) (hits : List Nat) :
    ((RuleSet.instruction rules).perform c).run.run hits = (.ok (), tally rules hits c) := by
  cases c with
  | event e => cases e <;> rfl
  | analyze tag c => rfl
  | replace part c => rfl
  | substitute c => rfl

/-- the result of a run fails as its plan does, and the trace and the hits follow the plan -/
theorem transform_rules (rules : List Rule) (g : Graph β) (globals : Registry)
    (hits : List Nat) :
    ∃ result, transform (RuleSet.instruction rules) g globals hits =
        (result, (presented g globals).foldl (tally rules) (RuleSet.noHits rules)) ∧
      transform (RuleSet.instruction rules).traced g globals (hits, []) =
        (result, (presented g globals).foldl (tally rules) (RuleSet.noHits rules),
          .event .start :: (presented g globals ++ [.event .finish])) ∧
      (result.map fun _ => ()) = forM (plan g globals) Step.bound := by
  obtain ⟨result, after, rfl, hrun, htraced, hresult⟩ :=
    transform_of_sure (fun c hits => run_perform_rules rules c hits) g globals hits
  exact ⟨result, hrun, htraced, hresult⟩

end Stencil
