import Stencil.Proofs.Run.Course
import Stencil.Rule.Set

/-!
# Runs one after the other

A rule set can be used for many runs, and takes the hits of each run along to the next one.  These
are forgotten when the next run starts, also those of a run that has failed halfway.

* `transform_congr_start`   what a run can know of the runs before it;
* `Job`, `RunReport`        what a run is given, and what is known after it;
* `RuleSet.runJobs`         the reports of runs one after the other;
* `runJobs_eq_map`          each of them is the report of a rule set that has not run before.
-/

namespace Stencil

variable {σ β : Type}

/-- a run depends on the state before it only as far as the notice of its start does -/
theorem transform_congr_start {i : Instruction σ β} {s t : σ}
    (h : (i.event .start).run.run s = (i.event .start).run.run t) (g : Graph β)
    (globals : Registry) : transform i g globals s = transform i g globals t := by
  have hstart : (Run.hook (i.event .start)).run.run s = (Run.hook (i.event .start)).run.run t := by
    rw [Run.hook, run_adapt, run_adapt, h]
  rw [transform, transform, run_process, run_process, hstart]

/-! ## sequences -/

/-- a graph and its global components; the bases may be of another type in each job -/
structure Job : Type 1 where
  Base : Type
  graph : Graph Base
  globals : Registry

structure RunReport : Type 1 where
  Base : Type
  result : Except RunError (Graph Base)
  /-- the rules without a hit -/
  unused : List Nat

namespace RuleSet

/-- the report of a run after others that have left `hits`, and the hits that it leaves itself -/
def runJob (rules : List Rule) (hits : List Nat) (job : Job) : RunReport × List Nat :=
  let r := transform (instruction rules) job.graph job.globals hits
  (⟨job.Base, r.1, unused r.2⟩, r.2)

/-- the reports of runs of one rule set, each of which goes on with the hits of the one before -/
def runJobs (rules : List Rule) : List Nat → List Job → List RunReport
  | _, [] => []
  | hits, job :: jobs =>
    let r := runJob rules hits job
    r.1 :: runJobs rules r.2 jobs

theorem runJobs_cons (rules : List Rule) (hits : List Nat) (job : Job) (jobs : List Job) :
    runJobs rules hits (job :: jobs) =
      (runJob rules hits job).1 :: runJobs rules (runJob rules hits job).2 jobs := rfl

theorem run_event_start (rules : List Rule) (hits : List Nat) :
    ((instruction (β := β) rules).event .start).run.run hits = (.ok (), noHits rules) := rfl

/-- the hits of earlier runs are forgotten -/
theorem transform_rules_fresh (rules : List Rule) (g : Graph β) (globals : Registry)
    (hits : List Nat) : transform (instruction rules) g globals hits =
      transform (instruction rules) g globals (noHits rules) := by
  apply transform_congr_start
  rw [run_event_start, run_event_start]

theorem runJob_eq (rules : List Rule) (hits : List Nat) (job : Job) :
    runJob rules hits job = runJob rules (noHits rules) job := by
  rw [runJob, transform_rules_fresh]
  rfl

end RuleSet

/-- Of runs of a rule set, one after the other, each gives the result and leaves the unused rules
that it would with a rule set that has not run before, whatever the runs before it were and whether
they failed or not. -/
theorem runJobs_eq_map (set : RuleSet) (hits : List Nat) (jobs : List Job) :
    RuleSet.runJobs set.rules hits jobs =
      jobs.map fun job => (RuleSet.runJob set.rules (RuleSet.noHits set.rules) job).1 := by
  -- the induction is over all hits that the runs before may have left
  induction jobs generalizing hits with
  | nil => rfl
  | cons job jobs ih => rw [RuleSet.runJobs_cons, RuleSet.runJob_eq, ih, List.map_cons]

end Stencil
