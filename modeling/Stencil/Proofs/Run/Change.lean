import Stencil.Proofs.Component.Walk
import Stencil.Proofs.Run.Step

/-!
# The changes of a run

`changes` makes the hook calls of the second phase for the components of a forest, and keeps what
they answer, component by component in the order of the first visits.

* `Change`               what is found for one component;
* `changes`              the same for a forest;
* `changes_explore_cons` the changes of an exploration, one starting point after the other;
* `run_changes_ok`       what the entries of such a list are.
-/

namespace Stencil

open Stencil.Markup

variable {σ β : Type}

/-- what a run has found for one component: its edited template and the base that takes the place
of its own, if one does -/
structure Change (β : Type) where
  id : Nat
  original : Component β
  template : String
  base : Option β

/-- the component of the new graph, when `rename` gives the new id for an old one -/
def Change.component (ch : Change β) (rename : Nat → Nat) : Component β :=
  ⟨ch.template, ch.original.children.map rename, ch.base.getD ch.original.base⟩

def Run.component (s : Store β) (id : Nat) : Run σ (Component β) :=
  match s.get? id with
  | some c => pure c
  | none => throw (.unknownComponent id)

def changes (i : Instruction σ β) (s : Store β) : Forest → Run σ (List (Change β))
  | .nil => pure []
  | .node _ id below beside => do
    let c ← Run.component s id
    let template ← ExceptT.adapt (EditError.toRunError id) (editTemplate i c c.template)
    let inner ← changes i s below
    let base ← Run.hook (i.substitute c)
    let outer ← changes i s beside
    pure (⟨id, c, template, base⟩ :: (inner ++ outer))

/-- the changes of what the first starting point leads to come first -/
theorem changes_explore_cons (i : Instruction σ β) (s : Store β) (seen : List Nat)
    (tag : Option String) (id : Nat) (todo : List (Option String × Nat)) :
    changes i s (s.explore seen ((tag, id) :: todo)) = (do
      let first ← changes i s (s.explore seen [(tag, id)])
      let rest ← changes i s (s.explore (s.seenAfter seen [(tag, id)]) todo)
      pure (first ++ rest)) := by
  by_cases hid : id ∈ seen
  · rw [s.explore_cons_of_mem hid, s.explore_cons_of_mem hid, s.seenAfter_of_mem hid, s.explore_nil,
      s.seenAfter_nil, changes, pure_bind]
    simp only [List.nil_append, bind_pure]
  · rw [s.explore_cons_of_not_mem hid, s.explore_cons_of_not_mem hid, s.append_ids_below,
      s.seenAfter_of_not_mem hid, s.seenAfter_nil, s.explore_nil, changes, changes]
    simp only [changes, bind_assoc, pure_bind, List.append_nil, List.cons_append]

theorem run_component_ok {s : Store β} {id : Nat} {c : Component β} {st t : σ}
    (h : (Run.component s id : Run σ _).run.run st = (.ok c, t)) : s.get? id = some c ∧ st = t := by
  unfold Run.component at h
  cases hc : s.get? id with
  | none => rw [hc] at h; cases h
  | some d => rw [hc] at h; cases h; exact ⟨rfl, rfl⟩

/-- the answers in the entry are those that the hooks gave for the component -/
structure Change.Answered (i : Instruction σ β) (s : Store β) (ch : Change β) : Prop where
  original : s.get? ch.id = some ch.original
  template : ∃ st t, (editTemplate i ch.original ch.original.template).run.run st =
    (.ok ch.template, t)
  base : ∃ st t, (i.substitute ch.original).run.run st = (.ok ch.base, t)

theorem run_changes_ok {i : Instruction σ β} {s : Store β} {f : Forest} {log : List (Change β)}
    {st t : σ} (h : (changes i s f).run.run st = (.ok log, t)) :
    log.map Change.id = f.ids ∧ ∀ ch ∈ log, ch.Answered i s := by
  induction f generalizing log st t with
  | nil =>
    cases h
    exact ⟨rfl, fun ch hch => by cases hch⟩
  | node tag id below beside ihBelow ihBeside =>
    obtain ⟨c, t₁, hc, h₁⟩ := run_bind_ok h
    obtain ⟨template, t₂, htemplate, h₂⟩ := run_bind_ok h₁
    obtain ⟨inner, t₃, hinner, h₃⟩ := run_bind_ok h₂
    obtain ⟨base, t₄, hbase, h₄⟩ := run_bind_ok h₃
    obtain ⟨outer, t₅, houter, h₅⟩ := run_bind_ok h₄
    have hid := (run_component_ok hc).1
    obtain ⟨hin, hinAll⟩ := ihBelow hinner
    obtain ⟨hout, houtAll⟩ := ihBeside houter
    cases h₅
    refine ⟨?_, fun ch hch => ?_⟩
    · rw [Forest.ids_node, List.map_cons, List.map_append, hin, hout]
    · rcases List.mem_cons.mp hch with rfl | hch
      · exact ⟨hid, ⟨_, _, run_adapt_ok.mp htemplate⟩, ⟨_, _, run_adapt_ok.mp hbase⟩⟩
      · rcases List.mem_append.mp hch with hch | hch
        · exact hinAll ch hch
        · exact houtAll ch hch

/-- what is made of some changes may rely on their ids -/
theorem map_changes_congr {α : Type} (i : Instruction σ β) (s : Store β) {f : Forest}
    {make make' : List (Change β) → α}
    (h : ∀ log : List (Change β), log.map Change.id = f.ids → make log = make' log) :
    make <$> changes i s f = make' <$> changes i s f := by
  refine run_ext fun st => ?_
  rw [run_map, run_map]
  rcases hlog : (changes i s f).run.run st with ⟨e | log, t⟩
  · rfl
  · show (Except.ok (make log), t) = (Except.ok (make' log), t)
    rw [h log (run_changes_ok hlog).1]

end Stencil
