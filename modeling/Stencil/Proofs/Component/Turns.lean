import Stencil.Proofs.Component.Walk

/-!
# Entering and leaving

A walk enters an id when it is met, and leaves it when all that is below it has been left.  So the
turns of a walk nest like parentheses.

* `Turn`, `Forest.turns`   the turns of a forest in order;
* `enteredIds_turns`       ids are entered in pre-order;
* `leftIds_turns_perm`     each id that is entered is left as often;
* `Spans.exists_turn`      what is entered and left between the two turns of one id.
-/

namespace Stencil

variable {β : Type}

inductive Turn where
  | enter (id : Nat)
  | leave (id : Nat)
  deriving DecidableEq

def Turn.entered? : Turn → Option Nat
  | .enter id => some id
  | .leave _ => none

def Turn.left? : Turn → Option Nat
  | .enter _ => none
  | .leave id => some id

/-- the ids that are entered, in order -/
def enteredIds (l : List Turn) : List Nat := l.filterMap Turn.entered?

/-- the ids that are left, in order -/
def leftIds (l : List Turn) : List Nat := l.filterMap Turn.left?

section
variable (id : Nat) (l r : List Turn)

theorem enteredIds_append : enteredIds (l ++ r) = enteredIds l ++ enteredIds r :=
  List.filterMap_append
theorem leftIds_append : leftIds (l ++ r) = leftIds l ++ leftIds r := List.filterMap_append

theorem enteredIds_enter : enteredIds (.enter id :: l) = id :: enteredIds l := rfl
theorem enteredIds_leave : enteredIds (.leave id :: l) = enteredIds l := rfl
theorem leftIds_enter : leftIds (.enter id :: l) = leftIds l := rfl
theorem leftIds_leave : leftIds (.leave id :: l) = id :: leftIds l := rfl

end

namespace Forest

def turns : Forest → List Turn
  | nil => []
  | node _ id below beside => .enter id :: (below.turns ++ .leave id :: beside.turns)

theorem enteredIds_turns (f : Forest) : enteredIds f.turns = f.ids := by
  induction f with
  | nil => rfl
  | node tag id below beside ihBelow ihBeside =>
    rw [turns, enteredIds_enter, enteredIds_append, enteredIds_leave, ihBelow, ihBeside, ids_node]

theorem leftIds_turns_perm (f : Forest) : (leftIds f.turns).Perm f.ids := by
  induction f with
  | nil => exact .refl _
  | node tag id below beside ihBelow ihBeside =>
    rw [turns, leftIds_enter, leftIds_append, leftIds_leave, ids_node]
    exact List.perm_middle.trans ((ihBelow.append ihBeside).cons id)

end Forest

/-- between entering and leaving an id come the turns of all that is met first through it -/
theorem Spans.exists_turn {s : Store β} {met : List Nat} {todo : List (Option String × Nat)}
    {f : Forest} (h : Spans s met todo f) {id : Nat} (hid : id ∈ f.ids) :
    ∃ before below after, f.turns = before ++ .enter id :: (below.turns ++ .leave id :: after) ∧
      Spans s (met ++ (enteredIds before ++ [id])) (s.steps id) below := by
  induction h with
  | done met => cases hid
  | known _ _ ih => exact ih hid
  | @fresh met todo below beside tag top hnot hb _ ihb ihr =>
    rw [Forest.ids_node] at hid
    rw [Forest.turns]
    rcases List.mem_cons.mp hid with rfl | hid
    · exact ⟨[], below, beside.turns, rfl, hb⟩
    · rcases List.mem_append.mp hid with hid | hid
      · obtain ⟨before, inner, after, hturns, hspans⟩ := ihb hid
        refine ⟨.enter top :: before, inner, after ++ .leave top :: beside.turns, ?_, ?_⟩
        · rw [hturns]
          simp only [List.cons_append, List.append_assoc]
        · rw [enteredIds_enter]
          rwa [List.append_assoc] at hspans
      · obtain ⟨before, inner, after, hturns, hspans⟩ := ihr hid
        refine ⟨.enter top :: (below.turns ++ .leave top :: before), inner, after, ?_, ?_⟩
        · rw [hturns]
          simp only [List.cons_append, List.append_assoc]
        · rw [enteredIds_enter, enteredIds_append, enteredIds_leave, below.enteredIds_turns,
            List.cons_append, List.append_assoc]
          rwa [List.append_assoc, List.cons_append] at hspans

end Stencil
