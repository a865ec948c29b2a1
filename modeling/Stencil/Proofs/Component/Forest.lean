import Stencil.Component.Basic

/-!
# Depth-first exploration

`explore` follows child links depth first and visits no id twice.  It answers with the spanning
forest of first visits: a cycle or a shared child is cut at its second encounter.

* `Forest`           first visits, each with the tag that led to it;
* `Forest.ids`       the visited ids in pre-order;
* `Forest.visits`    the same with the tags;
* `Store.explore`    the forest of a list of starting points;
* `Store.spanning`   the forest of one id.
-/

namespace Stencil

/-- a forest: the first tree's root, the forest below that root, and the other trees -/
inductive Forest where
  | nil
  | node (tag : Option String) (id : Nat) (below : Forest) (beside : Forest)
  deriving DecidableEq, Repr

namespace Forest

/-- the visits in pre-order, each with the tag that led to it -/
def visits : Forest → List (Option String × Nat)
  | nil => []
  | node tag id below beside => (tag, id) :: (below.visits ++ beside.visits)

/-- the visited ids in pre-order -/
def ids (f : Forest) : List Nat := f.visits.map Prod.snd

theorem ids_nil : ids nil = [] := rfl

theorem ids_node (tag : Option String) (id : Nat) (below beside : Forest) :
    ids (node tag id below beside) = id :: (below.ids ++ beside.ids) := by
  simp [ids, visits]

end Forest

namespace Store

variable {β : Type} (s : Store β)

/-- the links of a component as starting points -/
def steps (id : Nat) : List (Option String × Nat) := (s.links id).map fun e => (some e.1, e.2)

theorem steps_of_get? {id : Nat} {c : Component β} (h : s.get? id = some c) :
    s.steps id = c.children.entries.map fun e => (some e.1, e.2) := by
  rw [steps, links, h]
  rfl

theorem steps_of_size_le {id : Nat} (h : s.size ≤ id) : s.steps id = [] := by
  simp [steps, links, get?, List.getElem?_eq_none h]

/-- the first visits from a list of starting points, when the ids `seen` are visited already -/
def explore (seen : List Nat) : List (Option String × Nat) → Forest
  | [] => .nil
  | (tag, id) :: todo =>
    if _h : id ∈ seen then explore seen todo
    else
      let below := explore (seen ++ [id]) (s.steps id)
      .node tag id below (explore (seen ++ (id :: below.ids)) todo)
termination_by todo => (s.unseen seen, todo.length)
decreasing_by
  · exact Prod.Lex.right _ (by simp)
  · by_cases hid : id < s.size
    · exact Prod.Lex.left _ _ (s.unseen_concat_lt hid _h)
    · rw [s.steps_of_size_le (Nat.le_of_not_lt hid)]
      rcases Nat.lt_or_eq_of_le (s.unseen_append_le seen [id]) with hlt | heq
      · exact Prod.Lex.left _ _ hlt
      · rw [heq]
        exact Prod.Lex.right _ (by simp)
  · rcases Nat.lt_or_eq_of_le (s.unseen_append_le seen (id :: below.ids)) with hlt | heq
    · exact Prod.Lex.left _ _ hlt
    · rw [heq]
      exact Prod.Lex.right _ (by simp)

/-- the first visits from one id, which no tag leads to -/
def spanning (id : Nat) : Forest := s.explore [] [(none, id)]

theorem explore_nil (seen : List Nat) : s.explore seen [] = .nil := by
  rw [explore]

theorem explore_cons_of_mem {seen : List Nat} {id : Nat} (h : id ∈ seen) (tag : Option String)
    (todo : List (Option String × Nat)) :
    s.explore seen ((tag, id) :: todo) = s.explore seen todo := by
  rw [explore, dif_pos h]

theorem explore_cons_of_not_mem {seen : List Nat} {id : Nat} (h : id ∉ seen) (tag : Option String)
    (todo : List (Option String × Nat)) :
    s.explore seen ((tag, id) :: todo) =
      .node tag id (s.explore (seen ++ [id]) (s.steps id))
        (s.explore (seen ++ (id :: (s.explore (seen ++ [id]) (s.steps id)).ids)) todo) := by
  rw [explore, dif_neg h]

end Store

end Stencil
