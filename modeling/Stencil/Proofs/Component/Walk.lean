import Stencil.Proofs.Component.Reach

/-!
# Walks

`Walk s met todo after` says how ids are met depth first: an id that was met before is passed by,
and any other one is met and left through its children, in the order in which they are declared.
`after` lists the ids in the order in which they are met, those of `met` first.  `Spans` says the
same of a forest, which also has the tags.

* `spans_explore`    an exploration spans this forest;
* `Spans.unique`     there is no other one;
* `Spans.step_mem`   a visit comes from a starting point, or from a link of a visited id;
* `explore_append`   an exploration goes on where another one has ended;
* `walk_seenAfter`   an exploration meets ids in this order;
* `Walk.unique`      there is no other one;
* `Walk.congr`       it depends on the links alone.
-/

namespace Stencil

variable {β : Type}

/-! ## forests -/

/-- the first visits from `todo` when the ids `met` are visited already, each id with the tag that
leads to it first and with the first visits from its children below it -/
inductive Spans (s : Store β) : List Nat → List (Option String × Nat) → Forest → Prop
  | done (met : List Nat) : Spans s met [] .nil
  | known {met : List Nat} {todo : List (Option String × Nat)} {f : Forest} {tag : Option String}
      {id : Nat} (h : id ∈ met) (hr : Spans s met todo f) : Spans s met ((tag, id) :: todo) f
  | fresh {met : List Nat} {todo : List (Option String × Nat)} {below beside : Forest}
      {tag : Option String} {id : Nat} (h : id ∉ met)
      (hb : Spans s (met ++ [id]) (s.steps id) below)
      (hr : Spans s (met ++ id :: below.ids) todo beside) :
      Spans s met ((tag, id) :: todo) (.node tag id below beside)

theorem spans_explore (s : Store β) (seen : List Nat) (todo : List (Option String × Nat)) :
    Spans s seen todo (s.explore seen todo) := by
  induction seen, todo using s.explore_induction with
  | nil seen =>
    rw [s.explore_nil]
    exact .done seen
  | known seen tag id todo hid ih =>
    rw [s.explore_cons_of_mem hid]
    exact .known hid ih
  | fresh seen tag id todo hid ihBelow ihBeside =>
    rw [s.explore_cons_of_not_mem hid]
    rw [← s.append_ids_below] at ihBeside
    exact .fresh hid ihBelow ihBeside

theorem Spans.unique {s : Store β} {met : List Nat} {todo : List (Option String × Nat)}
    {f f' : Forest} (h : Spans s met todo f) (h' : Spans s met todo f') : f = f' := by
  induction h generalizing f' with
  | done met =>
    cases h'
    rfl
  | known hid _ ih =>
    cases h' with
    | known _ hr => exact ih hr
    | fresh hnot _ _ => exact absurd hid hnot
  | fresh hnot _ _ ihb ihr =>
    cases h' with
    | known hid _ => exact absurd hid hnot
    | fresh _ hb hr =>
      rw [← ihb hb] at hr ⊢
      rw [ihr hr]

/-- a visit comes from a starting point, or from a link of an id that is visited -/
theorem Spans.step_mem {s : Store β} {met : List Nat} {todo : List (Option String × Nat)}
    {f : Forest} (h : Spans s met todo f) :
    ∀ v ∈ f.visits, v ∈ todo ∨ ∃ a ∈ f.ids, v ∈ s.steps a := by
  induction h with
  | done met => simp [Forest.visits]
  | known _ _ ih =>
    intro v hv
    rcases ih v hv with h | h
    · exact .inl (List.mem_cons_of_mem _ h)
    · exact .inr h
  | @fresh met todo below beside tag id _ _ _ ihb ihr =>
    intro v hv
    rw [Forest.ids_node]
    rcases List.mem_cons.mp hv with rfl | hv
    · exact .inl (List.mem_cons_self ..)
    · rcases List.mem_append.mp hv with hv | hv
      · rcases ihb v hv with h | ⟨a, ha, h⟩
        · exact .inr ⟨id, List.mem_cons_self .., h⟩
        · exact .inr ⟨a, List.mem_cons_of_mem _ (List.mem_append_left _ ha), h⟩
      · rcases ihr v hv with h | ⟨a, ha, h⟩
        · exact .inl (List.mem_cons_of_mem _ h)
        · exact .inr ⟨a, List.mem_cons_of_mem _ (List.mem_append_right _ ha), h⟩

/-- an exploration goes on from the ids that another one has seen -/
theorem explore_append (s : Store β) (seen : List Nat) (l r : List (Option String × Nat)) :
    (s.explore seen (l ++ r)).visits =
      (s.explore seen l).visits ++ (s.explore (s.seenAfter seen l) r).visits := by
  induction seen, l using s.explore_induction with
  | nil seen =>
    rw [s.explore_nil, s.seenAfter_nil]
    rfl
  | known seen tag id todo hid ih =>
    rw [List.cons_append, s.explore_cons_of_mem hid, s.explore_cons_of_mem hid,
      s.seenAfter_of_mem hid, ih]
  | fresh seen tag id todo hid _ ih =>
    rw [List.cons_append, s.explore_cons_of_not_mem hid, s.explore_cons_of_not_mem hid,
      s.append_ids_below, s.seenAfter_of_not_mem hid, Forest.visits, Forest.visits, ih]
    simp only [List.cons_append, List.append_assoc]

theorem seenAfter_append (s : Store β) (seen : List Nat) (l r : List (Option String × Nat)) :
    s.seenAfter seen (l ++ r) = s.seenAfter (s.seenAfter seen l) r := by
  rw [Store.seenAfter, Forest.ids, explore_append, List.map_append, ← List.append_assoc]
  rfl

/-! ## lists of ids -/

inductive Walk (s : Store β) : List Nat → List Nat → List Nat → Prop
  | done (met : List Nat) : Walk s met [] met
  | known {met todo after : List Nat} {id : Nat} (h : id ∈ met) (hr : Walk s met todo after) :
      Walk s met (id :: todo) after
  | fresh {met todo below after : List Nat} {id : Nat} (h : id ∉ met)
      (hb : Walk s (met ++ [id]) ((s.links id).map Prod.snd) below)
      (hr : Walk s below todo after) : Walk s met (id :: todo) after

theorem map_snd_steps (s : Store β) (id : Nat) :
    (s.steps id).map Prod.snd = (s.links id).map Prod.snd := by
  rw [Store.steps, List.map_map]
  rfl

theorem Spans.walk {s : Store β} {met : List Nat} {todo : List (Option String × Nat)} {f : Forest}
    (h : Spans s met todo f) : Walk s met (todo.map Prod.snd) (met ++ f.ids) := by
  induction h with
  | done met =>
    rw [Forest.ids_nil, List.append_nil]
    exact .done met
  | known hid _ ih => exact .known hid ih
  | fresh hid _ _ ihb ihr =>
    rw [map_snd_steps] at ihb
    rw [List.append_assoc, List.singleton_append] at ihb
    rw [Forest.ids_node, ← List.cons_append, ← List.append_assoc]
    exact .fresh hid ihb ihr

theorem walk_seenAfter (s : Store β) (seen : List Nat) (todo : List (Option String × Nat)) :
    Walk s seen (todo.map Prod.snd) (s.seenAfter seen todo) :=
  (spans_explore s seen todo).walk

theorem Walk.unique {s : Store β} {met todo after after' : List Nat} (h : Walk s met todo after)
    (h' : Walk s met todo after') : after = after' := by
  induction h generalizing after' with
  | done met =>
    cases h'
    rfl
  | known hid _ ih =>
    cases h' with
    | known _ hr => exact ih hr
    | fresh hnot _ _ => exact absurd hid hnot
  | fresh hnot _ _ ihb ihr =>
    cases h' with
    | known hid _ => exact absurd hid hnot
    | fresh _ hb hr =>
      rw [← ihb hb] at hr
      exact ihr hr

/-- the same components as far as their children are concerned -/
def SameChildren (s s' : Store β) : Prop :=
  ∀ id, (s'.get? id).map Component.children = (s.get? id).map Component.children

theorem SameChildren.links_eq {s s' : Store β} (h : SameChildren s s') (id : Nat) :
    s'.links id = s.links id := by
  have hentries : ∀ t : Store β, t.links id =
      (((t.get? id).map Component.children).map Dict.entries).getD [] := by
    intro t
    rw [Store.links, Option.map_map]
    rfl
  rw [hentries, hentries, h id]

theorem SameChildren.get?_eq_none_iff {s s' : Store β} (h : SameChildren s s') (id : Nat) :
    s'.get? id = none ↔ s.get? id = none := by
  rw [← Option.map_eq_none_iff (f := Component.children), h id, Option.map_eq_none_iff]

theorem Walk.congr {s s' : Store β} (hs : SameChildren s s') {met todo after : List Nat}
    (h : Walk s met todo after) : Walk s' met todo after := by
  induction h with
  | done met => exact .done met
  | known hid _ ih => exact .known hid ih
  | fresh hnot _ _ ihb ihr =>
    rw [← hs.links_eq] at ihb
    exact .fresh hnot ihb ihr

end Stencil
