import Mathlib.Logic.Relation
import Mathlib.Data.List.Nodup
import Stencil.Proofs.Component.Forest

/-!
# What an exploration visits

`s.Reaches a b` says that links lead from `a` to `b` in any number of steps, none included.
`s.seenAfter seen todo` lists the ids that are seen when `todo` is explored, the old ones first.

* `nodup_seenAfter`           no id is visited twice, and none that is seen already;
* `closed_seenAfter`          the links of a visited id lead to ids that are seen in the end;
* `mem_ids_explore_outside`   the visited ids are those that a starting point reaches past the
                              ids that are seen already;
* `mem_ids_explore`           from nothing seen, they are those that a starting point reaches;
* `mem_ids_spanning`          the same for one starting point.
-/

namespace Stencil

namespace Store

variable {β : Type} (s : Store β)

/-! ## reachability -/

/-- `b` is a child of `a` -/
def Links (a b : Nat) : Prop := ∃ tag, (tag, b) ∈ s.links a

def Reaches : Nat → Nat → Prop := Relation.ReflTransGen s.Links

theorem mem_links {s : Store β} {id b : Nat} {tag : String} :
    (tag, b) ∈ s.links id ↔ ∃ c, s.get? id = some c ∧ (tag, b) ∈ c.children.entries := by
  unfold links
  cases s.get? id with
  | none => simp
  | some c => simp

theorem links_iff_steps {a b : Nat} : s.Links a b ↔ ∃ tag, (tag, b) ∈ s.steps a := by
  constructor
  · intro h
    obtain ⟨tag, h⟩ := h
    exact ⟨some tag, List.mem_map.mpr ⟨(tag, b), h, rfl⟩⟩
  · intro h
    obtain ⟨tag, h⟩ := h
    obtain ⟨e, he, heq⟩ := List.mem_map.mp h
    obtain ⟨_, rfl⟩ := Prod.mk.inj heq
    exact ⟨e.1, he⟩

/-! ## one exploration, step by step -/

/-- the ids that are seen after an exploration, the old ones first -/
def seenAfter (seen : List Nat) (todo : List (Option String × Nat)) : List Nat :=
  seen ++ (s.explore seen todo).ids

theorem seenAfter_nil (seen : List Nat) : s.seenAfter seen [] = seen := by
  rw [seenAfter, explore_nil, Forest.ids_nil, List.append_nil]

theorem seenAfter_of_mem {seen : List Nat} {id : Nat} (h : id ∈ seen) (tag : Option String)
    (todo : List (Option String × Nat)) :
    s.seenAfter seen ((tag, id) :: todo) = s.seenAfter seen todo := by
  rw [seenAfter, s.explore_cons_of_mem h, seenAfter]

theorem append_ids_below (seen : List Nat) (id : Nat) :
    seen ++ (id :: (s.explore (seen ++ [id]) (s.steps id)).ids) =
      s.seenAfter (seen ++ [id]) (s.steps id) := by
  rw [seenAfter, List.append_assoc]
  rfl

/-- a new id is seen with all that is found below it, and then the rest is explored -/
theorem seenAfter_of_not_mem {seen : List Nat} {id : Nat} (h : id ∉ seen) (tag : Option String)
    (todo : List (Option String × Nat)) :
    s.seenAfter seen ((tag, id) :: todo) =
      s.seenAfter (s.seenAfter (seen ++ [id]) (s.steps id)) todo := by
  have hb := s.append_ids_below seen id
  rw [seenAfter, s.explore_cons_of_not_mem h, Forest.ids_node, hb, ← List.cons_append,
    ← List.append_assoc, hb]
  rfl

/-- induction along an exploration: a known id is skipped, a new one is followed first -/
theorem explore_induction {P : List Nat → List (Option String × Nat) → Prop}
    (nil : ∀ seen, P seen [])
    (known : ∀ seen tag id todo, id ∈ seen → P seen todo → P seen ((tag, id) :: todo))
    (fresh : ∀ seen tag id todo, id ∉ seen → P (seen ++ [id]) (s.steps id) →
      P (s.seenAfter (seen ++ [id]) (s.steps id)) todo → P seen ((tag, id) :: todo))
    (seen : List Nat) (todo : List (Option String × Nat)) : P seen todo := by
  induction seen, todo using Store.explore.induct s with
  | case1 seen => exact nil seen
  | case2 seen tag id todo hid ih => exact known seen tag id todo hid ih
  | case3 seen tag id todo hid _ ihBelow ihBeside =>
    rw [append_ids_below] at ihBeside
    exact fresh seen tag id todo hid ihBelow ihBeside

theorem subset_seenAfter {seen : List Nat} (todo : List (Option String × Nat)) {a : Nat}
    (h : a ∈ seen) : a ∈ s.seenAfter seen todo :=
  List.mem_append_left _ h

theorem nodup_seenAfter {seen : List Nat} (h : seen.Nodup) (todo : List (Option String × Nat)) :
    (s.seenAfter seen todo).Nodup := by
  induction seen, todo using s.explore_induction with
  | nil seen => rwa [seenAfter_nil]
  | known seen tag id todo hid ih => rw [s.seenAfter_of_mem hid]; exact ih h
  | fresh seen tag id todo hid ihBelow ihBeside =>
    rw [s.seenAfter_of_not_mem hid]
    refine ihBeside (ihBelow ?_)
    rw [List.nodup_append]
    refine ⟨h, List.nodup_singleton id, fun a ha b hb hab => ?_⟩
    rw [List.mem_singleton] at hb
    exact hid (hb ▸ hab ▸ ha)

/-- every starting point is seen in the end -/
theorem start_mem_seenAfter (seen : List Nat) {todo : List (Option String × Nat)}
    {tag : Option String} {id : Nat} (h : (tag, id) ∈ todo) : id ∈ s.seenAfter seen todo := by
  induction seen, todo using s.explore_induction with
  | nil seen => cases h
  | known seen tag' id' todo hid ih =>
    rw [s.seenAfter_of_mem hid]
    rcases List.mem_cons.mp h with heq | h'
    · obtain ⟨_, rfl⟩ := Prod.mk.inj heq
      exact s.subset_seenAfter todo hid
    · exact ih h'
  | fresh seen tag' id' todo hid ihBelow ihBeside =>
    rw [s.seenAfter_of_not_mem hid]
    rcases List.mem_cons.mp h with heq | h'
    · obtain ⟨_, rfl⟩ := Prod.mk.inj heq
      exact s.subset_seenAfter _ (s.subset_seenAfter _ (by simp))
    · exact ihBeside h'

/-- the links of a visited id lead to ids that are seen in the end -/
theorem closed_seenAfter {seen : List Nat} {todo : List (Option String × Nat)} {a b : Nat}
    (ha : a ∈ s.seenAfter seen todo) (hseen : a ∉ seen) (hab : s.Links a b) :
    b ∈ s.seenAfter seen todo := by
  induction seen, todo using s.explore_induction with
  | nil seen => rw [seenAfter_nil] at ha; exact absurd ha hseen
  | known seen tag id todo hid ih =>
    rw [s.seenAfter_of_mem hid] at ha ⊢
    exact ih ha hseen
  | fresh seen tag id todo hid ihBelow ihBeside =>
    rw [s.seenAfter_of_not_mem hid] at ha ⊢
    by_cases hbelow : a ∈ s.seenAfter (seen ++ [id]) (s.steps id)
    · apply s.subset_seenAfter
      by_cases haid : a = id
      · obtain ⟨tag', ht⟩ := s.links_iff_steps.mp hab
        exact s.start_mem_seenAfter _ (haid ▸ ht)
      · exact ihBelow hbelow (by simp [hseen, haid])
    · exact ihBeside ha hbelow

/-! ## explorations next to what is seen already -/

/-- links lead from `a` to `b` past the ids that are seen, both ends included -/
def ReachesOutside (seen : List Nat) (a b : Nat) : Prop :=
  a ∉ seen ∧ Relation.ReflTransGen (fun x y => s.Links x y ∧ y ∉ seen) a b

variable {s} in
theorem ReachesOutside.anti {seen more : List Nat} {a b : Nat} (hle : ∀ x ∈ seen, x ∈ more)
    (h : s.ReachesOutside more a b) : s.ReachesOutside seen a b := by
  refine ⟨fun ha => h.1 (hle a ha), Relation.ReflTransGen.mono ?_ _ _ h.2⟩
  exact fun _ y hxy => ⟨hxy.1, fun hy => hxy.2 (hle y hy)⟩

theorem reachesOutside_nil_iff {a b : Nat} : s.ReachesOutside [] a b ↔ s.Reaches a b := by
  simp only [ReachesOutside, List.not_mem_nil, not_false_eq_true, and_true, true_and]
  exact Iff.rfl

/-- what is visited is reached from a starting point past the ids that were seen before -/
theorem reachesOutside_of_mem_ids {seen : List Nat} {todo : List (Option String × Nat)} {a : Nat}
    (ha : a ∈ (s.explore seen todo).ids) : ∃ start ∈ todo, s.ReachesOutside seen start.2 a := by
  induction seen, todo using s.explore_induction with
  | nil seen =>
    rw [s.explore_nil, Forest.ids_nil] at ha
    cases ha
  | known seen tag id todo hid ih =>
    rw [s.explore_cons_of_mem hid] at ha
    obtain ⟨start, hs, hr⟩ := ih ha
    exact ⟨start, List.mem_cons_of_mem _ hs, hr⟩
  | fresh seen tag id todo hid ihBelow ihBeside =>
    rw [s.explore_cons_of_not_mem hid, s.append_ids_below, Forest.ids_node] at ha
    rcases List.mem_cons.mp ha with rfl | ha
    · exact ⟨(tag, a), List.mem_cons_self .., hid, .refl⟩
    · rcases List.mem_append.mp ha with ha | ha
      · obtain ⟨⟨tag', b⟩, hb, hr⟩ := ihBelow ha
        have hlink : s.Links id b := s.links_iff_steps.mpr ⟨tag', hb⟩
        have hr := hr.anti fun x hx => List.mem_append_left [id] hx
        exact ⟨(tag, id), List.mem_cons_self .., hid, .head ⟨hlink, hr.1⟩ hr.2⟩
      · obtain ⟨start, hs, hr⟩ := ihBeside ha
        refine ⟨start, List.mem_cons_of_mem _ hs, hr.anti fun x hx => ?_⟩
        exact s.subset_seenAfter _ (List.mem_append_left [id] hx)

theorem mem_ids_explore_outside {seen : List Nat} {todo : List (Option String × Nat)} {a : Nat} :
    a ∈ (s.explore seen todo).ids ↔ ∃ start ∈ todo, s.ReachesOutside seen start.2 a := by
  constructor
  · exact s.reachesOutside_of_mem_ids
  · rintro ⟨⟨tag, id⟩, hs, hid, hr⟩
    have hseen : a ∈ s.seenAfter seen todo ∧ a ∉ seen := by
      induction hr with
      | refl => exact ⟨s.start_mem_seenAfter seen hs, hid⟩
      | tail _ hlink ih => exact ⟨s.closed_seenAfter ih.1 ih.2 hlink.1, hlink.2⟩
    exact (List.mem_append.mp hseen.1).resolve_left hseen.2

/-- what is seen in the end was seen before, or a starting point reaches it -/
theorem reaches_of_mem_seenAfter {seen : List Nat} {todo : List (Option String × Nat)} {a : Nat}
    (ha : a ∈ s.seenAfter seen todo) : a ∈ seen ∨ ∃ start ∈ todo, s.Reaches start.2 a := by
  refine (List.mem_append.mp ha).imp_right fun ha => ?_
  obtain ⟨start, hs, hr⟩ := s.reachesOutside_of_mem_ids ha
  exact ⟨start, hs, s.reachesOutside_nil_iff.mp (hr.anti (by simp))⟩

/-! ## explorations from nothing -/

theorem ids_explore (todo : List (Option String × Nat)) :
    (s.explore [] todo).ids = s.seenAfter [] todo := rfl

theorem mem_ids_explore {todo : List (Option String × Nat)} {a : Nat} :
    a ∈ (s.explore [] todo).ids ↔ ∃ start ∈ todo, s.Reaches start.2 a := by
  simp only [mem_ids_explore_outside, reachesOutside_nil_iff]

theorem ids_spanning (id : Nat) : (s.spanning id).ids = s.seenAfter [] [(none, id)] := rfl

theorem nodup_ids_spanning (id : Nat) : (s.spanning id).ids.Nodup :=
  s.nodup_seenAfter List.nodup_nil _

theorem mem_ids_spanning {id a : Nat} : a ∈ (s.spanning id).ids ↔ s.Reaches id a := by
  rw [spanning, mem_ids_explore]
  simp

end Store

end Stencil
