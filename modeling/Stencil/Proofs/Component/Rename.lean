import Mathlib.Data.Set.Function
import Stencil.Proofs.Component.Walk

/-!
# Other ids

A graph whose ids are given other ones is explored in the same way: which ids are met, and in which
order, is decided by links alone.

* `Forest.map`            a forest with other ids;
* `Renames`               a store that has the links of another one under other ids;
* `Renames.explore_eq`    what is explored of it is the forest of the other one, with these ids;
* `Renames.seenAfter_eq`  the same for the ids that are seen in the end;
* `renames_idxOf`         places in a list of ids as new ids.
-/

namespace Stencil

/-! ## forests -/

namespace Forest

def map (f : Nat → Nat) : Forest → Forest
  | nil => nil
  | node tag id below beside => node tag (f id) (below.map f) (beside.map f)

theorem ids_map (f : Nat → Nat) (forest : Forest) : (forest.map f).ids = forest.ids.map f := by
  induction forest with
  | nil => rfl
  | node tag id below beside ihBelow ihBeside =>
    rw [map, ids_node, ids_node, ihBelow, ihBeside, List.map_cons, List.map_append]

end Forest

/-! ## renamed links -/

variable {β γ : Type}

/-- `t` has the links that `s` has from the ids of `p`, with the ids that `f` gives for them; no
link leads out of `p`, and `f` does not give one id twice -/
structure Renames (f : Nat → Nat) (p : Nat → Prop) (s : Store β) (t : Store γ) : Prop where
  injective : Set.InjOn f {a | p a}
  closed : ∀ a, p a → ∀ b, s.Links a b → p b
  links : ∀ a, p a → t.links (f a) = (s.links a).map (Prod.map id f)

variable {f : Nat → Nat} {p : Nat → Prop} {s : Store β} {t : Store γ}

theorem Renames.of_reaches (h : Renames f p s t) {a b : Nat} (ha : p a) (hab : s.Reaches a b) :
    p b := by
  induction hab with
  | refl => exact ha
  | tail _ hlink ih => exact h.closed _ ih _ hlink

theorem Renames.steps_eq (h : Renames f p s t) {a : Nat} (ha : p a) :
    t.steps (f a) = (s.steps a).map (Prod.map id f) := by
  rw [Store.steps, h.links a ha, List.map_map, Store.steps, List.map_map]
  rfl

theorem Renames.steps_mem (h : Renames f p s t) {a : Nat} (ha : p a) :
    ∀ start ∈ s.steps a, p start.2 :=
  fun start hs => h.closed a ha start.2 (s.links_iff_steps.mpr ⟨start.1, hs⟩)

theorem Renames.mem_map_iff (h : Renames f p s t) {l : List Nat} (hl : ∀ a ∈ l, p a) {a : Nat}
    (ha : p a) : f a ∈ l.map f ↔ a ∈ l := by
  constructor
  · intro hmem
    obtain ⟨b, hb, hab⟩ := List.mem_map.mp hmem
    exact h.injective (hl b hb) ha hab ▸ hb
  · exact List.mem_map_of_mem

theorem Renames.seenAfter_mem (h : Renames f p s t) {seen : List Nat}
    {todo : List (Option String × Nat)} (hseen : ∀ a ∈ seen, p a) (htodo : ∀ e ∈ todo, p e.2) :
    ∀ a ∈ s.seenAfter seen todo, p a := by
  intro a ha
  rcases s.reaches_of_mem_seenAfter ha with ha | ⟨start, hs, hr⟩
  · exact hseen a ha
  · exact h.of_reaches (htodo start hs) hr

theorem Renames.explore_eq (h : Renames f p s t) {seen : List Nat}
    {todo : List (Option String × Nat)} (hseen : ∀ a ∈ seen, p a) (htodo : ∀ e ∈ todo, p e.2) :
    t.explore (seen.map f) (todo.map (Prod.map id f)) = (s.explore seen todo).map f := by
  induction seen, todo using s.explore_induction with
  | nil seen =>
    rw [List.map_nil, t.explore_nil, s.explore_nil, Forest.map]
  | known seen tag a todo ha ih =>
    rw [List.forall_mem_cons] at htodo
    have ha' : f a ∈ seen.map f := List.mem_map_of_mem ha
    rw [List.map_cons, Prod.map_apply, t.explore_cons_of_mem ha', s.explore_cons_of_mem ha]
    exact ih hseen htodo.2
  | fresh seen tag a todo ha ihBelow ihBeside =>
    rw [List.forall_mem_cons] at htodo
    have hpa : p a := htodo.1
    have ha' : f a ∉ seen.map f := fun hmem => ha ((h.mem_map_iff hseen hpa).mp hmem)
    have hnext : ∀ b ∈ seen ++ [a], p b := by
      rw [List.forall_mem_append, List.forall_mem_singleton]
      exact ⟨hseen, hpa⟩
    have hbelow : t.explore (seen.map f ++ [f a]) (t.steps (f a)) =
        (s.explore (seen ++ [a]) (s.steps a)).map f := by
      rw [h.steps_eq hpa, ← ihBelow hnext (h.steps_mem hpa), List.map_append, List.map_singleton]
    -- the ids that are seen by then are renamed as well
    have hafter : t.seenAfter (seen.map f ++ [f a]) (t.steps (f a)) =
        (s.seenAfter (seen ++ [a]) (s.steps a)).map f := by
      rw [Store.seenAfter, hbelow, Forest.ids_map, Store.seenAfter, List.map_append,
        List.map_append, List.map_singleton]
    have hbeside := ihBeside (h.seenAfter_mem hnext (h.steps_mem hpa)) htodo.2
    rw [List.map_cons, Prod.map_apply, t.explore_cons_of_not_mem ha', t.append_ids_below,
      s.explore_cons_of_not_mem ha, s.append_ids_below, Forest.map, hbelow, hafter, hbeside]
    rfl

theorem Renames.seenAfter_eq (h : Renames f p s t) {seen : List Nat}
    {todo : List (Option String × Nat)} (hseen : ∀ a ∈ seen, p a) (htodo : ∀ e ∈ todo, p e.2) :
    t.seenAfter (seen.map f) (todo.map (Prod.map id f)) = (s.seenAfter seen todo).map f := by
  rw [Store.seenAfter, h.explore_eq hseen htodo, Forest.ids_map, Store.seenAfter, List.map_append]

theorem Renames.spanning_eq (h : Renames f p s t) {root : Nat} (hroot : p root) :
    t.spanning (f root) = (s.spanning root).map f := by
  have hseen : ∀ a ∈ ([] : List Nat), p a := by simp
  have htodo : ∀ e ∈ [((none : Option String), root)], p e.2 := List.forall_mem_singleton.mpr hroot
  exact h.explore_eq hseen htodo

/-! ## places as ids -/

theorem map_idxOf {α : Type} [DecidableEq α] {l : List α} (h : l.Nodup) :
    l.map l.idxOf = List.range l.length := by
  refine List.ext_getElem (by rw [List.length_map, List.length_range]) fun n hn _ => ?_
  rw [List.length_map] at hn
  rw [List.getElem_map, List.getElem_range, h.idxOf_getElem n hn]

/-- the place of an element stays the same if no two elements become one -/
theorem idxOf_map {α γ : Type} [DecidableEq α] [DecidableEq γ] {f : α → γ} {l : List α} {a : α}
    (hf : Set.InjOn f {b | b ∈ l}) (ha : a ∈ l) : (l.map f).idxOf (f a) = l.idxOf a := by
  induction l with
  | nil => cases ha
  | cons b l ih =>
    rw [List.map_cons]
    by_cases hab : b = a
    · rw [hab, List.idxOf_cons_self, List.idxOf_cons_self]
    · have hmem : a ∈ l := (List.mem_cons.mp ha).resolve_left (Ne.symm hab)
      have hne : f b ≠ f a := fun h => hab (hf (List.mem_cons_self ..) ha h)
      have hf' : Set.InjOn f {c | c ∈ l} := hf.mono fun c hc => List.mem_cons_of_mem _ hc
      rw [List.idxOf_cons_ne _ hne, List.idxOf_cons_ne _ hab, ih hf' hmem]

/-- links that become places in a list are renamed links, if none leads out of the list -/
theorem renames_idxOf {ids : List Nat} (hclosed : ∀ a ∈ ids, ∀ b, s.Links a b → b ∈ ids)
    (hlinks : ∀ a ∈ ids, t.links (ids.idxOf a) = (s.links a).map (Prod.map id ids.idxOf)) :
    Renames ids.idxOf (· ∈ ids) s t where
  injective := fun _ ha _ _ hab => (List.idxOf_inj ha).mp hab
  closed := hclosed
  links := hlinks

end Stencil
