import Mathlib.Data.List.Induction
import Mathlib.Data.List.Nodup

/-!
# First and last occurrences

What comes first and what comes last in a list, for lists that grow at their end.

* `IsFirst`                  the first element of a list that has a property;
* `IsLast`                   the last one;
* `isLast_concat`, `isFirst_concat`   what one more element changes;
* `FirstOccurrences`         each element of a list once, in the order in which they come first;
* `FirstOccurrences.concat`  what one more element changes;
* `FirstOccurrences.unique`  there is one such list.
-/

namespace Stencil

/-! ## elements with a property -/

section
variable {α : Type} {p q : α → Prop}

def IsFirst (p : α → Prop) (l : List α) (a : α) : Prop :=
  ∃ before after, l = before ++ a :: after ∧ p a ∧ ∀ b ∈ before, ¬ p b

theorem isFirst_nil (a : α) : ¬ IsFirst p [] a := by
  intro h
  obtain ⟨before, after, hl, _⟩ := h
  cases before <;> cases hl

theorem isFirst_cons {l : List α} {a b : α} :
    IsFirst p (b :: l) a ↔ (b = a ∧ p a) ∨ (¬ p b ∧ IsFirst p l a) := by
  constructor
  · intro h
    obtain ⟨before, after, hl, ha, hbefore⟩ := h
    cases before with
    | nil =>
      obtain ⟨rfl, rfl⟩ := List.cons.inj hl
      exact .inl ⟨rfl, ha⟩
    | cons c before =>
      obtain ⟨rfl, rfl⟩ := List.cons.inj hl
      rw [List.forall_mem_cons] at hbefore
      exact .inr ⟨hbefore.1, before, after, rfl, ha, hbefore.2⟩
  · rintro (⟨rfl, ha⟩ | ⟨hb, before, after, rfl, ha, hbefore⟩)
    · exact ⟨[], l, rfl, ha, by simp⟩
    · exact ⟨b :: before, after, rfl, ha, List.forall_mem_cons.mpr ⟨hb, hbefore⟩⟩

theorem IsFirst.mem {l : List α} {a : α} (h : IsFirst p l a) : a ∈ l := by
  obtain ⟨before, after, rfl, _⟩ := h
  exact List.mem_append_right _ (List.mem_cons_self ..)

theorem IsFirst.holds {l : List α} {a : α} (h : IsFirst p l a) : p a := by
  obtain ⟨_, _, _, ha, _⟩ := h
  exact ha

theorem isFirst_congr {l : List α} (h : ∀ b ∈ l, p b ↔ q b) {a : α} :
    IsFirst p l a ↔ IsFirst q l a := by
  induction l with
  | nil => exact ⟨fun ha => absurd ha (isFirst_nil a), fun ha => absurd ha (isFirst_nil a)⟩
  | cons b l ih =>
    rw [List.forall_mem_cons] at h
    rw [isFirst_cons, isFirst_cons, ih h.2, h.1]
    constructor
    · rintro (⟨rfl, ha⟩ | hl)
      · exact .inl ⟨rfl, h.1.mp ha⟩
      · exact .inr hl
    · rintro (⟨rfl, ha⟩ | hl)
      · exact .inl ⟨rfl, h.1.mpr ha⟩
      · exact .inr hl

theorem isFirst_concat {l : List α} {a b : α} :
    IsFirst p (l ++ [b]) a ↔ IsFirst p l a ∨ (b = a ∧ p a ∧ ∀ c ∈ l, ¬ p c) := by
  induction l with
  | nil => simp [isFirst_cons, isFirst_nil]
  | cons c l ih =>
    rw [List.cons_append, isFirst_cons, isFirst_cons, ih, List.forall_mem_cons]
    tauto

def IsLast (p : α → Prop) (l : List α) (a : α) : Prop :=
  ∃ before after, l = before ++ a :: after ∧ p a ∧ ∀ b ∈ after, ¬ p b

theorem isLast_iff {l : List α} {a : α} : IsLast p l a ↔ IsFirst p l.reverse a := by
  constructor
  · rintro ⟨before, after, rfl, ha, hafter⟩
    refine ⟨after.reverse, before.reverse, by simp, ha, fun b hb => ?_⟩
    exact hafter b (List.mem_reverse.mp hb)
  · rintro ⟨after, before, hl, ha, hafter⟩
    refine ⟨before.reverse, after.reverse, ?_, ha, fun b hb => hafter b (List.mem_reverse.mp hb)⟩
    rw [← List.reverse_reverse l, hl]
    simp

theorem isLast_nil (a : α) : ¬ IsLast p [] a :=
  fun h => isFirst_nil a (isLast_iff.mp h)

theorem isLast_concat {l : List α} {a b : α} :
    IsLast p (l ++ [b]) a ↔ (b = a ∧ p a) ∨ (¬ p b ∧ IsLast p l a) := by
  rw [isLast_iff, isLast_iff, List.reverse_concat, isFirst_cons]

theorem IsLast.holds {l : List α} {a : α} (h : IsLast p l a) : p a :=
  (isLast_iff.mp h).holds

theorem isLast_map {β : Type} (f : β → α) {l : List β} {a : α} :
    IsLast p (l.map f) a ↔ ∃ b, f b = a ∧ IsLast (fun b => p (f b)) l b := by
  constructor
  · rintro ⟨before, after, hl, ha, hafter⟩
    obtain ⟨before', rest, rfl, rfl, hrest⟩ := List.map_eq_append_iff.mp hl
    obtain ⟨b, after', rfl, rfl, rfl⟩ := List.map_eq_cons_iff.mp hrest
    exact ⟨b, rfl, before', after', rfl, ha, fun c hc => hafter (f c) (List.mem_map_of_mem hc)⟩
  · rintro ⟨b, rfl, before, after, rfl, hb, hafter⟩
    refine ⟨before.map f, after.map f, by simp, hb, fun c hc => ?_⟩
    obtain ⟨c', hc', rfl⟩ := List.mem_map.mp hc
    exact hafter c' hc'

end

/-! ## elements in the order in which they come first -/

/-- `kept` has each element of `l` once, in the order in which they come first in `l` -/
structure FirstOccurrences {α : Type} [DecidableEq α] (l kept : List α) : Prop where
  distinct : kept.Nodup
  mem_iff : ∀ a, a ∈ kept ↔ a ∈ l
  ordered : kept.Pairwise fun a b => l.idxOf a < l.idxOf b

namespace FirstOccurrences

variable {α : Type} [DecidableEq α] {l kept : List α}

theorem nil : FirstOccurrences ([] : List α) [] where
  distinct := List.nodup_nil
  mem_iff _ := Iff.rfl
  ordered := List.Pairwise.nil

/-- an element that is there already changes nothing, another one goes last -/
theorem concat (h : FirstOccurrences l kept) (a : α) :
    FirstOccurrences (l ++ [a]) (if a ∈ kept then kept else kept ++ [a]) := by
  -- what is there already comes first where it came first before
  have hidx : ∀ b ∈ kept, (l ++ [a]).idxOf b = l.idxOf b := fun b hb =>
    List.idxOf_append_of_mem ((h.mem_iff b).mp hb)
  have hordered : kept.Pairwise fun b c => (l ++ [a]).idxOf b < (l ++ [a]).idxOf c :=
    h.ordered.imp_of_mem fun hb hc hlt => by rwa [hidx _ hb, hidx _ hc]
  by_cases ha : a ∈ kept
  · rw [if_pos ha]
    refine ⟨h.distinct, fun b => ?_, hordered⟩
    rw [h.mem_iff, List.mem_append, List.mem_singleton]
    refine ⟨.inl, fun hb => hb.elim id ?_⟩
    rintro rfl
    exact (h.mem_iff b).mp ha
  · rw [if_neg ha]
    have hal : a ∉ l := fun hmem => ha ((h.mem_iff a).mpr hmem)
    refine ⟨List.nodup_append.mpr ⟨h.distinct, List.nodup_singleton a, ?_⟩, fun b => ?_, ?_⟩
    · rintro b hb c hc rfl
      exact ha (List.mem_singleton.mp hc ▸ hb)
    · rw [List.mem_append, List.mem_append, h.mem_iff]
    · refine List.pairwise_append.mpr ⟨hordered, List.pairwise_singleton _ a, fun b hb c hc => ?_⟩
      rw [List.mem_singleton.mp hc, hidx b hb, List.idxOf_append_of_notMem hal]
      exact Nat.lt_add_right _ (List.idxOf_lt_length_of_mem ((h.mem_iff b).mp hb))

theorem unique {kept' : List α} (h : FirstOccurrences l kept) (h' : FirstOccurrences l kept') :
    kept = kept' := by
  have hperm : kept.Perm kept' :=
    (List.perm_ext_iff_of_nodup h.distinct h'.distinct).mpr fun a =>
      (h.mem_iff a).trans (h'.mem_iff a).symm
  exact hperm.eq_of_pairwise (fun a b _ _ hab hba => absurd hab (Nat.lt_asymm hba)) h.ordered
    h'.ordered

end FirstOccurrences

end Stencil
