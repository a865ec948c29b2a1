import Mathlib
import Stencil.Proofs.Rule.Unused

/-!
# Rules in another order

The order of two rules makes a difference only where both of them apply.  Rules that have no tag in
common can change places, as long as each keeps its place before or behind the others that it has a
tag in common with.  A rule without tags has every tag in common with every other rule.

* `Rule.Meets`            two rules that can apply to one tag;
* `reordered`             a list of rules in the order of a permutation of its places;
* `KeepsOrder`            a permutation that leaves the order of rules that can meet;
* `filterMap_reordered`   the texts of the rules that change a part, in their order;
* `decides_reordered`     the rules that change it;
* `transform_reordered`   the runs of the rules in both orders.
-/

namespace Stencil

open Stencil.Markup

variable {β : Type}

/-! ## rules that can meet -/

/-- some tag is one that both rules apply to -/
def Rule.Meets (r r' : Rule) : Prop :=
  r.tags = [] ∨ r'.tags = [] ∨ ∃ tag ∈ r.tags, tag ∈ r'.tags

instance (r r' : Rule) : Decidable (r.Meets r') :=
  inferInstanceAs (Decidable (r.tags = [] ∨ r'.tags = [] ∨ ∃ tag ∈ r.tags, tag ∈ r'.tags))

theorem Rule.meets_iff {r r' : Rule} :
    r.Meets r' ↔ ∃ tag, r.appliesTo tag = true ∧ r'.appliesTo tag = true := by
  simp only [Rule.appliesTo_iff]
  constructor
  · rintro (h | h | ⟨tag, h, h'⟩)
    · cases htags : r'.tags with
      | nil => exact ⟨"", .inl h, .inl rfl⟩
      | cons tag tags => exact ⟨tag, .inl h, .inr (List.mem_cons_self ..)⟩
    · cases htags : r.tags with
      | nil => exact ⟨"", .inl rfl, .inl h⟩
      | cons tag tags => exact ⟨tag, .inr (List.mem_cons_self ..), .inl h⟩
    · exact ⟨tag, .inr h, .inr h'⟩
  · rintro ⟨tag, h | h, h' | h'⟩
    · exact .inl h
    · exact .inl h
    · exact .inr (.inl h')
    · exact .inr (.inr ⟨tag, h, h'⟩)

/-- rules that change the same part can meet -/
theorem Rule.meets_of_answer {r r' : Rule} {part : Part} {text text' : String}
    (h : r.answer part = some text) (h' : r'.answer part = some text') : r.Meets r' :=
  meets_iff.mpr ⟨part.tagName, appliesTo_of_answer h, appliesTo_of_answer h'⟩

/-! ## other orders -/

/-- the rules in another order: `σ` gives the old place of each new one -/
def reordered (rules : List Rule) (σ : Equiv.Perm (Fin rules.length)) : List Rule :=
  List.ofFn fun i => rules[σ i]

/-- rules that can meet come one behind the other as they did -/
def KeepsOrder (rules : List Rule) (σ : Equiv.Perm (Fin rules.length)) : Prop :=
  ∀ i j, i < j → rules[σ i].Meets rules[σ j] → σ i < σ j

instance (rules : List Rule) (σ : Equiv.Perm (Fin rules.length)) : Decidable (KeepsOrder rules σ) :=
  inferInstanceAs (Decidable (∀ i j, i < j → rules[σ i].Meets rules[σ j] → σ i < σ j))

theorem filter_map_perm {n : Nat} (σ : Equiv.Perm (Fin n)) {p : Fin n → Bool}
    (h : ∀ i j, i < j → p (σ i) = true → p (σ j) = true → σ i < σ j) :
    ((List.finRange n).map σ).filter p = (List.finRange n).filter p := by
  have hsorted := (List.sortedLT_finRange n).pairwise
  -- both sides have the same elements, and both are in ascending order
  have hleft : (((List.finRange n).map σ).filter p).Pairwise (· < ·) := by
    rw [List.pairwise_filter, List.pairwise_map]
    exact hsorted.imp fun hij => h _ _ hij
  have hright : ((List.finRange n).filter p).Pairwise (· < ·) := hsorted.filter p
  refine hleft.eq_of_mem_iff hright fun a => ?_
  rw [List.mem_filter, List.mem_filter, σ.map_finRange_perm.mem_iff]

section
variable {rules : List Rule} {σ : Equiv.Perm (Fin rules.length)}

theorem length_reordered : (reordered rules σ).length = rules.length := List.length_ofFn

theorem getElem?_reordered (k : Fin rules.length) :
    (reordered rules σ)[k.val]? = some rules[σ k] := by
  rw [reordered, List.getElem?_ofFn, dif_pos k.isLt]

theorem mem_reordered {r : Rule} : r ∈ reordered rules σ ↔ r ∈ rules := by
  rw [reordered, List.mem_ofFn, List.mem_iff_get]
  constructor
  · rintro ⟨i, hi⟩
    exact ⟨σ i, hi⟩
  · rintro ⟨i, hi⟩
    obtain ⟨j, rfl⟩ := σ.surjective i
    exact ⟨j, hi⟩

/-! ## what the rules do -/

/-- rules that keep their order where both have a text give the same texts in the same order -/
theorem filterMap_reordered {f : Rule → Option String}
    (h : ∀ i j, i < j → (f rules[σ i]).isSome = true → (f rules[σ j]).isSome = true → σ i < σ j) :
    (reordered rules σ).filterMap f = rules.filterMap f := by
  have hkept : ∀ l : List (Fin rules.length),
      (l.map rules.get).filterMap f =
        ((l.filter fun i => (f rules[i]).isSome).map rules.get).filterMap f := by
    intro l
    rw [List.filterMap_map, List.filterMap_map, List.filterMap_filter]
    refine List.filterMap_congr fun i _ => ?_
    simp only [Function.comp_apply, List.get_eq_getElem, Fin.getElem_fin]
    cases f rules[i.val] <;> rfl
  have hplaces : reordered rules σ = ((List.finRange rules.length).map σ).map rules.get := by
    rw [reordered, List.ofFn_eq_map, List.map_map]
    rfl
  rw [hplaces, hkept, filter_map_perm σ h, ← hkept, List.map_get_finRange]

theorem reply_reordered (h : KeepsOrder rules σ) (part : Part) :
    reply (reordered rules σ) part = reply rules part := by
  have htexts : (reordered rules σ).filterMap (Rule.answer · part) =
      rules.filterMap (Rule.answer · part) := by
    refine filterMap_reordered fun i j hij hi hj => h i j hij ?_
    obtain ⟨text, hi⟩ := Option.isSome_iff_exists.mp hi
    obtain ⟨text', hj⟩ := Option.isSome_iff_exists.mp hj
    exact Rule.meets_of_answer hi hj
  cases part with
  | tag name m => rw [reply_tag, reply_tag, htexts]
  | attr name a m => rw [reply_attr, reply_attr, htexts]

/-- a rule that decides a part in one order decides it in the other -/
theorem decides_reordered (h : KeepsOrder rules σ) (part : Part) (k : Fin rules.length) :
    Decides (reordered rules σ) k part ↔ Decides rules (σ k) part := by
  have hnew : (reordered rules σ)[k.val]? = some rules[σ k] := getElem?_reordered k
  have hold : rules[(σ k).val]? = some rules[σ k] := List.getElem?_eq_getElem (σ k).isLt
  unfold Decides
  rw [hnew, hold]
  refine exists_congr fun r => exists_congr fun text => and_congr_right fun hr =>
    and_congr_right fun htext => imp_congr_right fun _ => ?_
  cases hr
  constructor
  · -- a rule before it in the old order that has a text comes before it in the new one
    intro hbefore j hj r' hr'
    by_contra hsome
    obtain ⟨text', htext'⟩ := Option.ne_none_iff_exists'.mp hsome
    obtain ⟨hlt, rfl⟩ := List.getElem?_eq_some_iff.mp hr'
    obtain ⟨i, hi⟩ := σ.surjective ⟨j, hlt⟩
    obtain rfl : (σ i).val = j := congrArg Fin.val hi
    have hik : i < k := by
      rcases lt_trichotomy i k with hik | rfl | hki
      · exact hik
      · exact absurd hj (lt_irrefl _)
      · exact absurd (h k i hki (Rule.meets_of_answer htext htext')) (lt_asymm hj)
    exact hsome (hbefore i hik _ (getElem?_reordered i))
  · intro hbefore i hi r' hr'
    by_contra hsome
    obtain ⟨text', htext'⟩ := Option.ne_none_iff_exists'.mp hsome
    have hlt : i < rules.length := hi.trans k.isLt
    cases hr'.symm.trans (getElem?_reordered ⟨i, hlt⟩)
    have hbelow := h ⟨i, hlt⟩ k hi (Rule.meets_of_answer htext' htext)
    exact hsome (hbefore _ hbelow _ (List.getElem?_eq_getElem (σ ⟨i, hlt⟩).isLt))

theorem ofRules_reordered {set : RuleSet} (hset : RuleSet.ofRules rules = .ok set) :
    RuleSet.ofRules (reordered rules σ) = .ok ⟨none, none, reordered rules σ⟩ := by
  obtain ⟨hchecks, rfl⟩ := ofRules_eq_ok.mp hset
  exact ofRules_eq_ok.mpr ⟨fun r hr => hchecks r (mem_reordered.mp hr), rfl⟩

/-- Rules in another order that leaves the order of those that can meet give the same result, and
the same rules are left without a hit. -/
theorem transform_reordered {set : RuleSet} (hset : RuleSet.ofRules rules = .ok set)
    (h : KeepsOrder rules σ) (g : Graph β) (globals : Registry) (hits hits' : List Nat) :
    ∃ set' result after after',
      RuleSet.ofRules (reordered rules σ) = .ok set' ∧
      transform (RuleSet.instruction set.rules) g globals hits = (result, after) ∧
      transform (RuleSet.instruction set'.rules) g globals hits' = (result, after') ∧
      ∀ k : Fin rules.length, k.val ∈ unused after' ↔ (σ k).val ∈ unused after := by
  have hset' := ofRules_reordered (σ := σ) hset
  obtain ⟨_, rfl⟩ := ofRules_eq_ok.mp hset
  obtain ⟨result, hrun, _, _⟩ := transform_rules rules g globals hits
  obtain ⟨result', hrun', _, _⟩ := transform_rules (reordered rules σ) g globals hits'
  have hreply : ∀ part (c : Component β), .replace part c ∈ presented g globals →
      reply (reordered rules σ) part = reply rules part := fun part _ _ => reply_reordered h part
  have hsame := transform_rules_congr hreply hits' hits
  rw [hrun, hrun'] at hsame
  cases hsame
  refine ⟨_, result, _, _, hset', hrun, hrun', fun k => ?_⟩
  rw [mem_unused_iff, mem_unused_iff, length_reordered]
  refine and_congr (iff_of_true k.isLt (σ k).isLt) ?_
  refine forall_congr' fun part => forall_congr' fun c => imp_congr_right fun _ => ?_
  exact not_congr (decides_reordered h part k)

end

/-- texts for two tags, and one for all tags -/
def threeRules : List Rule :=
  [⟨["a"], some " x", [], [], Dict.empty, none⟩, ⟨["c"], some " y", [], [], Dict.empty, none⟩,
    ⟨[], some " z", [], [], Dict.empty, none⟩]

/-- the first two rules have no tag in common and can change places -/
def swapped : Equiv.Perm (Fin threeRules.length) := Equiv.swap ⟨0, by decide⟩ ⟨1, by decide⟩

theorem transform_threeRules :
    transform (RuleSet.instruction threeRules) (Graph.single "<a>" ()) Dict.empty [] =
      (.ok (Graph.single "<a x z>" ()), [1, 0, 1]) := by
  unfold transform process
  rw [phases_eq, analysis, explore_single, spanning_single]
  decide +kernel

theorem threeRules_swapped :
    RuleSet.ofRules threeRules = .ok ⟨none, none, threeRules⟩ ∧ KeepsOrder threeRules swapped ∧
      ∃ set' after', RuleSet.ofRules (reordered threeRules swapped) = .ok set' ∧
        transform (RuleSet.instruction set'.rules) (Graph.single "<a>" ()) Dict.empty [] =
          (.ok (Graph.single "<a x z>" ()), after') ∧
        0 ∈ unused after' ∧ 1 ∉ unused after' := by
  have hset : RuleSet.ofRules threeRules = .ok ⟨none, none, threeRules⟩ := by decide
  have horder : KeepsOrder threeRules swapped := by decide
  obtain ⟨set', result, after, after', hset', hrun, hrun', hunused⟩ :=
    transform_reordered hset horder (Graph.single "<a>" ()) Dict.empty [] []
  cases transform_threeRules.symm.trans hrun
  refine ⟨hset, horder, set', after', hset', hrun', ?_, ?_⟩
  · exact (hunused ⟨0, by decide⟩).mpr (by decide)
  · exact fun h => absurd ((hunused ⟨1, by decide⟩).mp h) (by decide)

end Stencil
