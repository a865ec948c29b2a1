import Stencil.Proofs.Edit.Deletion
import Stencil.Proofs.Rule.Reply

/-!
# Rules that change nothing

A rule counts the parts that it changes.  Those that are left without a hit after a run can be left
out: no other rule gets its turn instead of them, since they never had one.

* `Decides`                    whether a rule changes a part;
* `mem_unused_iff`             the rules without a hit are those that decide nothing in the run;
* `answers_unchosen`           the answers of the rules that are left;
* `unused_rules_droppable`     the run without the other rules.

Rules are left out with `unchosen`, by their numbers.
-/

namespace Stencil

open Stencil.Markup

variable {β : Type}

/-! ## deciding rules -/

/-- rule `k` has a text for the part and, if it is an attribute, no rule before it has one -/
def Decides (rules : List Rule) (k : Nat) (part : Part) : Prop :=
  ∃ r text, rules[k]? = some r ∧ r.answer part = some text ∧
    (part.isTag = false → ∀ j < k, ∀ r', rules[j]? = some r' → r'.answer part = none)

theorem getElem?_firstOnly {α : Type} {l : List (Option α)} {k : Nat} {a : α} :
    (RuleSet.firstOnly l)[k]? = some (some a) ↔
      l[k]? = some (some a) ∧ ∀ j < k, ∀ b, l[j]? ≠ some (some b) := by
  induction l generalizing k with
  | nil => simp [RuleSet.firstOnly]
  | cons x l ih =>
    cases x with
    | none =>
      rw [RuleSet.firstOnly]
      cases k with
      | zero => simp
      | succ k =>
        rw [List.getElem?_cons_succ, List.getElem?_cons_succ, ih]
        refine and_congr_right fun _ => ⟨fun h j hj b => ?_, fun h j hj b => ?_⟩
        · cases j with
          | zero => simp
          | succ j => exact h j (by omega) b
        · exact h (j + 1) (by omega) b
    | some b =>
      rw [RuleSet.firstOnly]
      cases k with
      | zero => simp
      | succ k =>
        constructor
        · intro h
          rw [List.getElem?_cons_succ, List.getElem?_map] at h
          obtain ⟨_, _, h⟩ := Option.map_eq_some_iff.mp h
          cases h
        · intro h
          exact absurd rfl (h.2 0 (by omega) b)

theorem length_firstOnly {α : Type} (l : List (Option α)) :
    (RuleSet.firstOnly l).length = l.length := by
  induction l with
  | nil => rfl
  | cons x l ih =>
    cases x with
    | none => rw [RuleSet.firstOnly, List.length_cons, ih, List.length_cons]
    | some a => rw [RuleSet.firstOnly, List.length_cons, List.length_map, List.length_cons]

theorem length_answers (rules : List Rule) (part : Part) :
    (RuleSet.answers rules part).length = rules.length := by
  unfold RuleSet.answers
  split
  · rw [List.length_map]
  · rw [length_firstOnly, List.length_map]

theorem decides_iff {rules : List Rule} {k : Nat} {part : Part} :
    Decides rules k part ↔ ∃ text, (RuleSet.answers rules part)[k]? = some (some text) := by
  have hall : ∀ (j : Nat) (text : String),
      (rules.map fun r : Rule => r.answer part)[j]? = some (some text) ↔
        ∃ r : Rule, rules[j]? = some r ∧ r.answer part = some text := by
    intro j text
    rw [List.getElem?_map, Option.map_eq_some_iff]
  unfold Decides RuleSet.answers
  cases htag : part.isTag with
  | true =>
    simp only [if_true, hall]
    constructor
    · rintro ⟨r, text, hr, htext, _⟩
      exact ⟨text, r, hr, htext⟩
    · rintro ⟨text, r, hr, htext⟩
      exact ⟨r, text, hr, htext, fun h => by cases h⟩
  | false =>
    simp only [Bool.false_eq_true, if_false, getElem?_firstOnly, ne_eq, hall]
    constructor
    · rintro ⟨r, text, hr, htext, hbefore⟩
      refine ⟨text, ⟨r, hr, htext⟩, fun j hj b hb => ?_⟩
      obtain ⟨r', hr', hb⟩ := hb
      rw [hbefore trivial j hj r' hr'] at hb
      cases hb
    · rintro ⟨text, ⟨r, hr, htext⟩, hbefore⟩
      refine ⟨r, text, hr, htext, fun _ j hj r' hr' => ?_⟩
      cases hb : r'.answer part with
      | none => rfl
      | some b => exact absurd ⟨r', hr', hb⟩ (hbefore j hj b)

/-! ## rules without a hit -/

theorem mem_unused {hits : List Nat} {k : Nat} : k ∈ unused hits ↔ hits[k]? = some 0 := by
  unfold unused
  rw [List.mem_filterMap]
  constructor
  · rintro ⟨⟨n, j⟩, hmem, hk⟩
    have hj := List.mk_mem_zipIdx_iff_getElem?.mp hmem
    simp only at hk
    split at hk
    · rename_i hn
      cases hk
      rw [hj, hn]
    · cases hk
  · intro h
    exact ⟨(0, k), List.mk_mem_zipIdx_iff_getElem?.mpr h, rfl⟩

theorem countHits_eq_zero_iff {hits : List Nat} {texts : List (Option String)} {k : Nat} :
    (RuleSet.countHits hits texts)[k]? = some 0 ↔
      hits[k]? = some 0 ∧ texts[k]? = some none := by
  rw [RuleSet.countHits, List.getElem?_zipWith]
  cases hits[k]? with
  | none => simp
  | some n =>
    cases texts[k]? with
    | none => simp
    | some text => cases text <;> simp

/-- a rule has no hit after some calls if it had none before and they gave it nothing to change -/
theorem foldl_tally_eq_zero_iff (rules : List Rule) {calls : List (Call β)}
    (hcalls : .event .start ∉ calls) {hits : List Nat} {k : Nat} :
    (calls.foldl (tally rules) hits)[k]? = some 0 ↔ hits[k]? = some 0 ∧
      ∀ part c, .replace part c ∈ calls → (RuleSet.answers rules part)[k]? = some none := by
  induction calls generalizing hits with
  | nil => simp
  | cons call calls ih =>
    rw [List.mem_cons, not_or] at hcalls
    rw [List.foldl_cons, ih hcalls.2]
    cases call with
    | event e =>
      cases e with
      | start => exact absurd rfl hcalls.1
      | replace => simp [tally]
      | finish => simp [tally]
    | analyze tag c => simp [tally]
    | substitute c => simp [tally]
    | replace part c =>
      show (RuleSet.countHits hits _)[k]? = some 0 ∧ _ ↔ _
      rw [countHits_eq_zero_iff, and_assoc]
      refine and_congr_right fun _ => ⟨fun h part' c' hmem => ?_, fun h => ?_⟩
      · rcases List.mem_cons.mp hmem with heq | hmem
        · cases heq
          exact h.1
        · exact h.2 part' c' hmem
      · exact ⟨h part c (List.mem_cons_self ..),
          fun part' c' hmem => h part' c' (List.mem_cons_of_mem _ hmem)⟩

theorem start_not_mem_presented (g : Graph β) (globals : Registry) :
    .event .start ∉ presented g globals := by
  intro hmem
  rcases mem_presented_cases hmem with h | h | h
  · exact analyzes_of_mem_analysis h
  · cases h
  · exact edits_of_mem_editing h

/-- the rules without a hit after a run are those that have decided nothing in it -/
theorem mem_unused_iff (rules : List Rule) (g : Graph β) (globals : Registry) {k : Nat} :
    k ∈ unused ((presented g globals).foldl (tally rules) (RuleSet.noHits rules)) ↔
      k < rules.length ∧
        ∀ part c, .replace part c ∈ presented g globals → ¬ Decides rules k part := by
  rw [mem_unused, foldl_tally_eq_zero_iff rules (start_not_mem_presented g globals)]
  have hzero : (RuleSet.noHits rules)[k]? = some 0 ↔ k < rules.length := by
    rw [RuleSet.noHits, List.getElem?_map, Option.map_eq_some_iff]
    exact ⟨fun ⟨_, hr, _⟩ => (List.getElem?_eq_some_iff.mp hr).1,
      fun hk => ⟨rules[k], List.getElem?_eq_getElem hk, rfl⟩⟩
  rw [hzero]
  refine and_congr_right fun hk => ?_
  refine forall_congr' fun part => forall_congr' fun c => imp_congr_right fun _ => ?_
  have hlt : k < (RuleSet.answers rules part).length := by rwa [length_answers]
  rw [decides_iff, List.getElem?_eq_getElem hlt]
  cases (RuleSet.answers rules part)[k] with
  | none => simp
  | some text => simp

/-! ## the rules that are left -/

section
variable {α γ δ : Type} (chosen : Nat → Bool)

theorem unchosen_nil (n : Nat) : unchosen chosen n ([] : List α) = [] := rfl

theorem unchosen_of_chosen {n : Nat} (h : chosen n = true) (a : α) (l : List α) :
    unchosen chosen n (a :: l) = unchosen chosen (n + 1) l := by
  rw [unchosen, if_pos h]

theorem unchosen_of_not_chosen {n : Nat} (h : chosen n = false) (a : α) (l : List α) :
    unchosen chosen n (a :: l) = a :: unchosen chosen (n + 1) l := by
  rw [unchosen, h, if_neg Bool.false_ne_true]

theorem mem_of_mem_unchosen {n : Nat} {l : List α} {a : α} (h : a ∈ unchosen chosen n l) :
    a ∈ l := by
  induction l generalizing n with
  | nil => exact h
  | cons b l ih =>
    cases hn : chosen n with
    | true =>
      rw [unchosen_of_chosen chosen hn] at h
      exact List.mem_cons_of_mem _ (ih h)
    | false =>
      rw [unchosen_of_not_chosen chosen hn] at h
      rcases List.mem_cons.mp h with rfl | h
      · exact List.mem_cons_self ..
      · exact List.mem_cons_of_mem _ (ih h)

theorem forall_shift {Q : Nat → Nat → Prop} {n : Nat} (h : ∀ k, Q (n + k) k) (k : Nat) :
    Q (n + 1 + k) (k + 1) := by
  have hsucc := h (k + 1)
  rwa [← Nat.add_assoc, Nat.add_right_comm] at hsucc

theorem map_unchosen (f : α → γ) (n : Nat) (l : List α) :
    (unchosen chosen n l).map f = unchosen chosen n (l.map f) := by
  induction l generalizing n with
  | nil => rfl
  | cons a l ih =>
    cases hn : chosen n with
    | true =>
      rw [List.map_cons, unchosen_of_chosen chosen hn, unchosen_of_chosen chosen hn, ih]
    | false =>
      rw [List.map_cons, unchosen_of_not_chosen chosen hn, unchosen_of_not_chosen chosen hn,
        List.map_cons, ih]

theorem zipWith_unchosen (f : α → γ → δ) (n : Nat) (l : List α) (r : List γ) :
    List.zipWith f (unchosen chosen n l) (unchosen chosen n r) =
      unchosen chosen n (List.zipWith f l r) := by
  induction l generalizing n r with
  | nil => rw [unchosen_nil, List.zipWith_nil_left, List.zipWith_nil_left, unchosen_nil]
  | cons a l ih =>
    cases r with
    | nil => rw [unchosen_nil, List.zipWith_nil_right, List.zipWith_nil_right, unchosen_nil]
    | cons b r =>
      rw [List.zipWith_cons_cons]
      cases hn : chosen n with
      | true =>
        rw [unchosen_of_chosen chosen hn, unchosen_of_chosen chosen hn,
          unchosen_of_chosen chosen hn, ih]
      | false =>
        rw [unchosen_of_not_chosen chosen hn, unchosen_of_not_chosen chosen hn,
          unchosen_of_not_chosen chosen hn, List.zipWith_cons_cons, ih]

/-- what is left is not zero if all zeros are left out -/
theorem unchosen_ne_zero {n : Nat} {l : List Nat}
    (h : ∀ k, l[k]? = some 0 → chosen (n + k) = true) : ∀ m ∈ unchosen chosen n l, m ≠ 0 := by
  induction l generalizing n with
  | nil => simp [unchosen]
  | cons a l ih =>
    have hl := forall_shift (Q := fun m k => (a :: l)[k]? = some 0 → chosen m = true) h
    cases hn : chosen n with
    | true =>
      rw [unchosen_of_chosen chosen hn]
      exact ih hl
    | false =>
      rw [unchosen_of_not_chosen chosen hn, List.forall_mem_cons]
      refine ⟨fun ha => ?_, ih hl⟩
      have hzero := h 0 (by rw [ha]; rfl)
      rw [Nat.add_zero, hn] at hzero
      cases hzero

theorem filterMap_unchosen {n : Nat} {l : List (Option α)}
    (h : ∀ k a, l[k]? = some (some a) → chosen (n + k) = false) :
    (unchosen chosen n l).filterMap id = l.filterMap id := by
  induction l generalizing n with
  | nil => rfl
  | cons x l ih =>
    have hl := forall_shift
      (Q := fun m k => ∀ a, (x :: l)[k]? = some (some a) → chosen m = false) h
    cases hn : chosen n with
    | true =>
      cases x with
      | none =>
        rw [unchosen_of_chosen chosen hn, ih hl]
        rfl
      | some a =>
        have hfalse := h 0 a rfl
        rw [Nat.add_zero, hn] at hfalse
        cases hfalse
    | false =>
      rw [unchosen_of_not_chosen chosen hn, List.filterMap_cons, List.filterMap_cons, ih hl]

/-- the first element is the same without others that are not the first -/
theorem firstOnly_unchosen {n : Nat} {l : List (Option α)}
    (h : ∀ k a, (RuleSet.firstOnly l)[k]? = some (some a) → chosen (n + k) = false) :
    RuleSet.firstOnly (unchosen chosen n l) = unchosen chosen n (RuleSet.firstOnly l) := by
  induction l generalizing n with
  | nil => rfl
  | cons x l ih =>
    cases x with
    | none =>
      rw [RuleSet.firstOnly] at h ⊢
      have hl := forall_shift (Q := fun m k => ∀ a,
        (none :: RuleSet.firstOnly l)[k]? = some (some a) → chosen m = false) h
      cases hn : chosen n with
      | true => rw [unchosen_of_chosen chosen hn, unchosen_of_chosen chosen hn, ih hl]
      | false =>
        rw [unchosen_of_not_chosen chosen hn, unchosen_of_not_chosen chosen hn,
          RuleSet.firstOnly, ih hl]
    | some a =>
      rw [RuleSet.firstOnly] at h ⊢
      have hn : chosen n = false := h 0 a rfl
      rw [unchosen_of_not_chosen chosen hn, unchosen_of_not_chosen chosen hn, RuleSet.firstOnly,
        map_unchosen]

end

/-! ## the other rules -/

section
variable (chosen : Nat → Bool) {rules : List Rule}

theorem answers_unchosen {part : Part} (h : ∀ k, chosen k = true → ¬ Decides rules k part) :
    RuleSet.answers (unchosen chosen 0 rules) part =
        unchosen chosen 0 (RuleSet.answers rules part) ∧
      reply (unchosen chosen 0 rules) part = reply rules part := by
  -- a rule that is left out has no answer, so what is left has the same answers in the same order
  have hkept : ∀ k text, (RuleSet.answers rules part)[k]? = some (some text) →
      chosen (0 + k) = false := by
    intro k text hk
    rw [Nat.zero_add, ← Bool.not_eq_true]
    exact fun hchosen => h k hchosen (decides_iff.mpr ⟨text, hk⟩)
  have hanswers : RuleSet.answers (unchosen chosen 0 rules) part =
      unchosen chosen 0 (RuleSet.answers rules part) := by
    unfold RuleSet.answers at hkept ⊢
    simp only [map_unchosen]
    split
    · rfl
    · rename_i htag
      rw [if_neg htag] at hkept
      exact firstOnly_unchosen chosen hkept
  refine ⟨hanswers, ?_⟩
  rw [reply, reply, hanswers, RuleSet.joined_eq, RuleSet.joined_eq,
    filterMap_unchosen chosen hkept]

/-- the hits of the rules that are left are those that they have among all rules -/
theorem foldl_tally_unchosen {calls : List (Call β)} (hcalls : .event .start ∉ calls)
    (h : ∀ part c, .replace part c ∈ calls → ∀ k, chosen k = true → ¬ Decides rules k part)
    (hits : List Nat) :
    calls.foldl (tally (unchosen chosen 0 rules)) (unchosen chosen 0 hits) =
      unchosen chosen 0 (calls.foldl (tally rules) hits) := by
  induction calls generalizing hits with
  | nil => rfl
  | cons call calls ih =>
    rw [List.mem_cons, not_or] at hcalls
    rw [List.foldl_cons, List.foldl_cons,
      ← ih hcalls.2 fun part c hmem => h part c (List.mem_cons_of_mem _ hmem)]
    congr 1
    cases call with
    | event e =>
      cases e with
      | start => exact absurd rfl hcalls.1
      | replace => rfl
      | finish => rfl
    | analyze tag c => rfl
    | substitute c => rfl
    | replace part c =>
      have hanswers := (answers_unchosen chosen (h part c (List.mem_cons_self ..))).1
      show RuleSet.countHits _ _ = unchosen chosen 0 (RuleSet.countHits _ _)
      rw [hanswers, RuleSet.countHits, RuleSet.countHits, zipWith_unchosen]

end

theorem checkFrom_eq_ok {n : Nat} {rules : List Rule} :
    RuleSet.checkFrom n rules = .ok () ↔ ∀ r ∈ rules, r.check = .ok () := by
  induction rules generalizing n with
  | nil => simp [RuleSet.checkFrom]
  | cons r rules ih =>
    rw [RuleSet.checkFrom, List.forall_mem_cons, ← ih (n := n + 1)]
    cases r.check with
    | error e => exact ⟨fun h => (by cases h), fun h => (by cases h.1)⟩
    | ok u => exact ⟨fun h => ⟨rfl, h⟩, fun h => h.2⟩

theorem ofRules_eq_ok {rules : List Rule} {set : RuleSet} :
    RuleSet.ofRules rules = .ok set ↔
      (∀ r ∈ rules, r.check = .ok ()) ∧ set = ⟨none, none, rules⟩ := by
  rw [RuleSet.ofRules, ← checkFrom_eq_ok (n := 0)]
  cases RuleSet.checkFrom 0 rules with
  | error e => exact ⟨fun h => (by cases h), fun h => (by cases h.1)⟩
  | ok u => exact ⟨fun h => ⟨rfl, (Except.ok.inj h).symm⟩, fun h => by rw [h.2]; rfl⟩

theorem unused_unchosen (hits : List Nat) :
    unused (unchosen (fun k => k ∈ unused hits) 0 hits) = [] := by
  refine List.eq_nil_iff_forall_not_mem.mpr fun k hk => ?_
  have hmem := List.mem_of_getElem? (mem_unused.mp hk)
  refine unchosen_ne_zero _ (fun j hj => ?_) 0 hmem rfl
  rw [Nat.zero_add]
  exact decide_eq_true (mem_unused.mpr hj)

/-- After a run, the rules without a hit are those that have decided no part.  The other rules are
a rule set of their own; it gives the same result, and each of its rules has a hit. -/
theorem unused_rules_droppable {rules : List Rule} {set : RuleSet}
    (hset : RuleSet.ofRules rules = .ok set) (g : Graph β) (globals : Registry)
    (hits : List Nat) :
    ∃ result after log left,
      transform (RuleSet.instruction set.rules) g globals hits = (result, after) ∧
      transform (RuleSet.instruction set.rules).traced g globals (hits, []) =
        (result, after, log) ∧
      (∀ k, k ∈ unused after ↔ k < rules.length ∧
        ∀ part c, .replace part c ∈ log → ¬ Decides rules k part) ∧
      RuleSet.ofRules (unchosen (fun k => k ∈ unused after) 0 rules) = .ok left ∧
      ∀ hits', ∃ after', transform (RuleSet.instruction left.rules) g globals hits' =
        (result, after') ∧ unused after' = [] := by
  obtain ⟨hchecks, rfl⟩ := ofRules_eq_ok.mp hset
  obtain ⟨result, hrun, htraced, _⟩ := transform_rules rules g globals hits
  obtain ⟨after, hafter⟩ :
      ∃ after, after = (presented g globals).foldl (tally rules) (RuleSet.noHits rules) := ⟨_, rfl⟩
  have hunused := fun k => mem_unused_iff rules g globals (k := k)
  rw [← hafter] at hrun htraced hunused
  obtain ⟨chosen, hchosen⟩ : ∃ chosen : Nat → Bool, chosen = fun k => k ∈ unused after := ⟨_, rfl⟩
  have hidle : ∀ part c, .replace part c ∈ presented g globals → ∀ k, chosen k = true →
      ¬ Decides rules k part := by
    intro part c hmem k hk
    rw [hchosen] at hk
    exact ((hunused k).mp (of_decide_eq_true hk)).2 part c hmem
  -- a trace has only the notices of start and end beside the calls of the plan
  have hreplace : ∀ part c, .replace part c ∈ .event .start :: (presented g globals ++
      [.event .finish]) ↔ .replace part c ∈ presented g globals := by
    intro part c
    simp
  refine ⟨result, after, _, ⟨none, none, unchosen chosen 0 rules⟩, hrun, htraced, ?_, ?_, ?_⟩
  · simp only [hreplace]
    exact hunused
  · rw [← hchosen, ofRules_eq_ok]
    exact ⟨fun r hr => hchecks r (mem_of_mem_unchosen chosen hr), rfl⟩
  · -- both runs present the same parts, since the plan does not depend on the rules
    intro hits'
    obtain ⟨result', hrun', _, _⟩ := transform_rules (unchosen chosen 0 rules) g globals hits'
    have hresult : result' = result := by
      have hreply : ∀ part c, .replace part c ∈ presented g globals →
          reply (unchosen chosen 0 rules) part = reply rules part :=
        fun part c hmem => (answers_unchosen chosen (hidle part c hmem)).2
      have hsame := transform_rules_congr hreply hits' hits
      rwa [hrun, hrun'] at hsame
    refine ⟨_, hresult ▸ hrun', ?_⟩
    have hno : RuleSet.noHits (unchosen chosen 0 rules) =
        unchosen chosen 0 (RuleSet.noHits rules) := map_unchosen chosen _ 0 rules
    rw [hno, foldl_tally_unchosen chosen (start_not_mem_presented g globals) hidle, ← hafter,
      hchosen]
    exact unused_unchosen after

/-! ## one component -/

theorem spanning_single (template : String) (base : β) :
    (Graph.single template base).store.spanning (Graph.single template base).root =
      .node none 0 .nil .nil := by
  have hsteps : (Graph.single template base).store.steps (Graph.single template base).root = [] :=
    rfl
  rw [Store.spanning, Store.explore_cons_of_not_mem _ List.not_mem_nil, hsteps, Store.explore_nil,
    Store.explore_nil]
  rfl

theorem explore_single (template : String) (base : β) :
    (Graph.single template base).store.explore []
      (starts (Graph.single template base) Dict.empty) = .node none 0 .nil .nil :=
  spanning_single template base

/-- a text, a removal, a new key for an attribute that is removed already, and an empty text -/
def fourRules : List Rule :=
  [⟨["a"], some " x", [], [], Dict.empty, none⟩, ⟨[], none, ["b"], [], Dict.empty, none⟩,
    ⟨[], none, [], [], Dict.ofList [("b", "c")], none⟩,
    ⟨[], some "", [], [], Dict.empty, none⟩]

theorem transform_fourRules :
    transform (RuleSet.instruction fourRules) (Graph.single "<a b>" ()) Dict.empty [] =
      (.ok (Graph.single "<a x>" ()), [1, 1, 0, 0]) := by
  unfold transform process
  rw [phases_eq, analysis, explore_single, spanning_single]
  decide +kernel

theorem fourRules_without_unused :
    RuleSet.ofRules fourRules = .ok ⟨none, none, fourRules⟩ ∧
      ∃ after left after',
        transform (RuleSet.instruction fourRules) (Graph.single "<a b>" ()) Dict.empty [] =
          (.ok (Graph.single "<a x>" ()), after) ∧
        unused after = [2, 3] ∧
        RuleSet.ofRules (fourRules.take 2) = .ok left ∧
        transform (RuleSet.instruction left.rules) (Graph.single "<a b>" ()) Dict.empty [] =
          (.ok (Graph.single "<a x>" ()), after') ∧
        unused after' = [] := by
  have hset : RuleSet.ofRules fourRules = .ok ⟨none, none, fourRules⟩ := by decide
  obtain ⟨result, after, log, left, hrun, _, _, hleft, hdropped⟩ :=
    unused_rules_droppable hset (Graph.single "<a b>" ()) Dict.empty []
  obtain ⟨after', hrun', hunused⟩ := hdropped []
  cases transform_fourRules.symm.trans hrun
  exact ⟨hset, [1, 1, 0, 0], left, after', hrun, by decide, hleft, hrun', hunused⟩

end Stencil
