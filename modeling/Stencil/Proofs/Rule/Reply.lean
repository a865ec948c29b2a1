import Stencil.Proofs.Rule.Run
import Stencil.Proofs.Run.Mirror
import Stencil.Proofs.Edit.Rescan

/-!
# The replies of a rule set

What a rule set answers does not depend on its hits, so the result of a run is known from the
answers for the parts that it presents.

* `reply`                  the answer for a part;
* `template_of_answered`   a template with these answers put in;
* `transform_rules_congr`  rule sets that answer alike during a run give the same result.
-/

namespace Stencil

open Stencil.Markup

variable {β : Type}

def reply (rules : List Rule) (part : Part) : Option String :=
  RuleSet.joined (RuleSet.answers rules part)

/-! ## the reply for a part -/

theorem Rule.appliesTo_iff {r : Rule} {tag : String} :
    r.appliesTo tag = true ↔ r.tags = [] ∨ tag ∈ r.tags := by
  rw [appliesTo, Bool.or_eq_true, List.isEmpty_iff, List.contains_iff_mem]

theorem Rule.appliesTo_of_answer {r : Rule} {part : Part} {text : String}
    (h : r.answer part = some text) : r.appliesTo part.tagName = true := by
  by_contra hnot
  unfold answer at h
  rw [if_neg hnot] at h
  cases h

namespace RuleSet

theorem joined_eq (texts : List (Option String)) :
    joined texts =
      if texts.filterMap id = [] then none else some (String.join (texts.filterMap id)) := by
  have hall : texts.all Option.isNone = true ↔ texts.filterMap id = [] := by
    rw [List.all_eq_true, List.filterMap_eq_nil_iff]
    simp only [Option.isNone_iff_eq_none, id_eq]
  rw [joined]
  simp only [hall]

theorem joined_firstOnly (texts : List (Option String)) :
    joined (firstOnly texts) = (texts.filterMap id).head? := by
  induction texts with
  | nil => rfl
  | cons text texts ih =>
    cases text with
    | none => exact ih
    | some text =>
      have hone : (some text :: texts.map fun _ => none).filterMap id = [text] := by simp
      rw [firstOnly, joined_eq, hone, if_neg (List.cons_ne_nil _ _), String.join_cons,
        String.join_nil, String.append_empty]
      rfl

end RuleSet

/-- all texts for a tag are put together -/
theorem reply_tag (rules : List Rule) (name : String) (m : Attributes) :
    reply rules (.tag name m) =
      if rules.filterMap (Rule.answer · (.tag name m)) = [] then none
      else some (String.join (rules.filterMap (Rule.answer · (.tag name m)))) := by
  rw [reply, RuleSet.answers, Part.isTag, if_pos rfl, RuleSet.joined_eq, List.filterMap_map]
  rfl

/-- the first text for an attribute counts -/
theorem reply_attr (rules : List Rule) (name : String) (a : Attribute) (m : Attributes) :
    reply rules (.attr name a m) = (rules.filterMap (Rule.answer · (.attr name a m))).head? := by
  rw [reply, RuleSet.answers, Part.isTag, if_neg (by decide), RuleSet.joined_firstOnly,
    List.filterMap_map]
  rfl

/-! ## templates -/

/-- the replies to all that is asked about pieces, tag by tag -/
def replies (rules : List Rule) (ps : List Piece) : List (List (Option String)) :=
  (openingTags ps).map fun t => t.parts.map (reply rules)

theorem run_askAll_rules (rules : List Rule) (c : Component β) (ps : List Piece)
    (hits : List Nat) :
    ∃ after, (askAll (fun part => (RuleSet.instruction rules).replace part c) ps).run.run hits =
      (.ok (replies rules ps), after) :=
  run_mapM_map (fun _ _ => run_mapM_map fun _ _ _ => ⟨_, rfl⟩) hits

theorem template_of_answered {rules : List Rule} {s : Store β} {ch : Change β}
    (h : ch.Answered (RuleSet.instruction rules) s) :
    ∃ ps, parse ch.original.template = .ok ps ∧
      ch.template = String.ofList (putAll ps (replies rules ps)) ∧ ch.base = none := by
  obtain ⟨st, t, htemplate⟩ := h.template
  obtain ⟨u, v, hbase⟩ := h.base
  have hnone : ch.base = none := (Except.ok.inj (congrArg Prod.fst hbase)).symm
  cases hps : parse ch.original.template with
  | error e =>
    rw [editTemplate, hps] at htemplate
    cases htemplate
  | ok ps =>
    obtain ⟨after, hask⟩ := run_askAll_rules rules ch.original ps st
    rw [run_editTemplate_ok hps hask] at htemplate
    exact ⟨ps, rfl, (Except.ok.inj (congrArg Prod.fst htemplate)).symm, hnone⟩

/-- the change of a component depends on the replies to its parts alone -/
theorem change_congr {rules rules' : List Rule} {s : Store β} {ch ch' : Change β}
    (h : ch.Answered (RuleSet.instruction rules) s)
    (h' : ch'.Answered (RuleSet.instruction rules') s) (hid : ch.id = ch'.id)
    (hreply : ∀ ps, parse ch.original.template = .ok ps → ∀ part ∈ partsOf ps,
      reply rules part = reply rules' part) : ch = ch' := by
  obtain ⟨ps, hps, htemplate, hbase⟩ := template_of_answered h
  obtain ⟨ps', hps', htemplate', hbase'⟩ := template_of_answered h'
  have hsome := h'.original
  rw [← hid, h.original] at hsome
  have horiginal : ch.original = ch'.original := Option.some.inj hsome
  rw [← horiginal, hps] at hps'
  cases hps'
  have hreplies : replies rules ps = replies rules' ps := by
    refine List.map_congr_left fun t ht => List.map_congr_left fun part hpart => ?_
    exact hreply ps hps part (List.mem_flatMap.mpr ⟨t, ht, hpart⟩)
  cases ch
  cases ch'
  simp only at hid horiginal htemplate htemplate' hbase hbase'
  rw [hid, horiginal, htemplate, htemplate', hreplies, hbase, hbase']

/-! ## what a run presents -/

theorem templateSteps_subset_editing {s : Store β} {f : Forest}
    (hf : ∀ a ∈ f.ids, s.get? a ≠ none) {id : Nat} (hid : id ∈ f.ids) {c : Component β}
    (hc : s.get? id = some c) : ∀ a ∈ templateSteps id c, a ∈ editing s f := by
  induction f with
  | nil => cases hid
  | node tag root below beside ihBelow ihBeside =>
    intro a ha
    rw [Forest.ids_node] at hf hid
    rw [List.forall_mem_cons, List.forall_mem_append] at hf
    rw [editing]
    cases hroot : s.get? root with
    | none => exact absurd hroot hf.1
    | some d =>
      rcases List.mem_cons.mp hid with rfl | hid
      · cases hroot.symm.trans hc
        exact List.mem_append_left _ ha
      · rcases List.mem_append.mp hid with hid | hid
        · exact List.mem_append_right _ (List.mem_append_left _ (ihBelow hf.2.1 hid a ha))
        · exact List.mem_append_right _ (List.mem_append_right _
            (List.mem_cons_of_mem _ (ihBeside hf.2.2 hid a ha)))

/-- a run that nothing stops presents all parts of the templates that it edits -/
theorem mem_presented {g : Graph β} {globals : Registry}
    (hplan : forM (plan g globals) Step.bound = .ok ())
    (hids : ∀ a ∈ (g.store.spanning g.root).ids, g.store.get? a ≠ none) {id : Nat}
    (hid : id ∈ (g.store.spanning g.root).ids) {c : Component β} (hc : g.store.get? id = some c)
    {ps : List Piece} (hps : parse c.template = .ok ps) {part : Part} (hpart : part ∈ partsOf ps) :
    .replace part c ∈ presented g globals := by
  have hstep : .call (.replace part c) ∈ templateSteps id c := by
    rw [templateSteps, hps]
    exact List.mem_map.mpr ⟨part, hpart, rfl⟩
  have hediting := templateSteps_subset_editing hids hid hc _ hstep
  rw [presented, untilStop_of_ok hplan]
  exact List.mem_filterMap.mpr
    ⟨_, List.mem_append_right _ (List.mem_cons_of_mem _ hediting), rfl⟩

/-- a call of a run belongs to one of its phases, or comes between them -/
theorem mem_presented_cases {g : Graph β} {globals : Registry} {call : Call β}
    (h : call ∈ presented g globals) : .call call ∈ analysis g globals ∨
      call = .event .replace ∨ .call call ∈ editing g.store (g.store.spanning g.root) := by
  obtain ⟨a, ha, hcall⟩ := List.mem_filterMap.mp h
  have ha := mem_of_mem_untilStop ha
  cases a with
  | stop e => cases hcall
  | call c =>
    cases hcall
    rcases List.mem_append.mp ha with ha | ha
    · exact .inl ha
    · rcases List.mem_cons.mp ha with heq | ha
      · cases heq
        exact .inr (.inl rfl)
      · exact .inr (.inr ha)

theorem part_of_mem_templateSteps {id : Nat} {c d : Component β} {part : Part}
    (h : .call (.replace part d) ∈ templateSteps id c) :
    d = c ∧ ∃ ps, parse c.template = .ok ps ∧ part ∈ partsOf ps := by
  unfold templateSteps at h
  cases hps : parse c.template with
  | error e =>
    rw [hps] at h
    cases List.mem_singleton.mp h
  | ok ps =>
    rw [hps] at h
    obtain ⟨_, hpart, heq⟩ := List.mem_map.mp h
    cases heq
    exact ⟨rfl, ps, rfl, hpart⟩

/-- what a run presents are parts of templates -/
theorem part_of_mem_presented {g : Graph β} {globals : Registry} {part : Part} {c : Component β}
    (h : .replace part c ∈ presented g globals) :
    ∃ ps, parse c.template = .ok ps ∧ part ∈ partsOf ps := by
  rcases mem_presented_cases h with h | h | h
  · exact (analyzes_of_mem_analysis h).elim
  · cases h
  · rcases mem_editing_cases h with ⟨_, _, h⟩ | ⟨id, d, _, h | h⟩
    · cases h
    · obtain ⟨rfl, hparts⟩ := part_of_mem_templateSteps h
      exact hparts
    · cases h

/-! ## results -/

theorem eq_of_map_eq {α γ : Type} {f : α → γ} {l r : List α} (h : l.map f = r.map f)
    (hinj : ∀ a ∈ l, ∀ b ∈ r, f a = f b → a = b) : l = r := by
  induction l generalizing r with
  | nil => exact (List.map_eq_nil_iff.mp h.symm).symm
  | cons a l ih =>
    cases r with
    | nil => cases h
    | cons b r =>
      obtain ⟨hab, hlr⟩ := List.cons.inj h
      rw [hinj a (List.mem_cons_self ..) b (List.mem_cons_self ..) hab]
      rw [ih hlr fun x hx y hy => hinj x (List.mem_cons_of_mem _ hx) y (List.mem_cons_of_mem _ hy)]

/-- rule sets that give the same replies to all parts of a run give the same graph -/
theorem graph_congr {rules rules' : List Rule} {g out out' : Graph β} {globals : Registry}
    {hits hits' after after' : List Nat}
    (h : ∀ part c, .replace part c ∈ presented g globals → reply rules part = reply rules' part)
    (hplan : forM (plan g globals) Step.bound = .ok ())
    (hrun : transform (RuleSet.instruction rules) g globals hits = (.ok out, after))
    (hrun' : transform (RuleSet.instruction rules') g globals hits' = (.ok out', after')) :
    out = out' := by
  obtain ⟨log, rfl, hids, hall⟩ := exists_changes_of_ok hrun
  obtain ⟨log', rfl, hids', hall'⟩ := exists_changes_of_ok hrun'
  have hpresent : ∀ a ∈ (g.store.spanning g.root).ids, g.store.get? a ≠ none := by
    intro a ha
    rw [← hids] at ha
    obtain ⟨ch, hch, rfl⟩ := List.mem_map.mp ha
    rw [(hall ch hch).original]
    exact nofun
  have hlog : log = log' := by
    refine eq_of_map_eq (hids.trans hids'.symm) fun ch hch ch' hch' heq => ?_
    refine change_congr (hall ch hch) (hall' ch' hch') heq fun ps hps part hpart => ?_
    have hid : ch.id ∈ (g.store.spanning g.root).ids := hids ▸ List.mem_map_of_mem hch
    exact h part ch.original
      (mem_presented hplan hpresent hid (hall ch hch).original hps hpart)
  rw [hlog]

theorem transform_rules_congr {rules rules' : List Rule} {g : Graph β} {globals : Registry}
    (h : ∀ part c, .replace part c ∈ presented g globals → reply rules part = reply rules' part)
    (hits hits' : List Nat) :
    (transform (RuleSet.instruction rules) g globals hits).1 =
      (transform (RuleSet.instruction rules') g globals hits').1 := by
  obtain ⟨result, hrun, _, hresult⟩ := transform_rules rules g globals hits
  obtain ⟨result', hrun', _, hresult'⟩ := transform_rules rules' g globals hits'
  rw [hrun, hrun']
  have hsame := hresult.trans hresult'.symm
  rcases result with e | out
  · rcases result' with e' | out'
    · cases hsame
      rfl
    · cases hsame
  · rcases result' with e' | out'
    · cases hsame
    · exact congrArg Except.ok (graph_congr h hresult.symm hrun hrun')

end Stencil
