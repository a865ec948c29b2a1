import Stencil.Proofs.Dict
import Stencil.Proofs.Rule.Unused
import Stencil.Proofs.Run.Canonical

/-!
# Rules that can do something

The check of a rule asks for an action, not whether that action can ever change anything.  It
cannot if the text to insert is empty, or if no key that the rule looks for, or no tag that it is
for, is one that a template can have.

* `RunOf`                 texts that a scan can find as a name or as a key;
* `Rule.Acts`             an action that changes some part;
* `Rule.Effective`        such an action, for some tag;
* `Rule.effective_iff`    the effective rules are those that change a part of some template;
* `effective_iff_used`    and they are those that have a hit in some run.
-/

namespace Stencil

open Stencil.Markup

variable {β : Type}

/-! ## names and keys -/

/-- one or more characters with `p` -/
def RunOf (p : Char → Bool) (s : String) : Prop := s.toList ≠ [] ∧ ∀ c ∈ s.toList, p c = true

theorem runOf_ofList {p : Char → Bool} {s : List Char} (hne : s ≠ []) (h : ∀ c ∈ s, p c = true) :
    RunOf p (String.ofList s) := by
  rw [RunOf, String.toList_ofList]
  exact ⟨hne, h⟩

/-- names and keys in a template are such runs -/
theorem runOf_of_mem_partsOf {template : String} {ps : List Piece} (hps : Splits template ps)
    {part : Part} (hpart : part ∈ partsOf ps) :
    RunOf isNameChar part.tagName ∧ ∀ a, part.attr? = some a → RunOf isKeyChar a.key := by
  obtain ⟨t, ht, hpart⟩ := List.mem_flatMap.mp hpart
  have hfits := hps.1.fits t ht
  have hname : RunOf isNameChar t.tagName := runOf_ofList hfits.name.ne hfits.name.all
  rcases List.mem_cons.mp hpart with rfl | hpart
  · exact ⟨hname, nofun⟩
  · obtain ⟨a, ha, rfl⟩ := List.mem_map.mp hpart
    have hsound := hfits.attributes.sound a ha
    refine ⟨hname, fun b hb => ?_⟩
    cases hb
    exact runOf_ofList hsound.key_ne hsound.key

namespace Rule

variable {r : Rule}

/-! ## answers -/

theorem isSome_onTag_iff {m : Attributes} : (r.onTag m).isSome = true ↔
    (∃ text, r.insert = some text ∧ text ≠ "") ∨
      ∃ c, r.ensureClass = some c ∧ m.contains "class" = false := by
  have hclass : ∀ c, classText c ≠ "" := fun c => by simp [classText]
  have hinsert : r.insert.getD "" ≠ "" ↔ ∃ text, r.insert = some text ∧ text ≠ "" := by
    cases r.insert <;> simp
  have hnonempty : ∀ text : String,
      (if text.isEmpty then none else some text).isSome = true ↔ text ≠ "" := by
    intro text
    split <;> simp_all
  unfold onTag
  rw [hnonempty, ← hinsert]
  cases r.ensureClass with
  | none => simp
  | some c => cases m.contains "class" <;> simp [hclass]

theorem removes_iff {key : String} : r.removes key = true ↔
    key ∈ r.remove ∨ ∃ p ∈ r.removePrefix, p.toList <+: key.toList := by
  rw [removes, Bool.or_eq_true, List.contains_iff_mem, List.any_eq_true]
  simp only [List.isPrefixOf_iff_prefix]

theorem isSome_onAttr_iff {a : Attribute} : (r.onAttr a).isSome = true ↔
    r.removes a.key = true ∨ a.key ∈ r.rename.keys ∨
      ∃ c, r.ensureClass = some c ∧ a.key = "class" ∧ (withClass c a).isSome = true := by
  rw [← Dict.contains_iff, Dict.contains]
  unfold onAttr
  cases hremoves : r.removes a.key with
  | true => simp
  | false =>
    cases r.rename.get? a.key with
    | some key => simp
    | none =>
      cases r.ensureClass with
      | none => simp
      | some c => by_cases hkey : a.key = "class" <;> simp [hkey]

theorem isSome_answer_iff {part : Part} : (r.answer part).isSome = true ↔
    r.appliesTo part.tagName = true ∧ match part with
      | .tag _ m => (r.onTag m).isSome = true
      | .attr _ a _ => (r.onAttr a).isSome = true := by
  unfold answer
  cases r.appliesTo part.tagName with
  | false => simp
  | true => cases part <;> simp

/-! ## actions -/

/-- an action that changes some part -/
inductive Acts (r : Rule) : Prop
  | insert {text : String} (h : r.insert = some text) (hne : text ≠ "")
  | ensureClass {c : String} (h : r.ensureClass = some c)
  | remove {key : String} (h : key ∈ r.remove) (hkey : RunOf isKeyChar key)
  | removePrefix {p : String} (h : p ∈ r.removePrefix) (hp : ∀ c ∈ p.toList, isKeyChar c = true)
  | rename {key : String} (h : key ∈ r.rename.keys) (hkey : RunOf isKeyChar key)

structure Effective (r : Rule) : Prop where
  tag : r.tags = [] ∨ ∃ tag ∈ r.tags, RunOf isNameChar tag
  acts : r.Acts

theorem Acts.of_onTag {m : Attributes} (h : (r.onTag m).isSome = true) : r.Acts := by
  rcases isSome_onTag_iff.mp h with ⟨text, hinsert, hne⟩ | ⟨c, hclass, _⟩
  · exact .insert hinsert hne
  · exact .ensureClass hclass

theorem Acts.of_onAttr {a : Attribute} (hkey : RunOf isKeyChar a.key)
    (h : (r.onAttr a).isSome = true) : r.Acts := by
  rcases isSome_onAttr_iff.mp h with hremoves | hrename | ⟨c, hclass, _⟩
  · rcases removes_iff.mp hremoves with hmem | ⟨p, hp, hstart⟩
    · exact .remove hmem hkey
    · exact .removePrefix hp fun c hc => hkey.2 c (hstart.subset hc)
  · exact .rename hrename hkey
  · exact .ensureClass hclass

/-- a rule that changes a part of a template is effective -/
theorem effective_of_answer {template : String} {ps : List Piece} (hps : Splits template ps)
    {part : Part} (hpart : part ∈ partsOf ps) (h : (r.answer part).isSome = true) :
    r.Effective := by
  obtain ⟨hname, hkey⟩ := runOf_of_mem_partsOf hps hpart
  obtain ⟨happlies, hchange⟩ := isSome_answer_iff.mp h
  refine ⟨(appliesTo_iff.mp happlies).imp_right fun hmem => ⟨_, hmem, hname⟩, ?_⟩
  cases part with
  | tag name m => exact .of_onTag hchange
  | attr name a m => exact .of_onAttr (hkey a rfl) hchange

/-! ## tags for an action -/

/-- an opening tag with some keys, and nothing more than it needs -/
def plainTag (name : String) (keys : List String) : OpeningTag :=
  ⟨name.toList, keys.map fun key => ⟨[' '], key.toList, none⟩, [], .angle⟩

theorem fits_plainTag {name : String} {keys : List String} (hname : RunOf isNameChar name)
    (hkeys : ∀ key ∈ keys, RunOf isKeyChar key) : (plainTag name keys).Fits := by
  have hlead : ∀ c ∈ [' '], Text.isBlank c = true := List.forall_mem_singleton.mpr rfl
  have htrail : ∀ c ∈ (plainTag name keys).trail, Text.isBlank c = true := by simp [plainTag]
  have hsound : ∀ a ∈ (plainTag name keys).attributes, a.Sound :=
    List.forall_mem_map.mpr fun key hkey => ⟨hlead, (hkeys key hkey).1, (hkeys key hkey).2, nofun⟩
  have hfit : AttributesFit (plainTag name keys).closing false (plainTag name keys).attributes :=
    (attributesFit_iff_separated htrail hsound false).mpr
      (separated_of_lead_ne (List.forall_mem_map.mpr fun _ _ => List.cons_ne_nil _ _) false)
  exact ⟨⟨hname.1, hname.2, hfit.stops_isNameChar htrail⟩, hfit, htrail⟩

theorem splits_plainTag {name : String} {keys : List String} (hname : RunOf isNameChar name)
    (hkeys : ∀ key ∈ keys, RunOf isKeyChar key) :
    Splits (String.ofList (plainTag name keys).render) [.tag (plainTag name keys)] := by
  refine ⟨⟨fits_plainTag hname hkeys, trivial⟩, ?_⟩
  rw [render_cons, render_nil, List.append_nil, String.toList_ofList]
  rfl

/-- attributes without values -/
def keysOnly (keys : List String) : Attributes := Attributes.ofList (keys.map (⟨·, none⟩))

theorem partsOf_plainTag (name : String) (keys : List String) :
    partsOf [.tag (plainTag name keys)] = .tag name (keysOnly keys) ::
      keys.map fun key => .attr name ⟨key, none⟩ (keysOnly keys) := by
  have hname : (plainTag name keys).tagName = name := String.ofList_toList
  have hattr : ∀ key : String, AttributeText.attr ⟨[' '], key.toList, none⟩ = ⟨key, none⟩ := by
    intro key
    rw [AttributeText.attr, String.ofList_toList]
    rfl
  have hmap : (plainTag name keys).attributeMap = keysOnly keys := by
    rw [OpeningTag.attributeMap, plainTag, List.map_map]
    exact congrArg Attributes.ofList (List.map_congr_left fun key _ => hattr key)
  have hparts : partsOf [.tag (plainTag name keys)] = (plainTag name keys).parts :=
    List.flatMap_singleton ..
  rw [hparts, OpeningTag.parts, hname, hmap, plainTag, List.map_map]
  simp only [Function.comp_def, hattr]

/-- a tag with these keys alone is changed, or one of its attributes -/
def ChangesWith (r : Rule) (keys : List String) : Prop :=
  (r.onTag (keysOnly keys)).isSome = true ∨ ∃ key ∈ keys, (r.onAttr ⟨key, none⟩).isSome = true

theorem ChangesWith.exists_part {name : String} {keys : List String} (h : r.ChangesWith keys)
    (happlies : r.appliesTo name = true) :
    ∃ part ∈ partsOf [.tag (plainTag name keys)], (r.answer part).isSome = true := by
  rw [partsOf_plainTag]
  rcases h with htag | ⟨key, hkey, hattr⟩
  · exact ⟨_, List.mem_cons_self .., isSome_answer_iff.mpr ⟨happlies, htag⟩⟩
  · exact ⟨_, List.mem_cons_of_mem _ (List.mem_map_of_mem hkey),
      isSome_answer_iff.mpr ⟨happlies, hattr⟩⟩

theorem changesWith_singleton {key : String} (h : (r.onAttr ⟨key, none⟩).isSome = true) :
    r.ChangesWith [key] :=
  .inr ⟨key, List.mem_singleton.mpr rfl, h⟩

theorem Acts.exists_keys (h : r.Acts) :
    ∃ keys, (∀ key ∈ keys, RunOf isKeyChar key) ∧ r.ChangesWith keys := by
  cases h with
  | insert h hne => exact ⟨[], nofun, .inl (isSome_onTag_iff.mpr (.inl ⟨_, h, hne⟩))⟩
  | ensureClass h => exact ⟨[], nofun, .inl (isSome_onTag_iff.mpr (.inr ⟨_, h, rfl⟩))⟩
  | @remove key h hkey =>
    exact ⟨[key], List.forall_mem_singleton.mpr hkey,
      changesWith_singleton (isSome_onAttr_iff.mpr (.inl (removes_iff.mpr (.inl h))))⟩
  | @removePrefix p h hp =>
    -- any key with this beginning will do
    have hkey : RunOf isKeyChar (p ++ "k") := by
      rw [RunOf, String.toList_append]
      refine ⟨by simp, List.forall_mem_append.mpr ⟨hp, ?_⟩⟩
      exact List.forall_mem_singleton.mpr rfl
    have hstart : p.toList <+: (p ++ "k").toList := by
      rw [String.toList_append]
      exact List.prefix_append ..
    exact ⟨[p ++ "k"], List.forall_mem_singleton.mpr hkey,
      changesWith_singleton (isSome_onAttr_iff.mpr (.inl (removes_iff.mpr (.inr ⟨p, h, hstart⟩))))⟩
  | @rename key h hkey =>
    exact ⟨[key], List.forall_mem_singleton.mpr hkey,
      changesWith_singleton (isSome_onAttr_iff.mpr (.inr (.inl h)))⟩

theorem Effective.exists_name (h : r.Effective) :
    ∃ name, RunOf isNameChar name ∧ r.appliesTo name = true := by
  rcases h.tag with hnil | ⟨tag, htag, hname⟩
  · exact ⟨"a", ⟨by simp, List.all_eq_true.mp rfl⟩, appliesTo_iff.mpr (.inl hnil)⟩
  · exact ⟨tag, hname, appliesTo_iff.mpr (.inr htag)⟩

/-- the effective rules are those that change a part of some template -/
theorem effective_iff : r.Effective ↔ ∃ template ps, Splits template ps ∧
    ∃ part ∈ partsOf ps, (r.answer part).isSome = true := by
  constructor
  · intro h
    obtain ⟨name, hname, happlies⟩ := h.exists_name
    obtain ⟨keys, hkeys, hchange⟩ := h.acts.exists_keys
    exact ⟨_, _, splits_plainTag hname hkeys, hchange.exists_part happlies⟩
  · rintro ⟨template, ps, hps, part, hpart, h⟩
    exact effective_of_answer hps hpart h

end Rule

/-! ## runs -/

theorem decides_single {r : Rule} {part : Part} :
    Decides [r] 0 part ↔ (r.answer part).isSome = true := by
  rw [Option.isSome_iff_exists]
  constructor
  · rintro ⟨_, text, hr, h, _⟩
    cases hr
    exact ⟨text, h⟩
  · rintro ⟨text, h⟩
    exact ⟨r, text, rfl, h, fun _ j hj => absurd hj (Nat.not_lt_zero j)⟩

/-- a rule without effect has no hit in any run -/
theorem unused_of_not_effective {r : Rule} (h : ¬ r.Effective) (g : Graph β) (globals : Registry)
    (hits : List Nat) :
    0 ∈ unused (transform (RuleSet.instruction [r]) g globals hits).2 := by
  obtain ⟨result, hrun, _, _⟩ := transform_rules [r] g globals hits
  rw [hrun, mem_unused_iff]
  refine ⟨Nat.zero_lt_one, fun part c hmem hdecides => h ?_⟩
  obtain ⟨ps, hps, hpart⟩ := part_of_mem_presented hmem
  exact Rule.effective_of_answer (parse_ok_iff.mp hps) hpart (decides_single.mp hdecides)

/-- a rule has a hit in the run on a template that has a part which it changes -/
theorem used_of_answer {r : Rule} {template : String} {ps : List Piece}
    (hps : Splits template ps) {part : Part} (hpart : part ∈ partsOf ps)
    (h : (r.answer part).isSome = true) (base : β) (hits : List Nat) :
    ∃ out after, transform (RuleSet.instruction [r]) (Graph.single template base) Dict.empty hits =
      (.ok out, after) ∧ 0 ∉ unused after := by
  have hparse := parse_ok_iff.mpr hps
  have hscan : ∀ c ∈ (Graph.single template base).store.components,
      ∃ found, scan c.template = .ok found := by
    refine List.forall_mem_singleton.mpr ⟨_, scan_ok_iff.mpr ⟨ps, hps, rfl⟩⟩
  have hplan := (canonical_single template base).forM_plan hscan
  obtain ⟨result, hrun, _, hresult⟩ :=
    transform_rules [r] (Graph.single template base) Dict.empty hits
  rw [hplan] at hresult
  obtain ⟨out, rfl⟩ := map_unit_eq_ok_iff.mp hresult
  refine ⟨out, _, hrun, fun hunused => ?_⟩
  have hids : ((Graph.single template base).store.spanning 0).ids = [0] :=
    (canonical_single template base).ids_spanning
  have hroot : 0 ∈ ((Graph.single template base).store.spanning 0).ids :=
    hids ▸ List.mem_singleton_self 0
  have hpresent : ∀ a ∈ ((Graph.single template base).store.spanning 0).ids,
      (Graph.single template base).store.get? a ≠ none :=
    hids ▸ List.forall_mem_singleton.mpr nofun
  have hpresented : .replace part (Component.leaf template base) ∈
      presented (Graph.single template base) Dict.empty :=
    mem_presented hplan hpresent hroot rfl hparse hpart
  exact ((mem_unused_iff [r] _ _).mp hunused).2 part _ hpresented (decides_single.mpr h)

/-- Of the rules that the check lets pass, the effective ones are those that change something in a
run on some template that scans.  The others change nothing in any run. -/
theorem effective_iff_used {r : Rule} {set : RuleSet} (hset : RuleSet.ofRules [r] = .ok set) :
    (r.Effective ↔ ∃ template found out after, scan template = .ok found ∧
      transform (RuleSet.instruction set.rules) (Graph.single template ()) Dict.empty
        (RuleSet.noHits set.rules) = (.ok out, after) ∧ 0 ∉ unused after) ∧
    (¬ r.Effective → ∀ (g : Graph β) (globals : Registry) (hits : List Nat),
      0 ∈ unused (transform (RuleSet.instruction set.rules) g globals hits).2) := by
  obtain ⟨-, rfl⟩ := ofRules_eq_ok.mp hset
  refine ⟨⟨fun h => ?_, ?_⟩, unused_of_not_effective⟩
  · obtain ⟨template, ps, hps, part, hpart, hchange⟩ := Rule.effective_iff.mp h
    obtain ⟨out, after, hrun, hused⟩ := used_of_answer hps hpart hchange () (RuleSet.noHits [r])
    exact ⟨template, _, out, after, scan_ok_iff.mpr ⟨ps, hps, rfl⟩, hrun, hused⟩
  · rintro ⟨template, found, out, after, -, hrun, hused⟩
    by_contra h
    have hunused := unused_of_not_effective h (Graph.single template ()) Dict.empty
      (RuleSet.noHits [r])
    rw [hrun] at hunused
    exact hused hunused

/-- handlers of one tag go -/
def dropHandlers : Rule := ⟨["p"], none, [], ["@"], Dict.empty, none⟩

theorem dropHandlers_used : RuleSet.ofRules [dropHandlers] = .ok ⟨none, none, [dropHandlers]⟩ ∧
    ∃ template found out after, scan template = .ok found ∧
      transform (RuleSet.instruction [dropHandlers]) (Graph.single template ()) Dict.empty [0] =
        (.ok out, after) ∧ 0 ∉ unused after := by
  have hset : RuleSet.ofRules [dropHandlers] = .ok ⟨none, none, [dropHandlers]⟩ := by decide
  have heffective : dropHandlers.Effective :=
    ⟨.inr ⟨"p", List.mem_singleton.mpr rfl, by simp, List.all_eq_true.mp rfl⟩,
      .removePrefix (List.mem_singleton.mpr rfl) (List.all_eq_true.mp rfl)⟩
  exact ⟨hset, (effective_iff_used (β := Unit) hset).1.mp heffective⟩

/-- there is an action, but it inserts nothing -/
def insertNothing : Rule := ⟨[], some "", [], [], Dict.empty, none⟩

theorem not_accepted_used :
    ¬ ∀ (r : Rule) (set : RuleSet), RuleSet.ofRules [r] = .ok set →
      ∃ template found result after, scan template = .ok found ∧
        transform (RuleSet.instruction set.rules) (Graph.single template ()) Dict.empty
          (RuleSet.noHits set.rules) = (result, after) ∧ 0 ∉ unused after := by
  intro h
  have hset : RuleSet.ofRules [insertNothing] = .ok ⟨none, none, [insertNothing]⟩ := by decide
  obtain ⟨template, found, result, after, -, hrun, hused⟩ := h insertNothing _ hset
  have hidle : ¬ insertNothing.Effective := by
    rintro ⟨-, hacts⟩
    cases hacts with
    | insert h hne => exact hne (Option.some.inj h).symm
    | ensureClass h => cases h
    | remove h _ => cases h
    | removePrefix h _ => cases h
    | rename h _ => cases h
  have hunused := unused_of_not_effective hidle (Graph.single template ()) Dict.empty
    (RuleSet.noHits [insertNothing])
  rw [hrun] at hunused
  exact hused hunused

end Stencil
