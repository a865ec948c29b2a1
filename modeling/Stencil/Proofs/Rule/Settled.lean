import Stencil.Proofs.Rule.ClassWords

/-!
# One rule that sees to a class

An edit by such a rule writes the class where it is missing and leaves everything else.  After that
there is nothing left to do.

* `SeenTo`             what becomes of the attributes of a tag that the rule applies to;
* `SeenTo.settled`     the class is in all class attributes then, and there is one;
* `replies_settled`    rules have no answer for a tag that has all of their classes;
* `ensuring_settles`   an edit by the rule, and a second edit.
-/

namespace Stencil

open Stencil.Text Stencil.Markup

/-! ## what becomes of a tag -/

section
variable {α : Type} (attr : α → Attribute) (c : String)

/-- what becomes of an attribute, whose content is `attr` -/
inductive AttributeSeenTo : α → α → Prop
  | other {a : α} (h : (attr a).key ≠ "class") : AttributeSeenTo a a
  | listed {a : α} (h : (attr a).key = "class") (hword : c.toList ∈ (attr a).wordList) :
      AttributeSeenTo a a
  | added {a b : α} (h : (attr a).key = "class") (hword : c.toList ∉ (attr a).wordList)
      (hkey : (attr b).key = "class")
      (hwords : (attr b).wordList = c.toList :: (attr a).wordList) : AttributeSeenTo a b

/-- what becomes of the attributes of a tag: the class is put into class attributes, or into a new
one in front of all others if there are none -/
inductive SeenTo : List α → List α → Prop
  | inserted {old : List α} {b : α} (h : ∀ a ∈ old, (attr a).key ≠ "class")
      (hb : attr b = ⟨"class", some ("\"" ++ c ++ "\"")⟩) : SeenTo old (b :: old)
  | listed {old new : List α} (h : ∃ a ∈ old, (attr a).key = "class")
      (hall : List.Forall₂ (AttributeSeenTo attr c) old new) : SeenTo old new

end

section
variable {α : Type} {attr : α → Attribute} {c : String}

theorem AttributeSeenTo.content {a b : α} (h : AttributeSeenTo attr c a b) :
    AttributeSeenTo id c (attr a) (attr b) := by
  cases h with
  | other h => exact .other h
  | listed h hword => exact .listed h hword
  | added h hword hkey hwords => exact .added h hword hkey hwords

theorem SeenTo.content {old new : List α} (h : SeenTo attr c old new) :
    SeenTo id c (old.map attr) (new.map attr) := by
  cases h with
  | inserted h hb => exact .inserted (List.forall_mem_map.mpr h) hb
  | listed h hall =>
    obtain ⟨a, ha, hkey⟩ := h
    refine .listed ⟨attr a, List.mem_map_of_mem ha, hkey⟩ ?_
    rw [List.forall₂_map_left_iff, List.forall₂_map_right_iff]
    exact hall.imp fun _ _ => AttributeSeenTo.content

theorem AttributeSeenTo.settled {a b : α} (h : AttributeSeenTo attr c a b) :
    ((attr b).key = "class" ↔ (attr a).key = "class") ∧
      ((attr b).key = "class" → c.toList ∈ (attr b).wordList) := by
  cases h with
  | other h => exact ⟨Iff.rfl, fun hkey => absurd hkey h⟩
  | listed h hword => exact ⟨Iff.rfl, fun _ => hword⟩
  | added h hword hkey hwords =>
    exact ⟨iff_of_true hkey h, fun _ => hwords ▸ List.mem_cons_self ..⟩

theorem settled_of_forall₂ {old new : List α}
    (h : List.Forall₂ (AttributeSeenTo attr c) old new) :
    ((∃ b ∈ new, (attr b).key = "class") ↔ ∃ a ∈ old, (attr a).key = "class") ∧
      ∀ b ∈ new, (attr b).key = "class" → c.toList ∈ (attr b).wordList := by
  induction h with
  | nil => exact ⟨Iff.rfl, by simp⟩
  | cons hab _ ih =>
    obtain ⟨hkey, hword⟩ := hab.settled
    refine ⟨?_, List.forall_mem_cons.mpr ⟨hword, ih.2⟩⟩
    rw [List.exists_mem_cons_iff, List.exists_mem_cons_iff, hkey, ih.1]

/-- there is a class attribute, and the class is in all of them -/
theorem SeenTo.settled (hc : Rule.isClassName c = true) {old new : List α}
    (h : SeenTo attr c old new) :
    (∃ b ∈ new, (attr b).key = "class") ∧
      ∀ b ∈ new, (attr b).key = "class" → c.toList ∈ (attr b).wordList := by
  cases h with
  | @inserted b h hb =>
    have hwords : (attr b).wordList = [c.toList] := by
      obtain ⟨hne, hall⟩ := Rule.isClassName_iff.mp hc
      have hunquoted : (attr b).unquoted = some c := by
        rw [hb]
        simp [Attribute.unquoted, unquote_quoted]
      rw [Attribute.wordList, hunquoted]
      exact words_word hne fun x hx => (hall x hx).1
    refine ⟨⟨b, List.mem_cons_self .., by rw [hb]⟩, List.forall_mem_cons.mpr ⟨fun _ => ?_, ?_⟩⟩
    · exact hwords ▸ List.mem_singleton_self _
    · exact fun a ha hkey => absurd hkey (h a ha)
  | listed h hall =>
    obtain ⟨hkey, hword⟩ := settled_of_forall₂ hall
    exact ⟨hkey.mpr h, hword⟩

end

/-! ## what the rule writes -/

theorem ensured_nil (t : OpeningTag) : t.ensured [] = t.attributes := by
  have hsame : ∀ a : AttributeText, a.ensured [] = a := by
    intro a
    rw [AttributeText.ensured]
    exact ite_self a
  rw [OpeningTag.ensured, List.map_congr_left fun a _ => hsame a, List.map_id']
  split <;> rfl

theorem attributeSeenTo_ensured {c : String} (hc : Rule.isClassName c = true)
    (a : AttributeText) : AttributeSeenTo AttributeText.attr c a (a.ensured [c]) := by
  by_cases hkey : a.attr.key = "class"
  · by_cases hword : c.toList ∈ a.attr.wordList
    · have hsame : a.ensured [c] = a := by
        simp [AttributeText.ensured, firstMissing, hkey, hword]
      exact hsame.symm ▸ .listed hkey hword
    · have hwords := AttributeText.wordList_ensured (List.forall_mem_singleton.mpr hc) hkey
      have hfirst : firstMissing [c] a.attr = some c := by simp [firstMissing, hword]
      rw [hfirst] at hwords
      exact .added hkey hword ((AttributeText.key_ensured _ a).trans hkey) hwords
  · have hsame : a.ensured [c] = a := if_neg hkey
    exact hsame.symm ▸ .other hkey

theorem seenTo_ensured {c : String} (hc : Rule.isClassName c = true) (t : OpeningTag) :
    SeenTo AttributeText.attr c t.attributes (t.ensured [c]) := by
  rw [OpeningTag.ensured]
  by_cases hclass : t.attributeMap.contains "class" = true
  · rw [if_pos hclass, List.nil_append]
    obtain ⟨a, ha, hkey⟩ := contains_attributes.mp hclass
    obtain ⟨b, hb, rfl⟩ := List.mem_map.mp ha
    refine .listed ⟨b, hb, hkey⟩ ?_
    rw [List.forall₂_map_right_iff, List.forall₂_same]
    exact fun a _ => attributeSeenTo_ensured hc a
  · have hother : ∀ a ∈ t.attributes, a.attr.key ≠ "class" := fun a ha hkey =>
      hclass (contains_attributes.mpr ⟨a.attr, List.mem_map_of_mem ha, hkey⟩)
    have hsame : t.attributes.map (AttributeText.ensured [c]) = t.attributes :=
      (List.map_congr_left fun a ha => if_neg (hother a ha)).trans (List.map_id' _)
    have hnew : (AttributeText.ofClass c.toList).attr = ⟨"class", some ("\"" ++ c ++ "\"")⟩ := by
      rw [AttributeText.attr, AttributeText.ofClass]
      simp [← String.toList_inj]
    rw [if_neg hclass, hsame]
    exact .inserted hother hnew

/-! ## no answers -/

/-- rules have no answer for the parts of a tag that has their classes in all class attributes -/
theorem replies_settled {rules : List Rule} (hrules : EnsuringAll rules) {t : OpeningTag}
    (hclass : t.attributeMap.contains "class" = true ∨ ensuredClasses rules t.tagName = [])
    (hwords : ∀ c ∈ ensuredClasses rules t.tagName, ∀ a ∈ t.attributes, a.attr.key = "class" →
      c.toList ∈ a.attr.wordList) : ∀ part ∈ t.parts, reply rules part = none := by
  refine List.forall_mem_cons.mpr ⟨?_, List.forall_mem_map.mpr fun a ha => ?_⟩
  · -- nothing is inserted into a tag that has a class attribute or needs none
    rw [reply_tag, texts_ensuring_tag hrules]
    rcases hclass with hclass | hclasses
    · rw [if_pos hclass, if_pos rfl]
    · rw [hclasses, List.map_nil, ite_self, if_pos rfl]
  · rw [reply_attr_ensuring hrules]
    by_cases hkey : a.attr.key = "class"
    · have hfirst : firstMissing (ensuredClasses rules t.tagName) a.attr = none := by
        refine List.find?_eq_none.mpr fun c hc => ?_
        simpa using hwords c hc a ha hkey
      rw [hfirst, Option.map_none, ite_self]
    · exact if_neg hkey

theorem run_editTemplate_of_no_reply {β : Type} {rules : List Rule} {template : String}
    {ps : List Piece} (hps : parse template = .ok ps)
    (h : ∀ t ∈ openingTags ps, ∀ part ∈ t.parts, reply rules part = none)
    (component : Component β) (hits : List Nat) :
    ∃ after, (editTemplate (RuleSet.instruction rules) component template).run.run hits =
      (.ok template, after) := by
  obtain ⟨after, hask⟩ := run_askAll_rules rules component ps hits
  have hnone : replies rules ps = (openingTags ps).map fun t => t.parts.map fun _ => none :=
    List.map_congr_left fun t ht => List.map_congr_left fun part hpart => h t ht part hpart
  refine ⟨after, ?_⟩
  rw [run_editTemplate_ok hps hask, hnone, putAll_declined, (parse_ok_iff.mp hps).2,
    String.ofList_toList]

/-! ## one rule -/

theorem ensuredClasses_single (tags : List String) (c name : String) :
    ensuredClasses [Rule.ensuring tags c] name =
      if (Rule.ensuring tags c).appliesTo name then [c] else [] := by
  rw [ensuredClasses, List.filterMap_cons, Rule.ensuredClass]
  split <;> split <;> simp_all [Rule.ensuring]

/-- the attributes of a tag after the rule -/
theorem ensured_single {c : String} (hc : Rule.isClassName c = true) (tags : List String)
    (t : OpeningTag) :
    if (Rule.ensuring tags c).appliesTo t.tagName
      then SeenTo AttributeText.attr c t.attributes
        (t.ensured (ensuredClasses [Rule.ensuring tags c] t.tagName))
      else t.ensured (ensuredClasses [Rule.ensuring tags c] t.tagName) = t.attributes := by
  rw [ensuredClasses_single]
  split
  · exact seenTo_ensured hc t
  · exact ensured_nil t

/-- and the rule has no answer for a tag with these attributes -/
theorem replies_ensured_single {c : String} (hc : Rule.isClassName c = true) (tags : List String)
    (t : OpeningTag) :
    ∀ part ∈ OpeningTag.parts
      { t with attributes := t.ensured (ensuredClasses [Rule.ensuring tags c] t.tagName) },
      reply [Rule.ensuring tags c] part = none := by
  have hrules : EnsuringAll [Rule.ensuring tags c] :=
    List.forall_mem_singleton.mpr ⟨tags, c, rfl, hc⟩
  have htag := ensured_single hc tags t
  have hclasses := ensuredClasses_single tags c t.tagName
  by_cases happlies : (Rule.ensuring tags c).appliesTo t.tagName = true
  · rw [if_pos happlies] at htag hclasses
    obtain ⟨⟨a, ha, hkey⟩, hwords⟩ := htag.settled hc
    refine replies_settled hrules (.inl ?_) fun d hd => ?_
    · exact contains_attributes.mpr ⟨a.attr, List.mem_map_of_mem ha, hkey⟩
    · replace hd : d ∈ ensuredClasses [Rule.ensuring tags c] t.tagName := hd
      rw [hclasses, List.mem_singleton] at hd
      exact hd ▸ hwords
  · rw [if_neg happlies] at hclasses
    refine replies_settled hrules (.inr hclasses) fun d hd => ?_
    replace hd : d ∈ ensuredClasses [Rule.ensuring tags c] t.tagName := hd
    rw [hclasses] at hd
    cases hd

/-- A rule that sees to a class leaves all pieces of a template but the attributes of the tags that
it applies to.  There the class is put into the class attributes that have it not, or into a new
one.  A second edit gives the same text. -/
theorem ensuring_settles {β : Type} {tags : List String} {c : String} {set : RuleSet}
    {template : String} {found : List ScannedTag}
    (hset : RuleSet.ofRules [Rule.ensuring tags c] = .ok set) (hscan : scan template = .ok found)
    (component : Component β) (hits : List Nat) :
    ∃ ps ls out after found', parse template = .ok ps ∧
      (editTemplate (RuleSet.instruction set.rules) component template).run.run hits =
        (.ok out, after) ∧
      parse out = .ok (withAttributes ps ls) ∧ scan out = .ok found' ∧
      List.Forall₂ (fun t l => if (Rule.ensuring tags c).appliesTo t.tagName
        then SeenTo AttributeText.attr c t.attributes l else l = t.attributes)
        (openingTags ps) ls ∧
      List.Forall₂ (fun s s' => if (Rule.ensuring tags c).appliesTo s.name
        then s'.name = s.name ∧ SeenTo id c (s.attributes.map SpannedAttribute.attr)
          (s'.attributes.map SpannedAttribute.attr)
        else s'.content = s.content) found found' ∧
      ∀ hits', ∃ after',
        (editTemplate (RuleSet.instruction set.rules) component out).run.run hits' =
          (.ok out, after') := by
  have hrules := ensuringAll_of_ofRules (List.forall_mem_singleton.mpr ⟨tags, c, rfl⟩) hset
  obtain ⟨-, rfl⟩ := ofRules_eq_ok.mp hset
  have hc : Rule.isClassName c = true := by
    obtain ⟨_, _, hrule, hc⟩ := List.forall_mem_singleton.mp hrules
    cases hrule
    exact hc
  obtain ⟨ps, hps, rfl⟩ := scan_ok_iff.mp hscan
  have hparse := parse_ok_iff.mpr hps
  obtain ⟨out, after, hrun, hout⟩ := run_editTemplate_ensuring hrules hparse component hits
  refine ⟨ps, _, out, after, _, hparse, hrun, hout, scan_ok_iff.mpr ⟨_, parse_ok_iff.mp hout, rfl⟩,
    ?_, ?_, run_editTemplate_of_no_reply hout ?_ component⟩
  · rw [List.forall₂_map_right_iff, List.forall₂_same]
    exact fun t _ => ensured_single hc tags t
  · refine forall₂_of_contents (contents_tagsFrom 0 ps)
      (contents_ensuredPieces [Rule.ensuring tags c] ps) fun t _ s s' hs hs' => ?_
    obtain ⟨hname, hattributes⟩ := Prod.mk.inj hs
    obtain ⟨hname', hattributes'⟩ := Prod.mk.inj hs'
    have htag := ensured_single hc tags t
    rw [hname, hattributes, hattributes']
    split
    · rw [if_pos ‹_›] at htag
      exact ⟨hname', htag.content⟩
    · rw [if_neg ‹_›] at htag
      rw [hs, hs', OpeningTag.content, htag]
      rfl
  · rw [openingTags_ensuredPieces]
    exact List.forall_mem_map.mpr fun t _ => replies_ensured_single hc tags t

/-- tags without a class attribute, with one that has no value, with two of them side by side, and
one that the rule is not for -/
def classKinds : List ScannedTag :=
  [⟨"p", 2, []⟩, ⟨"p", 5, [⟨⟨"class", none⟩, 5, 11⟩]⟩,
    ⟨"p", 14, [⟨⟨"class", some "\" b \""⟩, 14, 26⟩, ⟨⟨"class", some "\"a\""⟩, 26, 35⟩]⟩,
    ⟨"i", 39, []⟩]

theorem ensuring_settles_kinds :
    RuleSet.ofRules [Rule.ensuring ["p"] "a"] = .ok ⟨none, none, [Rule.ensuring ["p"] "a"]⟩ ∧
    scan "<p><p class><p class=\" b \"class=\"a\"/><i>" = .ok classKinds ∧
    ∃ out after found, (editTemplate (RuleSet.instruction [Rule.ensuring ["p"] "a"]) bare
        "<p><p class><p class=\" b \"class=\"a\"/><i>").run.run [0] = (.ok out, after) ∧
      scan out = .ok found ∧ found.length = 4 ∧
      ∀ hits, ∃ after', (editTemplate (RuleSet.instruction [Rule.ensuring ["p"] "a"]) bare
        out).run.run hits = (.ok out, after') := by
  have hset : RuleSet.ofRules [Rule.ensuring ["p"] "a"] =
      .ok ⟨none, none, [Rule.ensuring ["p"] "a"]⟩ := by decide +kernel
  have hscan : scan "<p><p class><p class=\" b \"class=\"a\"/><i>" = .ok classKinds := by
    decide +kernel
  obtain ⟨_, _, out, after, found, _, hrun, _, hfound, _, htags, hagain⟩ :=
    ensuring_settles hset hscan bare [0]
  exact ⟨hset, hscan, out, after, found, hrun, hfound, htags.length_eq.symm, hagain⟩

end Stencil
