import Stencil.Proofs.Rule.Reply
import Stencil.Proofs.Text.Words

/-!
# Rules that see to classes

A rule that does no more than see to a class writes class attributes, behind the name of a tag or in
the place of those that the tag has.

* `Rule.ensuring`               the rule that sees to a class and does nothing else;
* `ensuredClasses`              the classes of all rules that apply to a tag;
* `OpeningTag.ensured`          the attributes of a tag after rules have seen to some classes;
* `words_withWord`              the words of a class attribute after that;
* `run_editTemplate_ensuring`   an edit gives a template of the same pieces with these attributes.
-/

namespace Stencil

open Stencil.Text Stencil.Markup

/-! ## class lists -/

/-- the words of the value of an attribute -/
def Markup.Attribute.wordList (a : Attribute) : List (List Char) :=
  words (a.unquoted.getD "").toList

/-- a word in front of the others -/
def withWord (c : String) (a : Attribute) : List Char :=
  if isAllBlank (a.unquoted.getD "").toList then c.toList
  else c.toList ++ ' ' :: (a.unquoted.getD "").toList

/-- the first of some classes that is not among the words of an attribute -/
def firstMissing (classes : List String) (a : Attribute) : Option String :=
  classes.find? fun c => !a.wordList.contains c.toList

/-! ## rules -/

namespace Rule

theorem withClass_eq (c : String) (a : Attribute) :
    withClass c a = if a.wordList.contains c.toList then none
      else some (classText (String.ofList (withWord c a))) := by
  by_cases hword : a.wordList.contains c.toList = true
  · rw [if_pos hword]
    exact if_pos hword
  · rw [if_neg hword, withWord]
    refine (if_neg hword).trans ?_
    by_cases hblank : isAllBlank (a.unquoted.getD "").toList = true
    · rw [if_pos hblank, if_pos hblank, String.ofList_toList]
    · have htext : String.join [c, " ", a.unquoted.getD ""] =
          String.ofList (c.toList ++ ' ' :: (a.unquoted.getD "").toList) := by
        simp
      rw [if_neg hblank, if_neg hblank, htext]

/-- only the classes that are missing have a text -/
theorem filterMap_withClass (classes : List String) (a : Attribute) :
    classes.filterMap (withClass · a) =
      (classes.filter fun c => !a.wordList.contains c.toList).map
        fun c => classText (String.ofList (withWord c a)) := by
  induction classes with
  | nil => rfl
  | cons c classes ih =>
    rw [List.filterMap_cons, List.filter_cons, withClass_eq, ih]
    cases a.wordList.contains c.toList <;> rfl

/-- the rule that does nothing else than to see to it that the class `c` is there -/
def ensuring (tags : List String) (c : String) : Rule := ⟨tags, none, [], [], Dict.empty, some c⟩

/-- the class that has to be there in a tag -/
def ensuredClass (r : Rule) (tag : String) : Option String :=
  if r.appliesTo tag then r.ensureClass else none

theorem answer_ensuring_tag (tags : List String) (c name : String) (m : Attributes) :
    (ensuring tags c).answer (.tag name m) =
      if m.contains "class" then none else ((ensuring tags c).ensuredClass name).map classText := by
  have htext : (classText c).isEmpty = false :=
    String.isEmpty_eq_false_iff.mpr (by simp [classText])
  by_cases happlies : (ensuring tags c).appliesTo name = true
  · rw [answer, ensuredClass, Part.tagName, if_pos happlies, if_pos happlies]
    by_cases hclass : m.contains "class" = true
    · simp [onTag, ensuring, hclass]
    · simp [onTag, ensuring, hclass, htext]
  · rw [answer, ensuredClass, Part.tagName, if_neg happlies, if_neg happlies, Option.map_none,
      ite_self]

theorem answer_ensuring_attr (tags : List String) (c name : String) (a : Attribute)
    (m : Attributes) :
    (ensuring tags c).answer (.attr name a m) =
      if a.key = "class" then ((ensuring tags c).ensuredClass name).bind (withClass · a)
      else none := by
  have hget : (Dict.empty : Dict String).get? a.key = none := rfl
  by_cases happlies : (ensuring tags c).appliesTo name = true
  · rw [answer, ensuredClass, Part.tagName, if_pos happlies, if_pos happlies]
    simp [onAttr, ensuring, removes, hget]
  · rw [answer, ensuredClass, Part.tagName, if_neg happlies, if_neg happlies, Option.bind_none,
      ite_self]

end Rule

/-- rules that see to classes, each of which can stand in a class list -/
def EnsuringAll (rules : List Rule) : Prop :=
  ∀ r ∈ rules, ∃ tags c, r = Rule.ensuring tags c ∧ Rule.isClassName c = true

/-- the classes that have to be there in a tag, in the order of the rules -/
def ensuredClasses (rules : List Rule) (tag : String) : List String :=
  rules.filterMap fun r => r.ensuredClass tag

section
variable {rules : List Rule} (hrules : EnsuringAll rules)

include hrules

theorem texts_ensuring_tag (name : String) (m : Attributes) :
    rules.filterMap (Rule.answer · (.tag name m)) =
      if m.contains "class" then [] else (ensuredClasses rules name).map Rule.classText := by
  have hanswers : rules.filterMap (Rule.answer · (.tag name m)) = rules.filterMap fun r =>
      if m.contains "class" then none else (r.ensuredClass name).map Rule.classText := by
    refine List.filterMap_congr fun r hr => ?_
    obtain ⟨tags, c, rfl, -⟩ := hrules r hr
    exact Rule.answer_ensuring_tag tags c name m
  rw [hanswers, ensuredClasses, List.map_filterMap]
  split
  · simp
  · rfl

theorem texts_ensuring_attr (name : String) (a : Attribute) (m : Attributes) :
    rules.filterMap (Rule.answer · (.attr name a m)) =
      if a.key = "class" then (ensuredClasses rules name).filterMap (Rule.withClass · a)
      else [] := by
  have hanswers : rules.filterMap (Rule.answer · (.attr name a m)) = rules.filterMap fun r =>
      if a.key = "class" then (r.ensuredClass name).bind (Rule.withClass · a) else none := by
    refine List.filterMap_congr fun r hr => ?_
    obtain ⟨tags, c, rfl, -⟩ := hrules r hr
    exact Rule.answer_ensuring_attr tags c name a m
  rw [hanswers, ensuredClasses, List.filterMap_filterMap]
  split
  · rfl
  · simp

theorem reply_attr_ensuring (name : String) (a : Attribute) (m : Attributes) :
    reply rules (.attr name a m) =
      if a.key = "class" then
        (firstMissing (ensuredClasses rules name) a).map
          fun c => Rule.classText (String.ofList (withWord c a))
      else none := by
  rw [reply_attr, texts_ensuring_attr hrules]
  split
  · -- the first text is the one for the first class that is missing
    rw [Rule.filterMap_withClass, List.head?_map, List.head?_filter, firstMissing]
  · rfl

end

/-! ## written attributes -/

namespace Rule

theorem isClassName_iff {c : String} : isClassName c = true ↔
    c.toList ≠ [] ∧ ∀ x ∈ c.toList, isBlank x = false ∧ notQuote x = true := by
  simp [isClassName, notQuote]

end Rule

theorem words_withWord {c : String} (hc : Rule.isClassName c = true) (a : Attribute) :
    words (withWord c a) = c.toList :: a.wordList := by
  obtain ⟨hne, hall⟩ := Rule.isClassName_iff.mp hc
  have hblank : ∀ x ∈ c.toList, isBlank x = false := fun x hx => (hall x hx).1
  rw [withWord, Attribute.wordList]
  split
  · rename_i hall
    rw [words_word hne hblank, words_of_isAllBlank hall]
  · exact words_word_blank hne hblank (by decide) _

namespace Markup.AttributeText

/-- a class attribute as a rule writes it -/
def ofClass (value : List Char) : AttributeText :=
  ⟨[' '], "class".toList, some ⟨[], [], '"' :: (value ++ ['"'])⟩⟩

theorem unquoted_ofClass (value : List Char) :
    (ofClass value).attr.unquoted = some (String.ofList value) := by
  simp [ofClass, attr, Attribute.unquoted, unquote_quoted]

theorem wordList_ofClass (value : List Char) : (ofClass value).attr.wordList = words value := by
  rw [Attribute.wordList, unquoted_ofClass, Option.getD_some, String.toList_ofList]

theorem key_ofClass (value : List Char) : (ofClass value).attr.key = "class" := rfl

theorem listText_ofClass {value : List Char} (h : ∀ c ∈ value, notQuote c = true) :
    ListText (Rule.classText (String.ofList value)) [ofClass value] := by
  have hkey : ∀ c ∈ "class".toList, isKeyChar c = true := List.all_eq_true.mp rfl
  have hsound : (ofClass value).Sound := by
    refine ⟨List.forall_mem_singleton.mpr rfl, List.cons_ne_nil _ _, hkey, fun v hv => ?_⟩
    cases hv
    exact ⟨by simp, by simp, value, h, rfl⟩
  refine ⟨?_, List.forall_mem_singleton.mpr ⟨hsound, List.cons_ne_nil _ _⟩⟩
  simp [Rule.classText, renderAll, render, ofClass, ValueText.render]

/-- there is no quote in what stands between quotes -/
theorem Sound.notQuote_unquoted {a : AttributeText} (h : a.Sound) :
    ∀ c ∈ (a.attr.unquoted.getD "").toList, notQuote c = true := by
  obtain ⟨lead, key, value⟩ := a
  cases value with
  | none => simp [attr, Attribute.unquoted]
  | some v =>
    obtain ⟨inner, hinner, hquoted⟩ := (h.value v rfl).quoted
    simpa [attr, Attribute.unquoted, hquoted, unquote_quoted] using hinner

theorem Sound.notQuote_withWord {a : AttributeText} (h : a.Sound) {c : String}
    (hc : Rule.isClassName c = true) : ∀ x ∈ withWord c a.attr, notQuote x = true := by
  have hword : ∀ x ∈ c.toList, notQuote x = true := fun x hx =>
    ((Rule.isClassName_iff.mp hc).2 x hx).2
  rw [withWord]
  split
  · exact hword
  · exact List.forall_mem_append.mpr
      ⟨hword, List.forall_mem_cons.mpr ⟨by decide, h.notQuote_unquoted⟩⟩

/-- an attribute after rules have seen to some classes -/
def ensured (classes : List String) (a : AttributeText) : AttributeText :=
  if a.attr.key = "class" then
    match firstMissing classes a.attr with
    | some c => ofClass (withWord c a.attr)
    | none => a
  else a

end Markup.AttributeText

/-- the class attributes that rules write into a tag without one -/
def newClasses (classes : List String) : List AttributeText :=
  classes.map fun c => AttributeText.ofClass c.toList

/-- the attributes of a tag after rules have seen to some classes -/
def Markup.OpeningTag.ensured (classes : List String) (t : OpeningTag) : List AttributeText :=
  (if t.attributeMap.contains "class" then [] else newClasses classes) ++
    t.attributes.map (AttributeText.ensured classes)

theorem separated_ensured {t : OpeningTag} (h : t.Fits) (classes : List String) :
    Separated false (t.ensured classes) := by
  -- what a rule writes has a blank in front and a value, so that it can stand next to anything
  refine Separated.append (fun a ha => ?_) (Separated.map (fun a => ?_) h.separated)
  · split at ha
    · cases ha
    · obtain ⟨c, -, rfl⟩ := List.mem_map.mp ha
      exact ⟨List.cons_ne_nil _ _, rfl⟩
  · rw [AttributeText.ensured]
    split
    · split
      · exact .inr ⟨List.cons_ne_nil _ _, rfl⟩
      · exact .inl rfl
    · exact .inl rfl

theorem listText_newClasses {classes : List String}
    (h : ∀ c ∈ classes, Rule.isClassName c = true) :
    ListText (String.join (classes.map Rule.classText)) (newClasses classes) := by
  induction classes with
  | nil => exact listText_empty
  | cons c classes ih =>
    obtain ⟨hc, hrest⟩ := List.forall_mem_cons.mp h
    have hnew := AttributeText.listText_ofClass fun x hx =>
      ((Rule.isClassName_iff.mp hc).2 x hx).2
    rw [String.ofList_toList] at hnew
    refine ⟨?_, List.forall_mem_cons.mpr ⟨hnew.2 _ (List.mem_singleton_self _), (ih hrest).2⟩⟩
    rw [List.map_cons, String.join_cons, String.toList_append, (ih hrest).1, hnew.1]
    exact (renderAll_append [_] _).symm

section
variable {rules : List Rule} (hrules : EnsuringAll rules)

include hrules

theorem isClassName_of_ensured (name : String) :
    ∀ c ∈ ensuredClasses rules name, Rule.isClassName c = true := by
  intro c hc
  obtain ⟨r, hr, hclass⟩ := List.mem_filterMap.mp hc
  obtain ⟨tags, d, rfl, hd⟩ := hrules r hr
  rw [Rule.ensuredClass] at hclass
  obtain ⟨-, hsome⟩ := Option.ite_none_right_eq_some.mp hclass
  rwa [← Option.some.inj hsome]

theorem written_newClasses (name : String) (m : Attributes) :
    Written [] (reply rules (.tag name m))
      (if m.contains "class" then [] else newClasses (ensuredClasses rules name)) := by
  rw [reply_tag, texts_ensuring_tag hrules]
  split
  · exact .kept
  · cases hclasses : ensuredClasses rules name with
    | nil => exact .kept
    | cons c classes =>
      rw [if_neg (by simp), ← hclasses]
      exact .text (listText_newClasses (isClassName_of_ensured hrules name))

theorem written_ensured {a : AttributeText} (ha : a.Sound) (name : String) (m : Attributes) :
    Written [a] (reply rules (.attr name a.attr m)) [a.ensured (ensuredClasses rules name)] := by
  rw [reply_attr_ensuring hrules, AttributeText.ensured]
  split
  · cases hfirst : firstMissing (ensuredClasses rules name) a.attr with
    | none => exact .kept
    | some c =>
      have hc := isClassName_of_ensured hrules name c (List.mem_of_find?_eq_some hfirst)
      exact .text (AttributeText.listText_ofClass (ha.notQuote_withWord hc))
  · exact .kept

theorem writtenAll_ensured {t : OpeningTag} (ht : ∀ a ∈ t.attributes, a.Sound) :
    WrittenAll t.owned (t.parts.map (reply rules))
      (t.ensured (ensuredClasses rules t.tagName)) := by
  refine .cons (written_newClasses hrules _ _) ?_
  rw [List.map_map]
  exact writtenAll_map fun a ha => written_ensured hrules (ht a ha) _ _

theorem filled_ensured {ps : List Piece} (hps : WellFormed ps) :
    Filled (openingTags ps) (replies rules ps)
      ((openingTags ps).map fun t => t.ensured (ensuredClasses rules t.tagName)) :=
  filled_map fun t ht => writtenAll_ensured hrules (hps.fits t ht).attributes.sound

end

/-! ## templates -/

/-- the pieces of a template after rules have seen to classes -/
def ensuredPieces (rules : List Rule) (ps : List Piece) : List Piece :=
  withAttributes ps ((openingTags ps).map fun t => t.ensured (ensuredClasses rules t.tagName))

theorem openingTags_ensuredPieces (rules : List Rule) (ps : List Piece) :
    openingTags (ensuredPieces rules ps) = (openingTags ps).map fun t =>
      { t with attributes := t.ensured (ensuredClasses rules t.tagName) } := by
  rw [ensuredPieces, openingTags_withAttributes (List.length_map _), List.zipWith_map_right,
    List.zipWith_self]

theorem contents_ensuredPieces (rules : List Rule) (ps : List Piece) :
    (tagsFrom 0 (ensuredPieces rules ps)).map ScannedTag.content =
      ((openingTags ps).map fun t =>
        { t with attributes := t.ensured (ensuredClasses rules t.tagName) }).map
          OpeningTag.content := by
  rw [contents_tagsFrom, openingTags_ensuredPieces]

/-- rules that see to classes leave a template of the same pieces -/
theorem run_editTemplate_ensuring {β : Type} {rules : List Rule} (hrules : EnsuringAll rules)
    {template : String} {ps : List Piece} (hps : parse template = .ok ps) (c : Component β)
    (hits : List Nat) :
    ∃ out after, (editTemplate (RuleSet.instruction rules) c template).run.run hits =
        (.ok out, after) ∧ parse out = .ok (ensuredPieces rules ps) := by
  obtain ⟨after, hask⟩ := run_askAll_rules rules c ps hits
  have hwell := (parse_ok_iff.mp hps).1
  have hfilled := filled_ensured hrules hwell
  refine ⟨_, after, run_editTemplate_ok hps hask, parse_ok_iff.mpr (hfilled.splits hwell ?_)⟩
  intro l hl
  obtain ⟨t, ht, rfl⟩ := List.mem_map.mp hl
  exact separated_ensured (hwell.fits t ht) _

end Stencil
