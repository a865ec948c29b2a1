import Mathlib.Data.List.Forall2
import Stencil.Proofs.Markup.AttributeMap
import Stencil.Proofs.Rule.Ensure
import Stencil.Proofs.Rule.Unused

/-!
# The class value of a tag after an edit

The class value of a tag is that of its last class attribute.  Of the classes that rules see to, it
gets the first one that it has not.

* `Attributes.classWords`   the words of the class value;
* `lastWith`                the last attribute with a key;
* `get?_attributes`         the attributes of a tag by key have its value;
* `classWords_ensured`      the class value after rules have seen to some classes;
* `ensured_word_iff`        which of the classes are in the class value then.
-/

namespace Stencil

open Stencil.Text Stencil.Markup

/-! ## class values -/

/-- the words of the class value among the attributes of a tag -/
def Markup.Attributes.classWords (m : Attributes) : List (List Char) :=
  words ((m.valueOf "class").getD "").toList

/-- the last attribute with a key -/
def lastWith (key : String) (l : List Attribute) : Option Attribute :=
  l.reverse.find? fun a => a.key == key

theorem lastWith_append (key : String) (l r : List Attribute) :
    lastWith key (l ++ r) = (lastWith key r).or (lastWith key l) := by
  rw [lastWith, List.reverse_append, List.find?_append]
  rfl

theorem lastWith_map {α : Type} (key : String) (f : α → Attribute) (l : List α) :
    lastWith key (l.map f) = (l.reverse.find? fun a => (f a).key == key).map f := by
  rw [lastWith, ← List.map_reverse, List.find?_map]
  rfl

theorem lookup_attributes (l : List Attribute) (key : String) :
    (l.map Attribute.entry).lookup key =
      (l.find? fun a => a.key == key).map Attribute.value := by
  induction l with
  | nil => rfl
  | cons a l ih =>
    rw [List.map_cons, Attribute.entry, List.lookup_cons, List.find?_cons, ih, Bool.beq_comm]
    cases a.key == key <;> rfl

theorem get?_attributes (l : List Attribute) (key : String) :
    (Attributes.ofList l).get? key = (lastWith key l).map Attribute.value := by
  rw [Attributes.ofList_eq, Dict.get?_ofList, ← List.map_reverse, lookup_attributes]
  rfl

theorem contains_attributes {l : List Attribute} {key : String} :
    (Attributes.ofList l).contains key = true ↔ ∃ a ∈ l, a.key = key := by
  rw [Dict.contains, get?_attributes, Option.isSome_map, lastWith, List.find?_isSome]
  simp

theorem classWords_ofList (l : List Attribute) :
    (Attributes.ofList l).classWords = ((lastWith "class" l).map Attribute.wordList).getD [] := by
  rw [Attributes.classWords, Attributes.valueOf, Attributes.find?, get?_attributes]
  cases lastWith "class" l <;> rfl

/-! ## the class value after an edit -/

namespace Markup.AttributeText

theorem key_ensured (classes : List String) (a : AttributeText) :
    (a.ensured classes).attr.key = a.attr.key := by
  rw [ensured]
  split
  · rename_i hkey
    rw [hkey]
    split <;> [exact key_ofClass _; exact hkey]
  · rfl

theorem wordList_ensured {classes : List String} (h : ∀ c ∈ classes, Rule.isClassName c = true)
    {a : AttributeText} (hkey : a.attr.key = "class") :
    (a.ensured classes).attr.wordList =
      ((firstMissing classes a.attr).map String.toList).toList ++ a.attr.wordList := by
  rw [ensured, if_pos hkey]
  cases hfirst : firstMissing classes a.attr with
  | none => rfl
  | some c =>
    have hc := h c (List.mem_of_find?_eq_some hfirst)
    exact (wordList_ofClass _).trans (words_withWord hc a.attr)

end Markup.AttributeText

theorem classWords_newClasses {classes : List String}
    (h : ∀ c ∈ classes, Rule.isClassName c = true) :
    ((lastWith "class" ((newClasses classes).map AttributeText.attr)).map
      Attribute.wordList).getD [] = (classes.getLast?.map String.toList).toList := by
  rw [lastWith_map]
  rcases List.eq_nil_or_concat classes with rfl | ⟨rest, c, rfl⟩
  · rfl
  · obtain ⟨hne, hall⟩ := Rule.isClassName_iff.mp (h c (by simp))
    have hwords := words_word hne fun x hx => (hall x hx).1
    have hkey := AttributeText.key_ofClass c.toList
    simp [newClasses, hkey, AttributeText.wordList_ofClass, hwords]

/-- the class value of a tag after rules have seen to some classes -/
theorem classWords_ensured {classes : List String} (h : ∀ c ∈ classes, Rule.isClassName c = true)
    (t : OpeningTag) :
    (Attributes.ofList ((t.ensured classes).map AttributeText.attr)).classWords =
      if t.attributeMap.contains "class" then
        ((classes.find? fun c => !t.attributeMap.classWords.contains c.toList).map
          String.toList).toList ++ t.attributeMap.classWords
      else (classes.getLast?.map String.toList).toList := by
  have hlast : lastWith "class" (t.attributes.map AttributeText.attr) =
      (t.attributes.reverse.find? fun a => a.attr.key == "class").map AttributeText.attr :=
    lastWith_map "class" AttributeText.attr t.attributes
  -- the last class attribute stays the last one, behind all that are inserted
  rw [OpeningTag.attributeMap, classWords_ofList, classWords_ofList, OpeningTag.ensured,
    List.map_append, List.map_map, lastWith_append, lastWith_map]
  simp only [Function.comp_def, AttributeText.key_ensured]
  rw [hlast, OpeningTag.attributeMap, Dict.contains, get?_attributes, hlast]
  cases hfind : t.attributes.reverse.find? fun a => a.attr.key == "class" with
  | none => exact classWords_newClasses h
  | some a =>
    have hkey := List.find?_some hfind
    rw [beq_iff_eq] at hkey
    exact AttributeText.wordList_ensured h hkey

/-! ## the tags after an edit -/

/-- what is known of tags and what becomes of them is known of what scans find -/
theorem forall₂_of_contents {R : ScannedTag → ScannedTag → Prop} {ts : List OpeningTag}
    {new : OpeningTag → OpeningTag} {found found' : List ScannedTag}
    (hfound : found.map ScannedTag.content = ts.map OpeningTag.content)
    (hfound' : found'.map ScannedTag.content = (ts.map new).map OpeningTag.content)
    (h : ∀ t ∈ ts, ∀ s s', s.content = t.content → s'.content = (new t).content → R s s') :
    List.Forall₂ R found found' := by
  induction ts generalizing found found' with
  | nil =>
    obtain rfl := List.map_eq_nil_iff.mp hfound
    obtain rfl := List.map_eq_nil_iff.mp hfound'
    exact .nil
  | cons t ts ih =>
    obtain ⟨s, found, rfl, hs, hfound⟩ := List.map_eq_cons_iff.mp hfound
    obtain ⟨s', found', rfl, hs', hfound'⟩ := List.map_eq_cons_iff.mp hfound'
    exact .cons (h t (List.mem_cons_self ..) s s' hs hs')
      (ih hfound hfound' fun u hu => h u (List.mem_cons_of_mem _ hu))

theorem ensuringAll_of_ofRules {rules : List Rule} {set : RuleSet}
    (honly : ∀ r ∈ rules, ∃ tags c, r = Rule.ensuring tags c)
    (hset : RuleSet.ofRules rules = .ok set) : EnsuringAll rules := by
  intro r hr
  obtain ⟨tags, c, rfl⟩ := honly r hr
  have hcheck := (ofRules_eq_ok.mp hset).1 _ hr
  refine ⟨tags, c, rfl, ?_⟩
  cases hclass : Rule.isClassName c with
  | true => rfl
  | false => simp [Rule.check, Rule.ensuring, Rule.hasAction, hclass] at hcheck

theorem mem_toList_map {o : Option String} {c : String} :
    c.toList ∈ (o.map String.toList).toList ↔ o = some c := by
  cases o with
  | none => simp
  | some d => simp [String.toList_inj, eq_comm]

/-- Rules that see to classes leave the tags with their names.  In a tag with a class attribute, its
class value gets the first class that it has not, of those that the rules see to, and keeps its own.
In another tag, its class value is the class of the last rule. -/
theorem ensured_word_iff {β : Type} {rules : List Rule} {set : RuleSet} {template : String}
    {found : List ScannedTag} (honly : ∀ r ∈ rules, ∃ tags c, r = Rule.ensuring tags c)
    (hset : RuleSet.ofRules rules = .ok set) (hscan : scan template = .ok found)
    (component : Component β) (hits : List Nat) :
    ∃ out after found', (editTemplate (RuleSet.instruction set.rules) component template).run.run
        hits = (.ok out, after) ∧ scan out = .ok found' ∧
      List.Forall₂ (fun s s' => s'.name = s.name ∧ ∀ c ∈ ensuredClasses rules s.name,
        (c.toList ∈ s'.attributeMap.classWords ↔
          if s.attributeMap.contains "class" then
            c.toList ∈ s.attributeMap.classWords ∨
              (ensuredClasses rules s.name).find?
                (fun d => !s.attributeMap.classWords.contains d.toList) = some c
          else (ensuredClasses rules s.name).getLast? = some c)) found found' := by
  have hrules := ensuringAll_of_ofRules honly hset
  obtain ⟨-, rfl⟩ := ofRules_eq_ok.mp hset
  obtain ⟨ps, hps, rfl⟩ := scan_ok_iff.mp hscan
  obtain ⟨out, after, hrun, hout⟩ :=
    run_editTemplate_ensuring hrules (parse_ok_iff.mpr hps) component hits
  refine ⟨out, after, _, hrun, scan_ok_iff.mpr ⟨_, parse_ok_iff.mp hout, rfl⟩,
    forall₂_of_contents (contents_tagsFrom 0 ps) (contents_ensuredPieces rules ps)
      fun t ht s s' hs hs' => ?_⟩
  obtain ⟨hname, hattributes⟩ := Prod.mk.inj hs
  obtain ⟨hname', hattributes'⟩ := Prod.mk.inj hs'
  have hmap : s.attributeMap = t.attributeMap := congrArg Attributes.ofList hattributes
  have hmap' := congrArg (fun l => (Attributes.ofList l).classWords) hattributes'
  have hwords := classWords_ensured (isClassName_of_ensured hrules t.tagName) t
  refine ⟨hname'.trans hname.symm, fun c _ => ?_⟩
  rw [hname, hmap, ScannedTag.attributeMap, hmap'.trans hwords]
  split
  · rw [List.mem_append, mem_toList_map, or_comm]
  · exact mem_toList_map

/-- a class for all tags, and one for `p` -/
def twoClasses : List Rule := [.ensuring [] "a", .ensuring ["p"] "b"]

theorem twoClasses_only : ∀ r ∈ twoClasses, ∃ tags c, r = Rule.ensuring tags c :=
  List.forall_mem_cons.mpr ⟨⟨[], "a", rfl⟩, List.forall_mem_singleton.mpr ⟨["p"], "b", rfl⟩⟩

/-- a tag that has the second class, and one without a class attribute that only the first is for -/
theorem ensured_word_iff_two :
    (∀ r ∈ twoClasses, ∃ tags c, r = Rule.ensuring tags c) ∧
    RuleSet.ofRules twoClasses = .ok ⟨none, none, twoClasses⟩ ∧
    scan "<p class=\"b\">x<i/>" =
      .ok [⟨"p", 2, [⟨⟨"class", some "\"b\""⟩, 2, 12⟩]⟩, ⟨"i", 16, []⟩] ∧
    ∃ out after s t, (editTemplate (RuleSet.instruction twoClasses) bare
        "<p class=\"b\">x<i/>").run.run [0, 0] = (.ok out, after) ∧ scan out = .ok [s, t] ∧
      "a".toList ∈ s.attributeMap.classWords ∧ "b".toList ∈ s.attributeMap.classWords ∧
      "a".toList ∈ t.attributeMap.classWords := by
  have hset : RuleSet.ofRules twoClasses = .ok ⟨none, none, twoClasses⟩ := by decide +kernel
  have hscan : scan "<p class=\"b\">x<i/>" =
      .ok [⟨"p", 2, [⟨⟨"class", some "\"b\""⟩, 2, 12⟩]⟩, ⟨"i", 16, []⟩] := by decide +kernel
  obtain ⟨out, after, found, hrun, hfound, htags⟩ :=
    ensured_word_iff twoClasses_only hset hscan bare [0, 0]
  obtain ⟨s, rest, ⟨-, hs⟩, hrest, rfl⟩ := List.forall₂_cons_left_iff.mp htags
  obtain ⟨t, last, ⟨-, ht⟩, hlast, rfl⟩ := List.forall₂_cons_left_iff.mp hrest
  obtain rfl := List.forall₂_nil_left_iff.mp hlast
  refine ⟨twoClasses_only, hset, hscan, out, after, s, t, hrun, hfound, ?_, ?_, ?_⟩
  · exact (hs "a" (by decide +kernel)).mpr (by decide +kernel)
  · exact (hs "b" (by decide +kernel)).mpr (by decide +kernel)
  · exact (ht "a" (by decide +kernel)).mpr (by decide +kernel)

/-- of two classes that a tag with a class attribute has not, only the first one is written -/
theorem not_ensured_word :
    ¬ ∀ (rules : List Rule) (set : RuleSet) (template : String) (found : List ScannedTag),
      (∀ r ∈ rules, ∃ tags c, r = Rule.ensuring tags c) → RuleSet.ofRules rules = .ok set →
      scan template = .ok found → ∀ hits, ∃ out after found',
        (editTemplate (RuleSet.instruction set.rules) bare template).run.run hits =
          (.ok out, after) ∧ scan out = .ok found' ∧
        List.Forall₂ (fun s s' => s'.name = s.name ∧ ∀ c ∈ ensuredClasses rules s.name,
          c.toList ∈ s'.attributeMap.classWords) found found' := by
  intro h
  have hset : RuleSet.ofRules twoClasses = .ok ⟨none, none, twoClasses⟩ := by decide +kernel
  have hscan : scan "<p class=\"x\">" = .ok [⟨"p", 2, [⟨⟨"class", some "\"x\""⟩, 2, 12⟩]⟩] := by
    decide +kernel
  have hparse : parse "<p class=\"x\">" = .ok
      [.tag ⟨['p'], [⟨[' '], "class".toList, some ⟨[], [], "\"x\"".toList⟩⟩], [], .angle⟩] := by
    decide +kernel
  obtain ⟨out, after, hrun, hout⟩ := run_editTemplate_ensuring
    (ensuringAll_of_ofRules twoClasses_only hset) hparse bare [0, 0]
  obtain ⟨out', after', found, hrun', hfound, htags⟩ :=
    h twoClasses _ _ _ twoClasses_only hset hscan [0, 0]
  cases hrun.symm.trans hrun'
  have hscan' := scan_ok_iff.mpr ⟨_, parse_ok_iff.mp hout, rfl⟩
  obtain rfl := Except.ok.inj (hscan'.symm.trans hfound)
  have hfirst : ∀ s ∈ tagsFrom 0 (ensuredPieces twoClasses
      [.tag ⟨['p'], [⟨[' '], "class".toList, some ⟨[], [], "\"x\"".toList⟩⟩], [], .angle⟩]),
      "b".toList ∉ s.attributeMap.classWords := by decide +kernel
  obtain ⟨s, rest, ⟨-, hs⟩, -, htags⟩ := List.forall₂_cons_left_iff.mp htags
  exact hfirst s (htags ▸ List.mem_cons_self ..) (hs "b" (by decide +kernel))

end Stencil
