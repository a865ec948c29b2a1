import Stencil.Markup.Piece
import Stencil.Proofs.Dict

/-!
# What the attributes of a tag answer

Attributes are put into a map from left to right.  The map lists the keys in the order in which
they come first, and it answers for each key with the attribute that comes last with it, even if
that one has no value.

* `Attribute.entry`                    an attribute as key and value;
* `Attributes.ofList_eq`               a map of attributes is the dictionary of these entries;
* `Attributes.Answers`                 what a map says after a list of insertions;
* `Attributes.answers_of_collects`     so answers a map that collects the entries of the list;
* `attributes_first_place_last_value`  so answers every map that is made by insertions.
-/

namespace Stencil.Markup

/-! ## attributes as entries -/

def Attribute.entry (a : Attribute) : String × Option String := (a.key, a.value)

theorem Attribute.entry_injective : Function.Injective Attribute.entry := by
  rintro ⟨key, value⟩ ⟨key', value'⟩ h
  obtain ⟨rfl, rfl⟩ := Prod.mk.inj h
  rfl

namespace Attributes

theorem insertAll_eq (m : Attributes) (l : List Attribute) :
    m.insertAll l = Dict.insertAll m (l.map Attribute.entry) := by
  rw [Attributes.insertAll, Dict.insertAll, List.foldl_map]
  rfl

theorem ofList_eq (l : List Attribute) : ofList l = Dict.ofList (l.map Attribute.entry) :=
  insertAll_eq Dict.empty l

theorem map_entry_toList (m : Attributes) : m.toList.map Attribute.entry = m.entries := by
  rw [toList, List.map_map]
  exact List.map_id m.entries

theorem mem_toList {m : Attributes} {a : Attribute} : a ∈ m.toList ↔ a.entry ∈ m.entries := by
  rw [← map_entry_toList, List.mem_map_of_injective Attribute.entry_injective]

theorem find?_eq_some_iff {m : Attributes} {key : String} {a : Attribute} :
    m.find? key = some a ↔ a ∈ m.toList ∧ a.key = key := by
  rw [find?, Option.map_eq_some_iff, mem_toList]
  constructor
  · rintro ⟨value, hvalue, rfl⟩
    exact ⟨Dict.get?_eq_some_iff.mp hvalue, rfl⟩
  · rintro ⟨hmem, rfl⟩
    exact ⟨a.value, Dict.get?_eq_some_iff.mpr hmem, rfl⟩

/-- the attributes of a map and more behind them give what insertion of these gives -/
theorem ofList_toList_append (m : Attributes) (more : List Attribute) :
    ofList (m.toList ++ more) = m.insertAll more := by
  rw [ofList_eq, List.map_append, map_entry_toList, Dict.ofList, Dict.insertAll_append,
    insertAll_eq]
  exact congrArg (Dict.insertAll · _) (Dict.ofList_entries m)

/-! ## maps that are made by insertions -/

/-- what a map says when the attributes `l` were put into an empty one from left to right -/
structure Answers (m : Attributes) (l : List Attribute) : Prop where
  keys : FirstOccurrences (l.map Attribute.key) m.keys
  mem_toList : ∀ a, a ∈ m.toList ↔ IsLast (fun b => b.key = a.key) l a
  find? : ∀ key a, m.find? key = some a ↔ IsLast (fun b => b.key = key) l a
  contains : ∀ key, m.contains key = true ↔ ∃ a ∈ l, a.key = key
  valueOf : ∀ key text, m.valueOf key = some text ↔
    ∃ a, IsLast (fun b => b.key = key) l a ∧ a.unquoted = some text

theorem answers_of_collects {m : Attributes} {l : List Attribute}
    (h : m.Collects (l.map Attribute.entry)) : m.Answers l := by
  have hkeys : FirstOccurrences (l.map Attribute.key) m.keys := by
    have hmap : (l.map Attribute.entry).map Prod.fst = l.map Attribute.key := List.map_map
    exact hmap ▸ h.keys
  have hlast : ∀ a, a ∈ m.toList ↔ IsLast (fun b => b.key = a.key) l a := fun a => by
    rw [mem_toList, h.mem_entries, isLast_map]
    refine ⟨fun ⟨b, hb, hlast⟩ => ?_, fun hlast => ⟨a, rfl, hlast⟩⟩
    exact Attribute.entry_injective hb ▸ hlast
  have hfind : ∀ key a, m.find? key = some a ↔ IsLast (fun b => b.key = key) l a :=
    fun key a => by
      rw [find?_eq_some_iff, hlast]
      constructor
      · rintro ⟨hmem, rfl⟩
        exact hmem
      · intro hmem
        obtain rfl : a.key = key := hmem.holds
        exact ⟨hmem, rfl⟩
  refine ⟨hkeys, hlast, hfind, fun key => ?_, fun key text => ?_⟩
  · rw [Dict.contains_iff, hkeys.mem_iff, List.mem_map]
  · rw [valueOf, Option.bind_eq_some_iff]
    simp only [hfind]

end Attributes

/-- after every list of insertions into an empty map the first one of a key fixes its place and the
last one its value, and the attributes of a map followed by more give what insertion of these
gives -/
theorem attributes_first_place_last_value :
    (∀ l, (Attributes.insertAll Dict.empty l).Answers l) ∧
    (∀ l, (Attributes.ofList l).Answers l) ∧
    (∀ t : ScannedTag, t.attributeMap.Answers (t.attributes.map SpannedAttribute.attr)) ∧
    (∀ t : OpeningTag, t.attributeMap.Answers (t.attributes.map AttributeText.attr)) ∧
    ∀ (m : Attributes) (more : List Attribute),
      Attributes.ofList (m.toList ++ more) = m.insertAll more := by
  have hofList : ∀ l, (Attributes.ofList l).Answers l := fun l => by
    rw [Attributes.ofList_eq]
    exact Attributes.answers_of_collects (Dict.collects_ofList _)
  exact ⟨hofList, hofList, fun _ => hofList _, fun _ => hofList _, Attributes.ofList_toList_append⟩

-- the second `id` takes the value of the first one away, but not its place
example : (Attributes.ofList [⟨"id", some "a"⟩, ⟨"class", some "b"⟩, ⟨"id", none⟩]).toList =
    [⟨"id", none⟩, ⟨"class", some "b"⟩] := by decide

end Stencil.Markup
