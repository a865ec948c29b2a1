import Stencil.Dict
import Stencil.Proofs.Occurrence

/-!
# What a dictionary holds

A dictionary is told by its keys and by the value under each.  Of a list of entries it keeps each
key in the place where it comes first, and the value that comes last with it.

* `Dict.get?_eq_some_iff`      a value is found under a key just if there is such an entry;
* `Dict.entries_eq`            the entries, from the keys and what is found under them;
* `Dict.keys_ofList`           the keys of a list of entries;
* `Dict.get?_ofList`           what is found under them;
* `Dict.entries_ofList`        if no key is there twice these are the entries of the list;
* `Dict.ofList_entries`        a dictionary from its own entries;
* `Dict.Collects`              a dictionary keeps of a list the first place and the last value of
                               each key;
* `Dict.Collects.insert`       what one insertion more changes;
* `Dict.collects_ofList`       the dictionary of a list of entries;
* `Dict.Collects.unique`       there is one such dictionary.
-/

namespace Stencil

/-! ## entries -/

section
variable {α : Type}

theorem put_of_not_mem {k : String} (a : α) {l : List (String × α)}
    (h : k ∉ l.map Prod.fst) : put k a l = l ++ [(k, a)] := by
  induction l with
  | nil => rfl
  | cons e l ih =>
    rw [List.map_cons, List.mem_cons, not_or] at h
    rw [put, if_neg (Ne.symm h.1), ih h.2, List.cons_append]

theorem lookup_cons_eq (k : String) (e : String × α) (l : List (String × α)) :
    (e :: l).lookup k = if k = e.1 then some e.2 else l.lookup k := by
  rw [List.lookup_cons]
  by_cases hk : k = e.1
  · rw [if_pos hk, beq_iff_eq.mpr hk]
  · rw [if_neg hk, beq_false_of_ne hk]

theorem lookup_put (k : String) (a : α) (l : List (String × α)) (k' : String) :
    (put k a l).lookup k' = if k' = k then some a else l.lookup k' := by
  induction l with
  | nil => exact lookup_cons_eq k' (k, a) []
  | cons e l ih =>
    rw [put]
    by_cases he : e.1 = k
    · rw [if_pos he, lookup_cons_eq, lookup_cons_eq, he]
      by_cases hk : k' = k
      · rw [if_pos hk, if_pos hk]
      · rw [if_neg hk, if_neg hk, if_neg hk]
    · rw [if_neg he, lookup_cons_eq, lookup_cons_eq, ih]
      by_cases hk : k' = k
      · rw [if_neg fun h => he (h.symm.trans hk), if_pos hk, if_pos hk]
      · rw [if_neg hk, if_neg hk]

theorem not_mem_of_nodup_append {a : α} {l r : List α} (h : (l ++ a :: r).Nodup) :
    a ∉ l :=
  fun hmem => (List.nodup_cons.mp (List.nodup_middle.mp h)).1 (List.mem_append_left _ hmem)

end

namespace Dict

variable {α : Type}

theorem get?_eq_some_iff {d : Dict α} {k : String} {a : α} :
    d.get? k = some a ↔ (k, a) ∈ d.entries := by
  obtain ⟨l, hl⟩ := d
  unfold get?
  simp only
  induction l with
  | nil => simp
  | cons e l ih =>
    rw [List.map_cons, List.nodup_cons] at hl
    rw [lookup_cons_eq, List.mem_cons]
    by_cases hk : k = e.1
    · rw [if_pos hk]
      constructor
      · intro ha
        exact .inl (by rw [hk, ← Option.some.inj ha])
      · rintro (he | hmem)
        · rw [← he]
        · exact absurd (hk ▸ List.mem_map_of_mem (f := Prod.fst) hmem) hl.1
    · rw [if_neg hk, ih hl.2]
      exact ⟨.inr, fun h => h.resolve_left fun he => hk (congrArg Prod.fst he)⟩

theorem contains_iff {d : Dict α} {k : String} : d.contains k = true ↔ k ∈ d.keys := by
  rw [contains, Option.isSome_iff_exists, keys, List.mem_map]
  constructor
  · rintro ⟨a, ha⟩
    exact ⟨(k, a), get?_eq_some_iff.mp ha, rfl⟩
  · rintro ⟨e, he, rfl⟩
    exact ⟨e.2, get?_eq_some_iff.mpr he⟩

/-- a dictionary is told by its keys and by what is found under them -/
theorem entries_eq (d : Dict α) :
    d.entries = d.keys.filterMap fun k => (d.get? k).map fun a => (k, a) := by
  rw [keys, List.filterMap_map]
  refine (List.filterMap_some.symm).trans (List.filterMap_congr fun e he => ?_)
  rw [Function.comp_apply, get?_eq_some_iff.mpr he]
  rfl

/-! ## insertions -/

theorem keys_insert (d : Dict α) (k : String) (a : α) :
    (d.insert k a).keys = if k ∈ d.keys then d.keys else d.keys ++ [k] :=
  keys_put k a d.entries

theorem get?_insert (d : Dict α) (k : String) (a : α) (k' : String) :
    (d.insert k a).get? k' = if k' = k then some a else d.get? k' :=
  lookup_put k a d.entries k'

theorem ofList_concat (l : List (String × α)) (e : String × α) :
    ofList (l ++ [e]) = (ofList l).insert e.1 e.2 :=
  insertAll_append empty l [e]

theorem keys_ofList (l : List (String × α)) : (ofList l).keys = (l.map Prod.fst).eraseDups := by
  induction l using List.reverseRecOn with
  | nil => rfl
  | append_singleton l e ih =>
    rw [ofList_concat, keys_insert, ih, List.map_append, List.map_singleton,
      List.eraseDups_append]
    by_cases he : e.1 ∈ l.map Prod.fst
    · have hnone : [e.1].removeAll (l.map Prod.fst) = [] := by simp [List.removeAll, he]
      rw [if_pos (List.mem_eraseDups.mpr he), hnone, List.eraseDups_nil, List.append_nil]
    · have hnew : [e.1].removeAll (l.map Prod.fst) = [e.1] := by simp [List.removeAll, he]
      rw [if_neg fun h => he (List.mem_eraseDups.mp h), hnew, List.eraseDups_cons,
        List.filter_nil, List.eraseDups_nil]

/-- the value that is inserted last is found first from the end -/
theorem get?_ofList (l : List (String × α)) (k : String) :
    (ofList l).get? k = l.reverse.lookup k := by
  induction l using List.reverseRecOn with
  | nil => rfl
  | append_singleton l e ih =>
    rw [ofList_concat, get?_insert, ih, List.reverse_concat, lookup_cons_eq]

theorem mem_of_mem_ofList {l : List (String × α)} {e : String × α} (h : e ∈ (ofList l).entries) :
    e ∈ l := by
  have hget : (ofList l).get? e.1 = some e.2 := get?_eq_some_iff.mpr h
  rw [get?_ofList, List.lookup_eq_some_iff] at hget
  obtain ⟨before, after, hl, _⟩ := hget
  rw [← List.mem_reverse, hl]
  exact List.mem_append_right _ (List.mem_cons_self ..)

/-! ## entries with distinct keys -/

theorem entries_insertAll {d : Dict α} {l : List (String × α)}
    (h : ((d.entries ++ l).map Prod.fst).Nodup) :
    (d.insertAll l).entries = d.entries ++ l := by
  induction l generalizing d with
  | nil => rw [insertAll_nil, List.append_nil]
  | cons e l ih =>
    have hnew : e.1 ∉ d.entries.map Prod.fst := by
      rw [List.map_append] at h
      exact not_mem_of_nodup_append h
    have hinsert : (d.insert e.1 e.2).entries = d.entries ++ [e] := put_of_not_mem e.2 hnew
    have hcons : d.entries ++ e :: l = (d.insert e.1 e.2).entries ++ l := by
      rw [hinsert, List.append_assoc, List.singleton_append]
    rw [hcons] at h ⊢
    rw [insertAll_cons, ih h]

theorem entries_ofList {l : List (String × α)} (h : (l.map Prod.fst).Nodup) :
    (ofList l).entries = l := by
  have hempty : (((empty : Dict α).entries ++ l).map Prod.fst).Nodup := h
  rw [ofList, entries_insertAll hempty, entries_empty, List.nil_append]

theorem entries_insertAll_eq_foldl (d : Dict α) (l : List (String × α)) :
    (d.insertAll l).entries = l.foldl (fun t e => put e.1 e.2 t) d.entries := by
  induction l generalizing d with
  | nil => rfl
  | cons e l ih => rw [insertAll_cons, ih, entries_insert, List.foldl_cons]

theorem ofList_entries (d : Dict α) : ofList d.entries = d := ext (entries_ofList d.nodup)

/-! ## what is kept of a list of insertions -/

/-- `d` has the keys of `l` in the order in which they come first, and under each key the value
that comes last with it -/
structure Collects (d : Dict α) (l : List (String × α)) : Prop where
  keys : FirstOccurrences (l.map Prod.fst) d.keys
  mem_entries : ∀ e, e ∈ d.entries ↔ IsLast (fun e' => e'.1 = e.1) l e

namespace Collects

variable {d : Dict α} {l : List (String × α)}

theorem nil : (empty : Dict α).Collects [] where
  keys := FirstOccurrences.nil
  mem_entries e := iff_of_false List.not_mem_nil (isLast_nil e)

theorem insert (h : d.Collects l) (e : String × α) : (d.insert e.1 e.2).Collects (l ++ [e]) where
  keys := by
    rw [keys_insert, List.map_append]
    exact h.keys.concat e.1
  mem_entries e' := by
    have hmem : ∀ d : Dict α, e' ∈ d.entries ↔ d.get? e'.1 = some e'.2 := fun d =>
      get?_eq_some_iff.symm
    rw [isLast_concat, ← h.mem_entries, hmem, hmem, get?_insert]
    by_cases hk : e'.1 = e.1
    · rw [if_pos hk, Option.some.injEq, Prod.ext_iff]
      simp only [hk, true_and, and_true, not_true, false_and, or_false]
    · have hk' : ¬ e.1 = e'.1 := fun he => hk he.symm
      have hne : ¬ e = e' := fun he => hk' (congrArg Prod.fst he)
      rw [if_neg hk]
      simp only [hne, hk', false_and, not_false_eq_true, true_and, false_or]

theorem insertAll (h : d.Collects l) (r : List (String × α)) :
    (d.insertAll r).Collects (l ++ r) := by
  induction r generalizing d l with
  | nil => rwa [insertAll_nil, List.append_nil]
  | cons e r ih =>
    rw [insertAll_cons, ← List.singleton_append, ← List.append_assoc]
    exact ih (h.insert e)

theorem get?_iff (h : d.Collects l) {k : String} {a : α} :
    d.get? k = some a ↔ IsLast (fun e => e.1 = k) l (k, a) := by
  rw [get?_eq_some_iff, h.mem_entries]

theorem unique {d' : Dict α} (h : d.Collects l) (h' : d'.Collects l) : d = d' := by
  have hkeys : d.keys = d'.keys := h.keys.unique h'.keys
  have hget : ∀ k, d.get? k = d'.get? k := fun k => Option.ext fun a => by
    rw [h.get?_iff, h'.get?_iff]
  refine ext ?_
  rw [entries_eq, entries_eq, hkeys]
  exact List.filterMap_congr fun k _ => by rw [hget]

end Collects

theorem collects_ofList (l : List (String × α)) : (ofList l).Collects l :=
  Collects.nil.insertAll l

end Dict

/-- new entries one after the other -/
theorem foldl_put_of_nodup {α : Type} {t l : List (String × α)}
    (h : ((t ++ l).map Prod.fst).Nodup) : l.foldl (fun t e => put e.1 e.2 t) t = t ++ l := by
  have ht : (t.map Prod.fst).Nodup := by
    rw [List.map_append] at h
    exact (List.nodup_append.mp h).1
  rw [← Dict.entries_insertAll_eq_foldl ⟨t, ht⟩ l]
  exact Dict.entries_insertAll h

end Stencil
