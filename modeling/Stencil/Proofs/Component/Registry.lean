import Stencil.Component.Registry
import Stencil.Proofs.Dict

/-!
# What a registry holds

A registry takes each tag once.  Of a list of registrations it keeps those that come first with
their tag; the others are rejected.

* `Registry.register_eq`      a registration is rejected just if its tag is there;
* `Registry.Enrols`           a registry keeps of a list the first entry of each tag;
* `Enrols.concat_of_mem`, `Enrols.concat_of_not_mem`   what one registration more changes.
-/

namespace Stencil.Registry

theorem register_eq (r : Registry) (tag : String) (id : Nat) :
    Registry.register r tag id =
      if tag ∈ r.keys then .error (.duplicate tag) else .ok (r.insert tag id) := by
  by_cases h : tag ∈ r.keys
  · rw [if_pos h, register, Dict.insertNew?, if_pos (Dict.contains_iff.mpr h)]
  · rw [if_neg h, register, Dict.insertNew?, if_neg fun hc => h (Dict.contains_iff.mp hc)]

/-- `r` has the tags of `l` in the order in which they come first, each with the id that comes
first with it -/
structure Enrols (r : Registry) (l : List (String × Nat)) : Prop where
  tags : FirstOccurrences (l.map Prod.fst) r.keys
  mem_entries : ∀ e, e ∈ r.entries ↔ IsFirst (fun e' => e'.1 = e.1) l e

namespace Enrols

variable {r : Registry} {l : List (String × Nat)} {e : String × Nat}

theorem nil : Enrols (Dict.empty : Registry) [] where
  tags := FirstOccurrences.nil
  mem_entries e := iff_of_false List.not_mem_nil (isFirst_nil e)

theorem concat_of_mem (h : Enrols r l) (he : e.1 ∈ r.keys) : Enrols r (l ++ [e]) where
  tags := by
    have htags := h.tags.concat e.1
    rw [if_pos he] at htags
    rwa [List.map_append]
  mem_entries e' := by
    rw [isFirst_concat, h.mem_entries]
    refine ⟨.inl, fun hfirst => hfirst.resolve_right ?_⟩
    rintro ⟨rfl, _, hnew⟩
    obtain ⟨e', he', hfst⟩ := List.mem_map.mp ((h.tags.mem_iff e.1).mp he)
    exact hnew e' he' hfst

theorem concat_of_not_mem (h : Enrols r l) (he : e.1 ∉ r.keys) :
    Enrols (Dict.insert r e.1 e.2) (l ++ [e]) where
  tags := by
    have htags := h.tags.concat e.1
    rwa [List.map_append, Dict.keys_insert]
  mem_entries e' := by
    have hentries : (Dict.insert r e.1 e.2).entries = r.entries ++ [e] := put_of_not_mem e.2 he
    have hnew : ∀ e' ∈ l, ¬ e'.1 = e.1 := fun e' he' hfst =>
      he ((h.tags.mem_iff e.1).mpr (hfst ▸ List.mem_map_of_mem he'))
    rw [hentries, List.mem_append, List.mem_singleton, isFirst_concat, h.mem_entries]
    refine or_congr_right ⟨?_, fun ⟨hee, _⟩ => hee.symm⟩
    rintro rfl
    exact ⟨rfl, rfl, hnew⟩

end Enrols

end Stencil.Registry
