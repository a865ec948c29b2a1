import Mathlib
import Stencil.Proofs.Component.Walk
import Stencil.Proofs.Manifest.Globals

/-!
# The order of copied entries

While missing entries are copied, the known names are those of the components that have been met so
far.  What is copied are the entries of the ids that a walk newly meets, in its order.

* `entryAt`                   the entry of the component under an id;
* `Knows`                     known names, as the names of the ids that are met;
* `missingEntries_of_walk`    the entries that are copied during a walk.
-/

namespace Stencil

namespace Manifest

variable {s : Store Definition} {known : List String} {met todo after : List Nat} {id : Nat}
  {c : Component Definition}

/-- the entry of the component under an id, if there is one -/
def entryAt (s : Store Definition) (id : Nat) : Option Entry := (s.get? id).map (entryOf s)

theorem entryAt_of_get? (hc : s.get? id = some c) : entryAt s id = some (entryOf s c) := by
  rw [entryAt, hc]
  rfl

/-- an id has its name from just one component -/
theorem eq_of_name (hs : s.names.Nodup) {a b : Nat} {c d : Component Definition}
    (ha : s.get? a = some c) (hb : s.get? b = some d) (hname : c.base.name = d.base.name) :
    a = b := by
  have hlt : a < s.size := (List.getElem?_eq_some_iff.mp ha).1
  have hlt' : b < s.size := (List.getElem?_eq_some_iff.mp hb).1
  rw [← idxOf_nameOf hs hlt [], ← idxOf_nameOf hs hlt' [], nameOf_of_get? ha, nameOf_of_get? hb,
    hname]

/-- the known names of components are the names of the ids that are met -/
def Knows (s : Store Definition) (known : List String) (met : List Nat) : Prop :=
  ∀ id c, s.get? id = some c → (c.base.name ∈ known ↔ id ∈ met)

theorem Knows.skip (h : Knows s known met) (hnone : s.get? id = none) :
    Knows s known (met ++ [id]) := by
  intro a d hd
  have hne : a ≠ id := by
    rintro rfl
    cases hnone.symm.trans hd
  rw [h a d hd, List.mem_append, List.mem_singleton]
  exact ⟨.inl, fun ha => ha.resolve_right hne⟩

theorem Knows.copy (hs : s.names.Nodup) (h : Knows s known met) (hc : s.get? id = some c) :
    Knows s (known ++ [c.base.name]) (met ++ [id]) := by
  intro a d hd
  rw [List.mem_append, List.mem_append, h a d hd, List.mem_singleton, List.mem_singleton]
  refine or_congr_right ⟨fun hname => eq_of_name hs hd hc hname, fun ha => ?_⟩
  cases hc.symm.trans (ha ▸ hd)
  rfl

/-- the names of entries are those of the ids that they belong to -/
theorem knows_filterMap (hs : s.names.Nodup) (ids : List Nat) :
    Knows s ((ids.filterMap (entryAt s)).map Entry.name) ids := by
  intro a c hc
  rw [List.mem_map]
  constructor
  · rintro ⟨e, he, hname⟩
    obtain ⟨b, hb, hentry⟩ := List.mem_filterMap.mp he
    obtain ⟨d, hd, rfl⟩ := Option.map_eq_some_iff.mp hentry
    rwa [eq_of_name hs hc hd hname.symm]
  · intro ha
    exact ⟨entryOf s c, List.mem_filterMap.mpr ⟨a, ha, entryAt_of_get? hc⟩, rfl⟩

/-- the entry of an id that is newly met is copied, if there is one, and its children are next -/
theorem missingEntries_of_fresh (hs : s.names.Nodup) (hknown : Knows s known met)
    (hid : id ∉ met) :
    ∃ known', Knows s known' (met ++ [id]) ∧ ∀ pending,
      missingEntries s known (id :: pending) = [id].filterMap (entryAt s) ++
        missingEntries s known' ((s.links id).map Prod.snd ++ pending) := by
  cases hc : s.get? id with
  | none =>
    have hentry : [id].filterMap (entryAt s) = [] := by
      rw [List.filterMap_cons_none (by rw [entryAt, hc]; rfl), List.filterMap_nil]
    have hlinks : (s.links id).map Prod.snd = [] := by rw [Store.links, hc]; rfl
    refine ⟨known, hknown.skip hc, fun pending => ?_⟩
    rw [missingEntries_of_none hc, hentry, hlinks, List.nil_append, List.nil_append]
  | some c =>
    have hnew : c.base.name ∉ known := fun hmem => hid ((hknown id c hc).mp hmem)
    have hentry : [id].filterMap (entryAt s) = [entryOf s c] := by
      rw [List.filterMap_cons_some (entryAt_of_get? hc), List.filterMap_nil]
    have hlinks : (s.links id).map Prod.snd = c.children.values := by rw [Store.links, hc]; rfl
    refine ⟨known ++ [c.base.name], hknown.copy hs hc, fun pending => ?_⟩
    rw [missingEntries_of_new hc hnew, hentry, hlinks, List.singleton_append]

/-- While the ids of a walk are pending, the entries of those that it newly meets are copied in the
order of the walk, and then the names of all that it has met are known. -/
theorem missingEntries_of_walk (hs : s.names.Nodup) (h : Walk s met todo after)
    (hknown : Knows s known met) :
    ∃ new known', after = met ++ new ∧ Knows s known' after ∧ ∀ pending,
      missingEntries s known (todo ++ pending) =
        new.filterMap (entryAt s) ++ missingEntries s known' pending := by
  -- the rest of the pending ids is left open, so that a walk below may be put in front of it
  induction h generalizing known with
  | done met => exact ⟨[], known, (List.append_nil met).symm, hknown, fun _ => rfl⟩
  | @known met todo after id hid _ ih =>
    obtain ⟨new, known', hafter, hknown', hcopied⟩ := ih hknown
    refine ⟨new, known', hafter, hknown', fun pending => ?_⟩
    rw [← hcopied, List.cons_append]
    cases hc : s.get? id with
    | none => exact missingEntries_of_none hc
    | some c => exact missingEntries_of_known hc ((hknown id c hc).mpr hid)
  | @fresh met todo below after id hid _ _ ihBelow ihBeside =>
    obtain ⟨known₀, hknown₀, hfirst⟩ := missingEntries_of_fresh hs hknown hid
    obtain ⟨inner, known₁, hbelow, hknown₁, hinner⟩ := ihBelow hknown₀
    obtain ⟨outer, known₂, hafter, hknown₂, houter⟩ := ihBeside hknown₁
    refine ⟨[id] ++ inner ++ outer, known₂, ?_, hknown₂, fun pending => ?_⟩
    · rw [hafter, hbelow, List.append_assoc, List.append_assoc, List.append_assoc]
    · rw [List.cons_append, hfirst, hinner, houter, List.filterMap_append, List.filterMap_append,
        List.append_assoc, List.append_assoc]

end Manifest

end Stencil
