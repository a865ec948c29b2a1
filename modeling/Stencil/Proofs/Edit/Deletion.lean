import Stencil.Proofs.Edit.Rescan

/-!
# Deleting attributes

An attribute is deleted with the blanks in front of it.  What stands behind it then follows what
stands before it, which may be a key or the name of the tag.

* `unchosen`, `unchosenAll`   what is left of lists whose elements are numbered throughout;
* `deleting`                  the instruction that deletes the chosen attributes of a template;
* `run_tags_deleting`         its answers leave the other attributes;
* `deletion_clean_iff`        when these are the attributes of the new template.
-/

namespace Stencil.Markup

/-! ## what is left -/

section
variable {α : Type} (chosen : Nat → Bool)

/-- the elements of a list that are not chosen; they are numbered from `n` on -/
def unchosen : Nat → List α → List α
  | _, [] => []
  | n, a :: l => if chosen n then unchosen (n + 1) l else a :: unchosen (n + 1) l

/-- what is left of each of some lists that are numbered one after the other -/
def unchosenAll : Nat → List (List α) → List (List α)
  | _, [] => []
  | n, l :: ls => unchosen chosen n l :: unchosenAll (n + l.length) ls

end

end Stencil.Markup

namespace Stencil

open Stencil.Markup

variable {β : Type}

/-! ## the instruction -/

/-- deletes the chosen ones of the attributes that it is asked about, and counts all of them -/
def deleting (chosen : Nat → Bool) : Instruction Nat β where
  replace part _ := do
    if part.isTag then
      pure none
    else
      let n ← get
      set (n + 1)
      pure (if chosen n then some "" else none)

/-- the answers for the attributes of a tag -/
theorem run_attributes_deleting (chosen : Nat → Bool) (c : Component β) (name : String)
    (map : Attributes) (l : List AttributeText) (n : Nat) :
    ∃ answers, ((l.map fun a => Part.attr name a.attr map).mapM fun part =>
        (deleting chosen).replace part c).run.run n = (.ok answers, n + l.length) ∧
      WrittenAll (l.map fun a => [a]) answers (unchosen chosen n l) := by
  induction l generalizing n with
  | nil => exact ⟨[], rfl, .nil⟩
  | cons a l ih =>
    obtain ⟨answers, hrun, hwritten⟩ := ih (n + 1)
    refine ⟨(if chosen n then some "" else none) :: answers, ?_, ?_⟩
    · have hlength : n + (a :: l).length = n + 1 + l.length := by
        rw [List.length_cons]
        omega
      rw [List.map_cons, hlength]
      exact run_mapM_cons rfl hrun
    · rw [List.map_cons, unchosen]
      split
      · exact .cons (.text listText_empty) hwritten
      · exact .cons .kept hwritten

theorem run_tags_deleting (chosen : Nat → Bool) (c : Component β) (ts : List OpeningTag)
    (n : Nat) :
    ∃ answers m, (ts.mapM fun t : OpeningTag => t.parts.mapM fun part =>
        (deleting chosen).replace part c).run.run n = (.ok answers, m) ∧
      Filled ts answers (unchosenAll chosen n (ts.map OpeningTag.attributes)) := by
  induction ts generalizing n with
  | nil => exact ⟨[], n, rfl, .nil⟩
  | cons t ts ih =>
    obtain ⟨answers, hrun, hwritten⟩ :=
      run_attributes_deleting chosen c t.tagName t.attributeMap t.attributes n
    obtain ⟨rest, m, hrest, hfilled⟩ := ih (n + t.attributes.length)
    refine ⟨(none :: answers) :: rest, m, run_mapM_cons ?_ hrest, .cons ?_ hfilled⟩
    · exact run_mapM_cons rfl hrun
    · exact WrittenAll.cons .kept hwritten

/-! ## clean deletions -/

/-- A deletion leaves the other attributes at the places that they get just when each of them has
blanks in front, or follows a value that is left as well.  The new template then has the tags of
the old one with just these attributes. -/
theorem deletion_clean_iff (chosen : Nat → Bool) (c : Component β) {template : String}
    {ps : List Piece} (hps : parse template = .ok ps) :
    ∃ out m left, (editTemplate (deleting chosen) c template).run.run 0 = (.ok out, m) ∧
      left = unchosenAll chosen 0 ((openingTags ps).map OpeningTag.attributes) ∧
      ((∀ l ∈ left, Separated false l) ↔ scan out = .ok (tagsFrom 0 (withAttributes ps left))) ∧
      ((∀ l ∈ left, Separated false l) → ∃ found, scan out = .ok found ∧
        found.map ScannedTag.name = (openingTags ps).map OpeningTag.tagName ∧
        found.map (fun t => t.attributes.map SpannedAttribute.attr) =
          left.map fun l => l.map AttributeText.attr) := by
  have hsplits := parse_ok_iff.mp hps
  obtain ⟨answers, m, hrun, hfilled⟩ := run_tags_deleting chosen c (openingTags ps) 0
  obtain ⟨left, hleft⟩ :
      ∃ left, left = unchosenAll chosen 0 ((openingTags ps).map OpeningTag.attributes) := ⟨_, rfl⟩
  rw [← hleft] at hfilled
  have hlength := hfilled.length_eq
  have hsound := hfilled.forall_mem (fun t ht => (hsplits.1.fits t ht).attributes.sound)
    fun a ha => ha.1
  have hout : (String.ofList (putAll ps answers)).toList = render (withAttributes ps left) := by
    rw [String.toList_ofList, putAll_eq_render hfilled]
  have hscan := scan_withAttributes_iff hsplits hlength hsound hout
  refine ⟨_, m, left, run_editTemplate_ok hps hrun, hleft, hscan.symm, fun hsep => ?_⟩
  exact ⟨_, hscan.mpr hsep, tagsFrom_withAttributes 0 hlength⟩

/-- two attributes, with or without blanks between them -/
def twoAttributes (gap : List Char) : List Piece :=
  [.tag ⟨['a'], [⟨[' '], ['x'], some ⟨[], [], ['"', '1', '"']⟩⟩, ⟨gap, ['b'], none⟩], [], .angle⟩]

theorem deletion_clean_spaced :
    parse "<a x=\"1\" b>" = .ok (twoAttributes [' ']) ∧
    ∃ out m found, (editTemplate (deleting fun n => n == 0) bare "<a x=\"1\" b>").run.run 0 =
        (.ok out, m) ∧ scan out = .ok found ∧
      found.map ScannedTag.name = ["a"] ∧
      found.map (fun t => t.attributes.map SpannedAttribute.attr) = [[⟨"b", none⟩]] := by
  have hparse : parse "<a x=\"1\" b>" = .ok (twoAttributes [' ']) := by decide +kernel
  obtain ⟨out, m, left, hrun, rfl, _, hclean⟩ := deletion_clean_iff (fun n => n == 0) bare hparse
  obtain ⟨found, hscan, hnames, hattributes⟩ := hclean fun l hl => by
    cases List.mem_singleton.mp hl
    exact separated_of_lead_ne (by decide) false
  exact ⟨hparse, out, m, found, hrun, hscan, hnames, hattributes⟩

/-- an attribute that only follows a value is glued to the name of its tag -/
theorem not_deletion_clean :
    ¬ ∀ (chosen : Nat → Bool) (template : String) (ps : List Piece), parse template = .ok ps →
      ∃ out m found, (editTemplate (deleting chosen) bare template).run.run 0 = (.ok out, m) ∧
        scan out = .ok found ∧
        found.map ScannedTag.name = (openingTags ps).map OpeningTag.tagName ∧
        found.map (fun t => t.attributes.map SpannedAttribute.attr) =
          (unchosenAll chosen 0 ((openingTags ps).map OpeningTag.attributes)).map fun l =>
            l.map AttributeText.attr := by
  intro h
  have hparse : parse "<a x=\"1\"b>" = .ok (twoAttributes []) := by decide +kernel
  have hask : (askAll (fun part => (deleting fun n => n == 0).replace part bare)
      (twoAttributes [])).run.run 0 = (.ok [[none, some "", none]], 2) := rfl
  have hrun := run_editTemplate_ok hparse hask
  have hscan : scan "<ab>" = .ok [⟨"ab", 3, []⟩] := by decide +kernel
  obtain ⟨out, m, found, hrun', hscan', hnames, _⟩ := h (fun n => n == 0) _ _ hparse
  cases hrun.symm.trans hrun'
  cases hscan.symm.trans hscan'
  exact absurd hnames (by decide)

end Stencil
