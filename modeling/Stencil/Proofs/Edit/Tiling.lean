import Stencil.Proofs.Edit.Splice
import Stencil.Proofs.Text.Slice

/-!
# Offsets tile every opening tag

The offsets of a scan cut each opening tag into its name, its attributes and its end, without a gap
between them.  So an edit can put its text together from slices of the template.

* `AttributesTile`    attributes whose spans stand one behind the other;
* `TagsTile`          tags with such attributes, each behind the end of the one before;
* `splice?`           a text put together from slices and patches;
* `exists_splice?`    none of these slices is missing where the places are in order;
* `scan_tiles`        the offsets of every scan.
-/

namespace Stencil.Markup

open Stencil.Text

/-! ## tilings -/

/-- what is written behind the key of an attribute: nothing, or `=` with blanks on both sides and
the value -/
def ValueWritten (text : List Char) : Option String → Prop
  | none => text = []
  | some v => ∃ before after : List Char, (∀ c ∈ before, isBlank c = true) ∧
      (∀ c ∈ after, isBlank c = true) ∧ text = before ++ '=' :: (after ++ v.toList)

/-- The spans of attributes stand one behind the other in `s`, from one offset to another.  Each of
them has blanks, the key and what is written behind it; only directly behind a value, where it is
`glued` to it, an attribute may have no blanks in front. -/
inductive AttributesTile (s : List Char) : Nat → Bool → List SpannedAttribute → Nat → Prop
  | done (offset : Nat) (glued : Bool) : AttributesTile s offset glued [] offset
  | next {glued : Bool} {a : SpannedAttribute} {r : List SpannedAttribute}
      {lead value : List Char} {stop : Nat} (hlead : ∀ c ∈ lead, isBlank c = true)
      (hne : glued = false → lead ≠ []) (hvalue : ValueWritten value a.attr.value)
      (htext : slice? s a.start a.stop = some (lead ++ (a.attr.key.toList ++ value)))
      (hr : AttributesTile s a.stop a.attr.value.isSome r stop) :
      AttributesTile s a.start glued (a :: r) stop

/-- Tags that stand in `s` from an offset on, each behind the character that ends the attribute list
of the one before: `<` and the name up to the offset of the tag, the attributes from there on, and
then blanks and the character that ends the list. -/
inductive TagsTile (s : List Char) : Nat → List ScannedTag → Prop
  | done (offset : Nat) : TagsTile s offset []
  | next {offset start last stop : Nat} {t : ScannedTag} {r : List ScannedTag}
      {trail : List Char} {k : Closer} (hstart : offset ≤ start)
      (hname : slice? s start t.insertAt = some ('<' :: t.name.toList))
      (hattributes : AttributesTile s t.insertAt false t.attributes last)
      (htrail : ∀ c ∈ trail, isBlank c = true)
      (hclose : slice? s last stop = some (trail ++ [k.char]))
      (hr : TagsTile s stop r) : TagsTile s offset (t :: r)

theorem valueWritten_valueChars {a : AttributeText} (h : ∀ v ∈ a.value, v.Fits) :
    ValueWritten a.valueChars a.attr.value := by
  obtain ⟨lead, key, value⟩ := a
  cases value with
  | none => rfl
  | some v =>
    obtain ⟨hbefore, hafter, _⟩ := h v rfl
    refine ⟨v.before, v.after, hbefore, hafter, ?_⟩
    rw [String.toList_ofList]
    rfl

theorem attributesTile_spannedFrom {s front rest closing : List Char} {glued : Bool}
    {l : List AttributeText} (h : s = front ++ (renderAll l ++ rest))
    (hfit : AttributesFit closing glued l) :
    AttributesTile s (bytes front) glued (spannedFrom (bytes front) l)
      (bytes (front ++ renderAll l)) := by
  induction l generalizing front glued with
  | nil =>
    rw [renderAll_nil, List.append_nil]
    exact .done _ _
  | cons a l ih =>
    obtain ⟨⟨hlead, hne, _, hvalue⟩, hfit⟩ := hfit
    rw [renderAll_cons, List.append_assoc] at h
    have hnext : s = (front ++ a.render) ++ (renderAll l ++ rest) := by
      rw [h, List.append_assoc]
    have ih := ih hnext hfit
    have hkey : a.render = a.lead ++ (a.attr.key.toList ++ a.valueChars) := by
      rw [AttributeText.attr, String.toList_ofList]
      rfl
    have htext : slice? s (bytes front) (bytes front + bytes a.render) =
        some (a.lead ++ (a.attr.key.toList ++ a.valueChars)) := by
      rw [← hkey]
      exact slice?_eq_some_iff.mpr ⟨front, renderAll l ++ rest, h, rfl, rfl⟩
    have hsome : a.attr.value.isSome = a.value.isSome := Option.isSome_map
    rw [bytes_append, List.append_assoc, ← renderAll_cons, ← hsome] at ih
    exact .next (a := ⟨a.attr, bytes front, bytes front + bytes a.render⟩) hlead hne
      (valueWritten_valueChars hvalue) htext ih

theorem tagsTile_tagsFrom {s : List Char} {ps : List Piece} {offset : Nat} (front : List Char)
    (h : s = front ++ render ps) (hwell : WellFormed ps) (hoffset : offset ≤ bytes front) :
    TagsTile s offset (tagsFrom (bytes front) ps) := by
  induction ps generalizing front offset with
  | nil => exact .done offset
  | cons p ps ih =>
    obtain ⟨hp, hps⟩ := hwell
    have hnext : s = (front ++ p.render) ++ render ps := by
      rw [h, render_cons, List.append_assoc]
    have hfront : bytes (front ++ p.render) = bytes front + bytes p.render := bytes_append _ _
    have hrest : ∀ stop ≤ bytes (front ++ p.render),
        TagsTile s stop (tagsFrom (bytes front + bytes p.render) ps) := by
      intro stop hstop
      rw [← hfront]
      exact ih _ hnext hps hstop
    have hskip : TagsTile s offset (tagsFrom (bytes front + bytes p.render) ps) :=
      hrest offset (by omega)
    cases p with
    | text run => exact hskip
    | lone => exact hskip
    | broken name => exact hskip
    | tag t =>
      obtain ⟨_, hfit, htrail⟩ := hp
      have hopen : s = front ++ (('<' :: t.name) ++
          (renderAll t.attributes ++ (t.closing ++ render ps))) := by
        rw [h, render_cons, Piece.render, t.render_eq]
        simp only [List.cons_append, List.append_assoc]
      have hbody : s = (front ++ '<' :: t.name) ++
          (renderAll t.attributes ++ (t.closing ++ render ps)) := by
        rw [hopen, List.append_assoc]
      have hclosing : s = ((front ++ '<' :: t.name) ++ renderAll t.attributes) ++
          (t.closing ++ render ps) := by
        rw [hbody, List.append_assoc _ (renderAll _)]
      have hlt : bytes ('<' :: t.name) = 1 + bytes t.name := rfl
      have hinsert : bytes (front ++ '<' :: t.name) = bytes front + 1 + bytes t.name := by
        rw [bytes_append, hlt, Nat.add_assoc]
      have hname : slice? s (bytes front) (bytes front + 1 + bytes t.name) =
          some ('<' :: t.tagName.toList) := by
        rw [OpeningTag.tagName, String.toList_ofList, Nat.add_assoc, ← hlt]
        exact slice?_eq_some_iff.mpr ⟨front, _, hopen, rfl, rfl⟩
      have hattributes := attributesTile_spannedFrom hbody hfit
      rw [hinsert] at hattributes
      refine .next hoffset hname hattributes htrail
        (slice?_eq_some_iff.mpr ⟨_, _, hclosing, rfl, rfl⟩) (hrest _ (Nat.le_of_eq ?_))
      show bytes ((front ++ '<' :: t.name) ++ renderAll t.attributes) + bytes t.closing =
        bytes (front ++ t.render)
      rw [← bytes_append, t.render_eq]
      simp only [List.append_assoc, List.cons_append]

/-! ## places -/

/-- the bounds of a slice are places to cut at -/
theorem isSome_cut?_of_slice? {s text : List Char} {start stop : Nat}
    (h : slice? s start stop = some text) : (cut? s start).isSome ∧ (cut? s stop).isSome := by
  obtain ⟨front, rest, rfl, rfl, rfl⟩ := slice?_eq_some_iff.mp h
  refine ⟨by rw [cut?_append]; rfl, ?_⟩
  rw [← bytes_append, ← List.append_assoc, cut?_append]
  rfl

/-- the text can be cut at both ends of a place -/
def Span.Cuts (s : List Char) (p : Span) : Prop := (cut? s p.start).isSome ∧ (cut? s p.stop).isSome

theorem AttributesTile.cuts {s : List Char} {glued : Bool} {offset stop : Nat}
    {l : List SpannedAttribute} (h : AttributesTile s offset glued l stop) :
    ∀ a ∈ l, a.place.Cuts s := by
  induction h with
  | done => simp
  | next _ _ _ htext _ ih => exact List.forall_mem_cons.mpr ⟨isSome_cut?_of_slice? htext, ih⟩

theorem TagsTile.cuts {s : List Char} {offset : Nat} {found : List ScannedTag}
    (h : TagsTile s offset found) : ∀ place ∈ found.flatMap ScannedTag.places, place.Cuts s := by
  induction h with
  | done => simp
  | next _ hname hattributes _ _ _ ih =>
    intro place hplace
    rw [List.flatMap_cons] at hplace
    rcases List.mem_append.mp hplace with hplace | hplace
    · rcases List.mem_cons.mp hplace with rfl | hplace
      · have hcut := (isSome_cut?_of_slice? hname).2
        exact ⟨hcut, hcut⟩
      · obtain ⟨a, ha, rfl⟩ := List.mem_map.mp hplace
        exact hattributes.cuts a ha
    · exact ih place hplace

/-! ## slices -/

/-- patches and the slices between their places, from the end of the `last` place on -/
def splice? (s : List Char) (last : Nat) : List Patch → Option (List Char)
  | [] => slice? s last (bytes s)
  | p :: ps =>
    (slice? s last p.place.start).bind fun kept =>
      (splice? s p.place.stop ps).map fun more => kept ++ (p.text.toList ++ more)

theorem places_patches_sublist (places : List Span) (answers : List (Option String)) :
    ((patches places answers).map Patch.place).Sublist places := by
  induction places generalizing answers with
  | nil => exact List.Sublist.refl []
  | cons place places ih =>
    cases answers with
    | nil => exact List.nil_sublist _
    | cons answer answers =>
      rw [patches_cons, List.map_append]
      cases answer with
      | none => exact (ih answers).cons place
      | some text => exact (ih answers).cons_cons place

/-- no slice is missing where the places are in order -/
theorem exists_splice? {s : List Char} {last : Nat} {ps : List Patch} (hlast : (cut? s last).isSome)
    (hcuts : ∀ p ∈ ps, p.place.Cuts s) (hfirst : ∀ p ∈ ps, last ≤ p.place.start)
    (hpairs : (ps.map Patch.place).Pairwise (·.stop ≤ ·.start)) :
    ∃ out, splice? s last ps = some out := by
  induction ps generalizing last with
  | nil =>
    have hend : cut? s (bytes s) = some (s, []) := by
      have h := cut?_append s []
      rwa [List.append_nil] at h
    obtain ⟨⟨a, b⟩, hab⟩ := Option.isSome_iff_exists.mp hlast
    obtain ⟨rfl, rfl⟩ := cut?_eq_some_iff.mp hab
    exact exists_slice? (by rw [bytes_append]; omega) hlast (by rw [hend]; rfl)
  | cons p ps ih =>
    obtain ⟨hp, hcuts⟩ := List.forall_mem_cons.mp hcuts
    obtain ⟨hbehind, hpairs⟩ := List.pairwise_cons.mp hpairs
    obtain ⟨kept, hkept⟩ := exists_slice? (hfirst p (List.mem_cons_self ..)) hlast hp.1
    obtain ⟨more, hmore⟩ := ih hp.2 hcuts
      (fun q hq => hbehind q.place (List.mem_map_of_mem hq)) hpairs
    exact ⟨_, by rw [splice?, hkept, Option.bind_some, hmore]; rfl⟩

/-- slices and patches give the text with the patches put in -/
theorem Spliced.splice?_eq {offset : Nat} {s x : List Char} {ps : List Patch}
    (h : Spliced offset s ps x) (front : List Char) (hoffset : offset = bytes front) :
    splice? (front ++ s) offset ps = some x := by
  induction h generalizing front with
  | rest offset s =>
    refine slice?_eq_some_iff.mpr ⟨front, [], by rw [List.append_nil], hoffset, ?_⟩
    rw [bytes_append, hoffset]
  | @patch offset s gap old rest out p ps hs hstart hstop _ ih =>
    have hgap : slice? (front ++ s) offset p.place.start = some gap :=
      slice?_eq_some_iff.mpr ⟨front, old ++ rest, by rw [hs], hoffset, hstart⟩
    have ih := ih (front ++ (gap ++ old)) (by
      rw [hstop, hstart, hoffset, bytes_append, bytes_append, Nat.add_assoc])
    have hsplit : (front ++ (gap ++ old)) ++ rest = front ++ s := by
      rw [hs, List.append_assoc, List.append_assoc]
    rw [hsplit] at ih
    rw [splice?, hgap, Option.bind_some, ih]
    rfl

end Stencil.Markup

namespace Stencil

open Stencil.Markup

/-- The offsets of a scan tile the opening tags: the name ends where the attributes begin, each
attribute begins where the one before it ends, and blanks and the end of the list follow, in front
of the next tag.  So whatever is answered, all slices between the places of the answers are there,
and an edit that succeeds is made of them. -/
theorem scan_tiles (template : String) (found : List ScannedTag) (h : scan template = .ok found) :
    TagsTile template.toList 0 found ∧
    (∀ answers, ∃ out, splice? template.toList 0
      (patches (found.flatMap ScannedTag.places) answers) = some out) ∧
    ∀ (σ β : Type) (i : Instruction σ β) (c : Component β) (st : σ) answers t,
      (i.ask c (found.flatMap ScannedTag.parts)).run.run st = (.ok answers, t) →
      ∃ out, (editTemplate i c template).run.run st = (.ok out, t) ∧
        splice? template.toList 0 (patches (found.flatMap ScannedTag.places) answers) =
          some out.toList := by
  obtain ⟨ps, hsplits, rfl⟩ := scan_ok_iff.mp h
  obtain ⟨hwell, hrender⟩ := hsplits
  have htiles : TagsTile template.toList 0 (tagsFrom 0 ps) :=
    tagsTile_tagsFrom [] hrender.symm hwell (Nat.le_refl 0)
  refine ⟨htiles, fun answers => ?_, fun σ β i c st answers t hanswers => ?_⟩
  · have hsub := places_patches_sublist ((tagsFrom 0 ps).flatMap ScannedTag.places) answers
    have hzero : (Text.cut? template.toList 0).isSome := by
      rw [Text.cut?_zero]
      rfl
    refine exists_splice? hzero (fun p hp => ?_) (fun p _ => Nat.zero_le _)
      ((places_ordered ps).sublist hsub)
    exact htiles.cuts p.place (hsub.subset (List.mem_map_of_mem hp))
  · rw [parts_tagsFrom] at hanswers
    obtain ⟨out, hout, hspliced⟩ :=
      run_editTemplate_of_ask_ok (parse_ok_iff.mpr ⟨hwell, hrender⟩) hanswers
    rw [hrender] at hspliced
    exact ⟨out, hout, hspliced.splice?_eq [] rfl⟩

/-- characters of two bytes, and an attribute right behind a value -/
theorem scan_tiles_glued :
    scan "é<ü a = \"ñ>\"b c />x<d>" = .ok [⟨"ü", 5, [⟨⟨"a", some "\"ñ>\""⟩, 5, 15⟩,
      ⟨⟨"b", none⟩, 15, 16⟩, ⟨⟨"c", none⟩, 16, 18⟩]⟩, ⟨"d", 24, []⟩] ∧
    TagsTile "é<ü a = \"ñ>\"b c />x<d>".toList 0 [⟨"ü", 5, [⟨⟨"a", some "\"ñ>\""⟩, 5, 15⟩,
      ⟨⟨"b", none⟩, 15, 16⟩, ⟨⟨"c", none⟩, 16, 18⟩]⟩, ⟨"d", 24, []⟩] ∧
    ∃ out, splice? "é<ü a = \"ñ>\"b c />x<d>".toList 0
      [⟨⟨5, 5⟩, " k"⟩, ⟨⟨15, 16⟩, ""⟩, ⟨⟨24, 24⟩, " e"⟩] = some out := by
  have hscan : scan "é<ü a = \"ñ>\"b c />x<d>" = .ok [⟨"ü", 5, [⟨⟨"a", some "\"ñ>\""⟩, 5, 15⟩,
      ⟨⟨"b", none⟩, 15, 16⟩, ⟨⟨"c", none⟩, 16, 18⟩]⟩, ⟨"d", 24, []⟩] := by decide +kernel
  obtain ⟨htiles, hslices, _⟩ := scan_tiles _ _ hscan
  exact ⟨hscan, htiles, hslices [some " k", none, some "", none, some " e"]⟩

end Stencil
