import Stencil.Proofs.Edit.Answers
import Stencil.Proofs.Edit.Retag
import Stencil.Proofs.Run.Step

/-!
# Scanning what was edited

Answers that are attributes, each with blanks in front, leave a template that scans, and its tags
have just these attributes.

* `ListText`           a text of attributes with blanks in front;
* `WrittenAll`         the attributes that stand in the place of some parts after their answers;
* `Filled`             the attributes of all tags after their answers;
* `putAll_eq_render`   such answers give the text of other pieces;
* `Filled.splits`      and a text that falls into these pieces;
* `edit_rescans`       edits with such answers.
-/

namespace Stencil.Markup

open Stencil.Text

/-! ## answers that are attributes -/

/-- a text of attributes with blanks in front of each; the empty text has none -/
def ListText (text : String) (l : List AttributeText) : Prop :=
  text.toList = renderAll l ∧ ∀ a ∈ l, a.Sound ∧ a.lead ≠ []

theorem listText_empty : ListText "" [] := ⟨rfl, by simp⟩

/-- what stands in the place of the attributes `own` after an answer -/
inductive Written (own : List AttributeText) : Option String → List AttributeText → Prop
  | kept : Written own none own
  | text {text : String} {l : List AttributeText} (h : ListText text l) : Written own (some text) l

inductive WrittenAll : List (List AttributeText) → List (Option String) →
    List AttributeText → Prop
  | nil : WrittenAll [] [] []
  | cons {own l r : List AttributeText} {owns : List (List AttributeText)}
      {answer : Option String} {answers : List (Option String)} (h : Written own answer l)
      (hr : WrittenAll owns answers r) : WrittenAll (own :: owns) (answer :: answers) (l ++ r)

/-- the attributes of tags after the answers for their parts, tag by tag -/
inductive Filled : List OpeningTag → List (List (Option String)) →
    List (List AttributeText) → Prop
  | nil : Filled [] [] []
  | cons {t : OpeningTag} {ts : List OpeningTag} {answers : List (Option String)}
      {rest : List (List (Option String))} {l : List AttributeText}
      {ls : List (List AttributeText)} (h : WrittenAll t.owned answers l)
      (hr : Filled ts rest ls) : Filled (t :: ts) (answers :: rest) (l :: ls)

theorem Written.answered_eq {own l : List AttributeText} {answer : Option String}
    (h : Written own answer l) : answered own answer = renderAll l := by
  cases h with
  | kept => rfl
  | text h => exact h.1

theorem WrittenAll.flatten_eq {owns : List (List AttributeText)} {answers : List (Option String)}
    {l : List AttributeText} (h : WrittenAll owns answers l) :
    (List.zipWith answered owns answers).flatten = renderAll l := by
  induction h with
  | nil => rfl
  | cons h _ ih => rw [List.zipWith_cons_cons, List.flatten_cons, ih, h.answered_eq, renderAll_append]

/-- what all attributes of the template have, and all attributes of the answers -/
theorem WrittenAll.forall_mem {P : AttributeText → Prop} {owns : List (List AttributeText)}
    {answers : List (Option String)} {l : List AttributeText} (h : WrittenAll owns answers l)
    (howns : ∀ own ∈ owns, ∀ a ∈ own, P a) (hP : ∀ a, a.Sound ∧ a.lead ≠ [] → P a) :
    ∀ a ∈ l, P a := by
  induction h with
  | nil => simp
  | @cons own l r owns answer answers h hr ih =>
    intro a ha
    rcases List.mem_append.mp ha with ha | ha
    · cases h with
      | kept => exact howns own (List.mem_cons_self ..) a ha
      | text h => exact hP a (h.2 a ha)
    · exact ih (fun own hown => howns own (List.mem_cons_of_mem _ hown)) a ha

theorem OpeningTag.forall_mem_owned {t : OpeningTag} {P : AttributeText → Prop}
    (h : ∀ a ∈ t.attributes, P a) : ∀ own ∈ t.owned, ∀ a ∈ own, P a := by
  intro own hown a ha
  rcases List.mem_cons.mp hown with rfl | hown
  · cases ha
  · obtain ⟨b, hb, rfl⟩ := List.mem_map.mp hown
    rw [List.mem_singleton.mp ha]
    exact h b hb

/-- an answer that is a text of attributes, if there is one -/
def Proper (answer : Option String) : Prop := ∀ text ∈ answer, ∃ l, ListText text l

theorem exists_writtenAll {α : Type} {l : List α} {answers : List (Option String)}
    (h : List.Forall₂ (fun _ answer => Proper answer) l answers)
    {owns : List (List AttributeText)} (hlength : owns.length = l.length) :
    ∃ r, WrittenAll owns answers r := by
  induction h generalizing owns with
  | nil => exact ⟨[], List.length_eq_zero_iff.mp hlength ▸ .nil⟩
  | @cons _ answer _ answers h _ ih =>
    cases owns with
    | nil => cases hlength
    | cons own owns =>
      obtain ⟨r, hr⟩ := ih (Nat.succ.inj hlength)
      cases answer with
      | none => exact ⟨own ++ r, .cons .kept hr⟩
      | some text =>
        obtain ⟨l, hl⟩ := h text rfl
        exact ⟨l ++ r, .cons (.text hl) hr⟩

/-! ## the text with the answers put in -/

theorem OpeningTag.put_eq_render {t : OpeningTag} {answers : List (Option String)}
    {l : List AttributeText} (h : WrittenAll t.owned answers l) :
    t.put answers = OpeningTag.render { t with attributes := l } := by
  rw [OpeningTag.put, h.flatten_eq, OpeningTag.render_eq]
  rfl

theorem Filled.length_eq {ts : List OpeningTag} {answers : List (List (Option String))}
    {ls : List (List AttributeText)} (h : Filled ts answers ls) : ls.length = ts.length := by
  induction h with
  | nil => rfl
  | cons _ _ ih => rw [List.length_cons, List.length_cons, ih]

theorem putAll_eq_render {ps : List Piece} {answers : List (List (Option String))}
    {ls : List (List AttributeText)} (h : Filled (openingTags ps) answers ls) :
    putAll ps answers = render (withAttributes ps ls) := by
  induction ps generalizing answers ls with
  | nil => rfl
  | cons p ps ih =>
    rcases p.tag_or_other with ⟨t, rfl⟩ | hp
    · replace h : Filled (t :: openingTags ps) answers ls := h
      cases h with
      | cons h hr =>
        rw [putAll, withAttributes, render_cons, ih hr, OpeningTag.put_eq_render h]
        rfl
    · rw [openingTags_cons_other hp] at h
      rw [putAll_cons_other hp, withAttributes_cons_other hp, render_cons, ih h]

theorem Filled.forall_mem {P : AttributeText → Prop} {ts : List OpeningTag}
    {answers : List (List (Option String))} {ls : List (List AttributeText)}
    (h : Filled ts answers ls) (hts : ∀ t ∈ ts, ∀ a ∈ t.attributes, P a)
    (hP : ∀ a, a.Sound ∧ a.lead ≠ [] → P a) : ∀ l ∈ ls, ∀ a ∈ l, P a := by
  induction h with
  | nil => simp
  | @cons t ts answers rest l ls h hr ih =>
    intro m hm
    rcases List.mem_cons.mp hm with rfl | hm
    · exact h.forall_mem (OpeningTag.forall_mem_owned (hts t (List.mem_cons_self ..))) hP
    · exact ih (fun t ht => hts t (List.mem_cons_of_mem _ ht)) m hm

/-- if the attributes are separated, the text with the answers falls into the pieces with them -/
theorem Filled.splits {ps : List Piece} {answers : List (List (Option String))}
    {ls : List (List AttributeText)} (h : Filled (openingTags ps) answers ls) (hps : WellFormed ps)
    (hsep : ∀ l ∈ ls, Separated false l) :
    Splits (String.ofList (putAll ps answers)) (withAttributes ps ls) := by
  have hsound : ∀ l ∈ ls, ∀ a ∈ l, a.Sound :=
    h.forall_mem (fun t ht => (hps.fits t ht).attributes.sound) fun a ha => ha.1
  refine ⟨(wellFormed_withAttributes hps h.length_eq hsound).mpr hsep, ?_⟩
  rw [String.toList_ofList, putAll_eq_render h]

/-- the attributes of one tag after answers, attribute by attribute -/
theorem writtenAll_map {answer : AttributeText → Option String}
    {new : AttributeText → AttributeText} {l : List AttributeText}
    (h : ∀ a ∈ l, Written [a] (answer a) [new a]) :
    WrittenAll (l.map fun a => [a]) (l.map answer) (l.map new) := by
  induction l with
  | nil => exact .nil
  | cons a l ih =>
    obtain ⟨ha, hl⟩ := List.forall_mem_cons.mp h
    exact .cons ha (ih hl)

theorem filled_map {answers : OpeningTag → List (Option String)}
    {new : OpeningTag → List AttributeText} {ts : List OpeningTag}
    (h : ∀ t ∈ ts, WrittenAll t.owned (answers t) (new t)) :
    Filled ts (ts.map answers) (ts.map new) := by
  induction ts with
  | nil => exact .nil
  | cons t ts ih =>
    obtain ⟨ht, hts⟩ := List.forall_mem_cons.mp h
    exact .cons ht (ih hts)

theorem exists_filled {ts : List OpeningTag} {answers : List (List (Option String))}
    (h : List.Forall₂ (fun t answers => List.Forall₂ (fun _ answer => Proper answer) t.parts answers)
      ts answers) : ∃ ls, Filled ts answers ls := by
  induction h with
  | nil => exact ⟨[], .nil⟩
  | @cons t answers ts rest h _ ih =>
    obtain ⟨ls, hls⟩ := ih
    have hlength : t.owned.length = t.parts.length := by simp [OpeningTag.owned, OpeningTag.parts]
    obtain ⟨l, hl⟩ := exists_writtenAll h hlength
    exact ⟨l :: ls, .cons hl hls⟩

end Stencil.Markup

/-! ## edits -/

namespace Stencil

open Stencil.Markup

variable {σ β : Type}

theorem run_editTemplate_ok {i : Instruction σ β} {c : Component β} {template : String}
    {ps : List Piece} {answers : List (List (Option String))} {st t : σ}
    (hps : parse template = .ok ps)
    (h : (askAll (fun part => i.replace part c) ps).run.run st = (.ok answers, t)) :
    (editTemplate i c template).run.run st = (.ok (String.ofList (putAll ps answers)), t) := by
  rw [editTemplate, hps]
  simp only
  rw [run_adapt_ok, edit_eq_map, run_map, h]
  rfl

/-- Edits whose answers are attributes with blanks in front of each give a template that scans, if
there are blanks in front of all attributes of the old one.  Its tags keep their names, and have the
attributes of the answers in the places of those that the answers are for. -/
theorem edit_rescans {i : Instruction σ β} {c : Component β} {template : String}
    {ps : List Piece} (hps : parse template = .ok ps)
    (hspaced : ∀ t ∈ openingTags ps, ∀ a ∈ t.attributes, a.lead ≠ [])
    (hi : ∀ part st, ∃ answer t, (i.replace part c).run.run st = (.ok answer, t) ∧ Proper answer)
    (st : σ) :
    ∃ out answers t, (editTemplate i c template).run.run st = (.ok out, t) ∧
      (askAll (fun part => i.replace part c) ps).run.run st = (.ok answers, t) ∧
      (∃ ls, Filled (openingTags ps) answers ls) ∧
      ∀ ls, Filled (openingTags ps) answers ls → ∃ found, scan out = .ok found ∧
        found.map ScannedTag.name = (openingTags ps).map OpeningTag.tagName ∧
        found.map (fun t => t.attributes.map SpannedAttribute.attr) =
          ls.map fun l => l.map AttributeText.attr := by
  have hwell := (parse_ok_iff.mp hps).1
  have hask : ∀ t ∈ openingTags ps, ∀ st, ∃ answers u,
      (t.parts.mapM fun part => i.replace part c).run.run st = (.ok answers, u) ∧
        List.Forall₂ (fun _ answer => Proper answer) t.parts answers :=
    fun t _ st => run_mapM_ok (fun part _ st => hi part st) st
  obtain ⟨answers, t, hrun, hanswers⟩ := run_mapM_ok hask st
  refine ⟨_, answers, t, run_editTemplate_ok hps hrun, hrun, exists_filled hanswers, ?_⟩
  intro ls hls
  have hlead : ∀ l ∈ ls, ∀ a ∈ l, a.lead ≠ [] := hls.forall_mem hspaced fun a ha => ha.2
  have hsplits := hls.splits hwell fun l hl => separated_of_lead_ne (hlead l hl) false
  exact ⟨_, scan_ok_iff.mpr ⟨_, hsplits, rfl⟩, tagsFrom_withAttributes 0 hls.length_eq⟩

/-- a component without children -/
def bare : Component Unit := ⟨"", Dict.empty, ()⟩

/-- writes an attribute into every tag and deletes `x`, and counts its calls -/
def stamping : Instruction Nat Unit where
  replace part _ := do
    let n ← get
    set (n + 1)
    pure (if part.isTag then some " k=\"</>\""
      else if part.attr?.map Attribute.key = some "x" then some "" else none)

def stampedPieces : List Piece :=
  [.tag ⟨['a'], [⟨[' '], ['x'], some ⟨[], [], ['"', '1', '"']⟩⟩, ⟨[' '], ['y'], none⟩], [' '],
    .slash⟩, .text ['>', 'b'], .lone, .tag ⟨['c'], [], [], .angle⟩]

theorem edit_rescans_stamped :
    parse "<a x=\"1\" y />b<<c>" = .ok stampedPieces ∧
    (∀ t ∈ openingTags stampedPieces, ∀ a ∈ t.attributes, a.lead ≠ []) ∧
    (∀ part st, ∃ answer t, (stamping.replace part bare).run.run st = (.ok answer, t) ∧
      Proper answer) ∧
    ∃ out t found, (editTemplate stamping bare "<a x=\"1\" y />b<<c>").run.run 0 = (.ok out, t) ∧
      scan out = .ok found ∧ found.map ScannedTag.name = ["a", "c"] := by
  have hparse : parse "<a x=\"1\" y />b<<c>" = .ok stampedPieces := by decide +kernel
  have hspaced : ∀ t ∈ openingTags stampedPieces, ∀ a ∈ t.attributes, a.lead ≠ [] := by decide
  have hvalue : ValueText.Fits ⟨[], [], ['"', '<', '/', '>', '"']⟩ :=
    ⟨by simp, by simp, ['<', '/', '>'], by simp [notQuote], rfl⟩
  have hstamp :
      ListText " k=\"</>\"" [⟨[' '], ['k'], some ⟨[], [], ['"', '<', '/', '>', '"']⟩⟩] := by
    refine ⟨rfl, List.forall_mem_singleton.mpr ⟨⟨?_, by simp, ?_, ?_⟩, by simp⟩⟩
    · exact List.forall_mem_singleton.mpr rfl
    · exact List.forall_mem_singleton.mpr rfl
    · intro v hv
      cases hv
      exact hvalue
  have hi : ∀ part st, ∃ answer t, (stamping.replace part bare).run.run st = (.ok answer, t) ∧
      Proper answer := by
    intro part st
    refine ⟨_, st + 1, rfl, fun text htext => ?_⟩
    split at htext
    · cases htext
      exact ⟨_, hstamp⟩
    · split at htext
      · cases htext
        exact ⟨[], listText_empty⟩
      · cases htext
  obtain ⟨out, answers, t, hrun, _, ⟨ls, hls⟩, hall⟩ := edit_rescans hparse hspaced hi 0
  obtain ⟨found, hscan, hnames, _⟩ := hall ls hls
  exact ⟨hparse, hspaced, hi, out, t, found, hrun, hscan, hnames⟩

end Stencil
