import Stencil.Proofs.Edit.Splice
import Stencil.Proofs.Markup.Concat

/-!
# Editing templates one after the other

An edit of a template and a text behind it is an edit of the one and then of the other.

* `edit_join`             an edit of pieces one after the other;
* `editTemplate_append`   an edit of templates one after the other;
* `template_append`       scans and edits of a template with a text behind it.
-/

namespace Stencil.Markup

section
variable {m : Type → Type} [Monad m] [LawfulMonad m] (ask : Part → m (Option String))

theorem edit_cons (p : Piece) (ps : List Piece) :
    edit ask (p :: ps) = (do
      let x ← p.edit ask
      let y ← edit ask ps
      pure (String.ofList x ++ y)) := by
  simp [edit, String.ofList_append]

theorem edit_before (p : Piece) (ps : List Piece) :
    edit ask (p.before ps) = edit ask (p :: ps) := by
  rcases p.before_cases ps with h | ⟨run, more, rest, rfl, rfl, h⟩
  · rw [h]
  · have htext : ∀ text, (Piece.text text).edit ask = pure text := fun _ => rfl
    rw [h, edit_cons, edit_cons, edit_cons, htext, htext, htext, pure_bind, pure_bind, pure_bind]
    simp only [bind_assoc, pure_bind, String.ofList_append, String.append_assoc]

theorem edit_join (ps qs : List Piece) :
    edit ask (join ps qs) = (do
      let x ← edit ask ps
      let y ← edit ask qs
      pure (x ++ y)) := by
  induction ps with
  | nil => simp [join_nil, edit]
  | cons p ps ih =>
    rw [join_cons, edit_before, edit_cons, ih, edit_cons]
    simp only [bind_assoc, pure_bind, String.append_assoc]

end

end Stencil.Markup

namespace Stencil

open Stencil.Text Stencil.Markup

variable {σ β : Type}

theorem editTemplate_append (i : Instruction σ β) (c : Component β) {a b : String}
    {found more : List ScannedTag} (ha : scan a = .ok found) (hend : a.toList.getLast? ≠ some '<')
    (hb : scan b = .ok more) :
    editTemplate i c (a ++ b) = (do
      let x ← editTemplate i c a
      let y ← editTemplate i c b
      pure (x ++ y)) := by
  obtain ⟨ps, hps, _⟩ := scan_ok_iff.mp ha
  obtain ⟨qs, hqs, _⟩ := scan_ok_iff.mp hb
  have hps := parse_ok_iff.mpr hps
  have hqs := parse_ok_iff.mpr hqs
  have happend : parse (a ++ b) = .ok (join ps qs) := by
    rw [parse_append hps hend, hqs]
    rfl
  rw [editTemplate, editTemplate, editTemplate, happend, hps, hqs]
  simp only
  rw [edit_join]
  simp only [adapt_bind]
  rfl

/-- an edit succeeds if no call fails -/
theorem exists_editTemplate {i : Instruction σ β} {c : Component β} {template : String}
    {found : List ScannedTag} (h : scan template = .ok found)
    (hi : ∀ part st, ∃ answer t, (i.replace part c).run.run st = (.ok answer, t)) (st : σ) :
    ∃ out t, (editTemplate i c template).run.run st = (.ok out, t) := by
  obtain ⟨ps, hsplits, _⟩ := scan_ok_iff.mp h
  have hparts : ∀ part ∈ (openingTags ps).flatMap OpeningTag.parts, ∀ st, ∃ answer t,
      (i.replace part c).run.run st = (.ok answer, t) := fun part _ => hi part
  obtain ⟨answers, t, hanswers⟩ := exists_ask hparts st
  obtain ⟨out, hout, _⟩ := run_editTemplate_of_ask_ok (parse_ok_iff.mpr hsplits) hanswers
  exact ⟨out, t, hout⟩

/-- A template that scans and does not end in `<` leaves nothing over for the text behind it.  Its
tags come first, then those of the text, or its error, as many bytes further on.  An edit of both is
an edit of the template and then of the text, which goes on with the state that the template left. -/
theorem template_append {a b : String} {found : List ScannedTag} (ha : scan a = .ok found)
    (hend : a.toList.getLast? ≠ some '<') :
    (∀ more, scan b = .ok more →
      scan (a ++ b) = .ok (found ++ more.map (ScannedTag.shift (bytes a.toList)))) ∧
    (∀ e, scan b = .error e → scan (a ++ b) = .error (e.shift (bytes a.toList))) ∧
    ∀ {σ β : Type} (i : Instruction σ β) (c : Component β) (more : List ScannedTag),
      scan b = .ok more →
      (editTemplate i c (a ++ b) = do
        let x ← editTemplate i c a
        let y ← editTemplate i c b
        pure (x ++ y)) ∧
      ((∀ part st, ∃ answer t, (i.replace part c).run.run st = (.ok answer, t)) →
        ∀ st, ∃ x t y u, (editTemplate i c a).run.run st = (.ok x, t) ∧
          (editTemplate i c b).run.run t = (.ok y, u) ∧
          (editTemplate i c (a ++ b)).run.run st = (.ok (x ++ y), u)) := by
  refine ⟨fun more hb => ?_, fun e hb => ?_, fun i c more hb => ?_⟩
  · rw [scan_append ha hend, hb]
    rfl
  · rw [scan_append ha hend, hb]
    rfl
  · have happend := editTemplate_append i c ha hend hb
    refine ⟨happend, fun hi st => ?_⟩
    obtain ⟨x, t, hx⟩ := exists_editTemplate ha hi st
    obtain ⟨y, u, hy⟩ := exists_editTemplate hb hi t
    refine ⟨x, t, y, u, hx, hy, ?_⟩
    rw [happend, run_bind, hx]
    simp only
    rw [run_bind, hy]
    rfl

/-- a closing tag that is cut in two -/
theorem template_append_closing_tag :
    scan "é<b k=\"<\"x >x</b" =
      .ok [⟨"b", 4, [⟨⟨"k", some "\"<\""⟩, 4, 10⟩, ⟨⟨"x", none⟩, 10, 11⟩]⟩] ∧
    "é<b k=\"<\"x >x</b".toList.getLast? ≠ some '<' ∧
    scan ("é<b k=\"<\"x >x</b" ++ ">é<i x=\"é\"/>") =
      .ok [⟨"b", 4, [⟨⟨"k", some "\"<\""⟩, 4, 10⟩, ⟨⟨"x", none⟩, 10, 11⟩]⟩,
        ⟨"i", 22, [⟨⟨"x", some "\"é\""⟩, 22, 29⟩]⟩] ∧
    scan ("é<b k=\"<\"x >x</b" ++ ">é<i j=é") =
      .error (.malformedAttribute 25 "expected '\"' to open attribute value" "é") ∧
    ∃ x t y u, (editTemplate stamping bare "é<b k=\"<\"x >x</b").run.run 0 = (.ok x, t) ∧
      (editTemplate stamping bare ">é<i x=\"é\"/>").run.run t = (.ok y, u) ∧
      (editTemplate stamping bare ("é<b k=\"<\"x >x</b" ++ ">é<i x=\"é\"/>")).run.run 0 =
        (.ok (x ++ y), u) := by
  have ha : scan "é<b k=\"<\"x >x</b" =
      .ok [⟨"b", 4, [⟨⟨"k", some "\"<\""⟩, 4, 10⟩, ⟨⟨"x", none⟩, 10, 11⟩]⟩] := by decide +kernel
  have hend : "é<b k=\"<\"x >x</b".toList.getLast? ≠ some '<' := by decide
  have hgood : scan ">é<i x=\"é\"/>" = .ok [⟨"i", 5, [⟨⟨"x", some "\"é\""⟩, 5, 12⟩]⟩] := by
    decide +kernel
  have hbad : scan ">é<i j=é" =
      .error (.malformedAttribute 8 "expected '\"' to open attribute value" "é") := by decide +kernel
  have hbytes : bytes "é<b k=\"<\"x >x</b".toList = 17 := by decide
  obtain ⟨hok, _, hedit⟩ := template_append (b := ">é<i x=\"é\"/>") ha hend
  obtain ⟨_, herror, _⟩ := template_append (b := ">é<i j=é") ha hend
  rw [hbytes] at hok herror
  refine ⟨ha, hend, hok _ hgood, herror _ hbad, (hedit stamping bare _ hgood).2 ?_ 0⟩
  exact fun part st => ⟨_, st + 1, rfl⟩

end Stencil
