import Mathlib.Data.List.Forall2
import Stencil.Proofs.Markup.Split
import Stencil.Proofs.Text.Slice

/-!
# Offsets of tags and attributes

The offset of a tag says where its attributes are written, and the ends of the attributes cut that
text into them.

* `Located`                    a tag that is found where it is written;
* `tagsFrom_located`           all tags are;
* `leads_of_spannedFrom_eq`    spans and contents of attributes give the blanks in front of them.
-/

namespace Stencil.Markup

open Stencil.Text

/-! ## tags -/

/-- `found` is the tag `t`, with the offsets at which `text` has it -/
def Located (text : List Char) (t : OpeningTag) (found : ScannedTag) : Prop :=
  ∃ front rest, text = front ++ (renderAll t.attributes ++ rest) ∧
    found = ⟨t.tagName, bytes front, spannedFrom (bytes front) t.attributes⟩

theorem tagsFrom_located {text : List Char} {ps : List Piece} (front : List Char)
    (h : text = front ++ render ps) :
    List.Forall₂ (Located text) (openingTags ps) (tagsFrom (bytes front) ps) := by
  induction ps generalizing front with
  | nil => exact .nil
  | cons p ps ih =>
    have hrest : text = (front ++ p.render) ++ render ps := by
      rw [h, render_cons, List.append_assoc]
    have ih := ih _ hrest
    rw [bytes_append] at ih
    cases p with
    | tag t =>
      refine .cons ⟨front ++ '<' :: t.name, t.closing ++ render ps, ?_, ?_⟩ ih
      · rw [h, render_cons, Piece.render, t.render_eq]
        simp only [List.cons_append, List.append_assoc]
      · have hlt : bytes ('<' :: t.name) = 1 + bytes t.name := rfl
        rw [bytes_append, hlt, ← Nat.add_assoc]
        rfl
    | text run => exact ih
    | lone => exact ih
    | broken name => exact ih

theorem forall_right_of_forall₂ {α γ δ : Type} {R : α → δ → Prop} {S : γ → δ → Prop}
    {P : γ → Prop} {l : List α} {m : List γ} {n : List δ} (hl : List.Forall₂ R l n)
    (hm : List.Forall₂ S m n) (h : ∀ a ∈ l, ∀ b ∈ m, ∀ c, R a c → S b c → P b) :
    ∀ b ∈ m, P b := by
  induction hl generalizing m with
  | nil =>
    cases hm
    simp
  | @cons a c l n hac _ ih =>
    cases hm with
    | @cons b _ m _ hbc hm =>
      refine List.forall_mem_cons.mpr ⟨h a (List.mem_cons_self ..) b (List.mem_cons_self ..) c hac
        hbc, ih hm fun a' ha b' hb => ?_⟩
      exact h a' (List.mem_cons_of_mem _ ha) b' (List.mem_cons_of_mem _ hb)

/-! ## attributes -/

theorem AttributeText.Sound.lead_eq {a : AttributeText} (h : a.Sound) :
    a.render.takeWhile isBlank = a.lead := by
  obtain ⟨c, r, hkey⟩ := List.exists_cons_of_ne_nil h.key_ne
  have hc : isBlank c = false := (isKeyChar_iff.mp (h.key c (hkey ▸ List.mem_cons_self ..))).1
  rw [AttributeText.render_eq, hkey]
  exact (takeWhile_append_of_stops h.lead (stops_cons.mpr hc)).1

theorem leads_of_spannedFrom_eq {l m : List AttributeText} {offset : Nat} {s t : List Char}
    (h : spannedFrom offset l = spannedFrom offset m) (htext : renderAll l ++ s = renderAll m ++ t)
    (hl : ∀ a ∈ l, a.Sound) (hm : ∀ a ∈ m, a.Sound) :
    List.Forall₂ (fun a b => a.lead = b.lead ∧ a.attr = b.attr) l m := by
  induction l generalizing m offset with
  | nil =>
    cases m with
    | nil => exact .nil
    | cons b m => cases h
  | cons a l ih =>
    cases m with
    | nil => cases h
    | cons b m =>
      obtain ⟨hhead, htail⟩ := List.cons.inj h
      obtain ⟨hattr, _, hstop⟩ := SpannedAttribute.mk.inj hhead
      rw [renderAll_cons, renderAll_cons, List.append_assoc, List.append_assoc] at htext
      obtain ⟨hrender, hrest⟩ := append_inj_of_bytes htext (Nat.add_left_cancel hstop)
      have hlead : a.lead = b.lead := by
        rw [← (hl a (List.mem_cons_self ..)).lead_eq, ← (hm b (List.mem_cons_self ..)).lead_eq,
          hrender]
      rw [hstop] at htail
      exact .cons ⟨hlead, hattr⟩ (ih htail hrest (fun c hc => hl c (List.mem_cons_of_mem _ hc))
        fun c hc => hm c (List.mem_cons_of_mem _ hc))

end Stencil.Markup
