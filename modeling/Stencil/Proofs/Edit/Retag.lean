import Stencil.Proofs.Markup.Offsets

/-!
# Tags with other attributes

Text between the tags keeps its meaning when the attributes in the tags change.

* `withAttributes`                pieces with other attributes in their opening tags;
* `openingTags_withAttributes`    the tags they have;
* `Separated`                     attributes with blanks between them, where these are needed;
* `attributesFit_iff_separated`   these are the ones that fit into a tag;
* `wellFormed_withAttributes`     they give a template that falls into the same pieces;
* `scan_withAttributes_iff`       and one in which the tags are found where they are put.
-/

namespace Stencil.Markup

open Stencil.Text

/-! ## other attributes -/

/-- pieces with other attributes in their opening tags, tag by tag -/
def withAttributes : List Piece → List (List AttributeText) → List Piece
  | .tag t :: ps, l :: ls => .tag { t with attributes := l } :: withAttributes ps ls
  | p :: ps, ls => p :: withAttributes ps ls
  | [], _ => []

theorem withAttributes_cons_other {p : Piece} (h : p.tag? = none) (ps : List Piece)
    (ls : List (List AttributeText)) : withAttributes (p :: ps) ls = p :: withAttributes ps ls := by
  cases p with
  | tag t => cases h
  | text run => rfl
  | lone => rfl
  | broken name => rfl

theorem openingTags_withAttributes {ps : List Piece} {ls : List (List AttributeText)}
    (h : ls.length = (openingTags ps).length) :
    openingTags (withAttributes ps ls) =
      List.zipWith (fun t l => { t with attributes := l }) (openingTags ps) ls := by
  induction ps generalizing ls with
  | nil => rfl
  | cons p ps ih =>
    rcases p.tag_or_other with ⟨t, rfl⟩ | hp
    · cases ls with
      | nil => cases h
      | cons l ls =>
        show _ :: openingTags (withAttributes ps ls) = _
        rw [ih (Nat.succ.inj h)]
        rfl
    · rw [openingTags_cons_other hp] at h ⊢
      rw [withAttributes_cons_other hp, openingTags_cons_other hp, ih h]

theorem names_withAttributes {ps : List Piece} {ls : List (List AttributeText)}
    (h : ls.length = (openingTags ps).length) :
    (openingTags (withAttributes ps ls)).map OpeningTag.tagName =
      (openingTags ps).map OpeningTag.tagName := by
  have hzip : ((openingTags ps).zip ls).map Prod.fst = openingTags ps :=
    List.map_fst_zip (Nat.le_of_eq h.symm)
  have hnames := congrArg (List.map OpeningTag.tagName) hzip
  rw [List.zip, List.map_zipWith, List.map_zipWith] at hnames
  rw [openingTags_withAttributes h, List.map_zipWith]
  exact hnames

theorem attributes_withAttributes {ps : List Piece} {ls : List (List AttributeText)}
    (h : ls.length = (openingTags ps).length) :
    (openingTags (withAttributes ps ls)).map OpeningTag.attributes = ls := by
  have hzip : ((openingTags ps).zip ls).map Prod.snd = ls := List.map_snd_zip (Nat.le_of_eq h)
  rw [List.zip, List.map_zipWith] at hzip
  rw [openingTags_withAttributes h, List.map_zipWith]
  exact hzip

/-- the tags keep their names and have the other attributes -/
theorem tagsFrom_withAttributes (offset : Nat) {ps : List Piece} {ls : List (List AttributeText)}
    (h : ls.length = (openingTags ps).length) :
    (tagsFrom offset (withAttributes ps ls)).map ScannedTag.name =
        (openingTags ps).map OpeningTag.tagName ∧
      (tagsFrom offset (withAttributes ps ls)).map
          (fun t => t.attributes.map SpannedAttribute.attr) =
        ls.map fun l => l.map AttributeText.attr := by
  have hattributes := congrArg (List.map fun l => l.map AttributeText.attr)
    (attributes_withAttributes h)
  rw [List.map_map] at hattributes
  rw [names_tagsFrom, attributes_tagsFrom]
  exact ⟨names_withAttributes h, hattributes⟩

/-- other attributes do not change the first character of a text -/
theorem head?_render_withAttributes (ps : List Piece) (ls : List (List AttributeText)) :
    (render (withAttributes ps ls)).head? = (render ps).head? := by
  induction ps generalizing ls with
  | nil => rfl
  | cons p ps ih =>
    rcases p.tag_or_other with ⟨t, rfl⟩ | hp
    · cases ls with
      | nil => rfl
      | cons l ls => rfl
    · rw [withAttributes_cons_other hp, render_cons, render_cons, List.head?_append,
        List.head?_append, ih]

/-! ## which attributes fit -/

/-- blanks in front of all attributes that do not follow a value -/
def Separated : Bool → List AttributeText → Prop
  | _, [] => True
  | glued, a :: l => (glued = false → a.lead ≠ []) ∧ Separated a.value.isSome l

theorem separated_of_lead_ne {l : List AttributeText} (h : ∀ a ∈ l, a.lead ≠ []) (glued : Bool) :
    Separated glued l := by
  induction l generalizing glued with
  | nil => trivial
  | cons a l ih =>
    exact ⟨fun _ => h a (List.mem_cons_self ..), ih (fun b hb => h b (List.mem_cons_of_mem _ hb)) _⟩

/-- behind a value nothing is needed in front of the first attribute -/
theorem Separated.behind_value {l : List AttributeText} {glued : Bool} (h : Separated glued l) :
    Separated true l := by
  cases l with
  | nil => trivial
  | cons a l => exact ⟨nofun, h.2⟩

/-- attributes stay separated when some of them become attributes with blanks in front and a
value -/
theorem Separated.map {f : AttributeText → AttributeText}
    (hf : ∀ a, f a = a ∨ (f a).lead ≠ [] ∧ (f a).value.isSome) {l : List AttributeText}
    {glued : Bool} (h : Separated glued l) : Separated glued (l.map f) := by
  induction l generalizing glued with
  | nil => trivial
  | cons a l ih =>
    obtain ⟨ha, hl⟩ := h
    rcases hf a with hsame | ⟨hlead, hvalue⟩
    · rw [List.map_cons, hsame]
      exact ⟨ha, ih hl⟩
    · -- what follows is behind a value now, whatever it was behind before
      exact ⟨fun _ => hlead, hvalue.symm ▸ ih hl.behind_value⟩

/-- such attributes can also be put in front -/
theorem Separated.append {l r : List AttributeText} {glued : Bool}
    (hl : ∀ a ∈ l, a.lead ≠ [] ∧ a.value.isSome) (hr : Separated glued r) :
    Separated glued (l ++ r) := by
  induction l generalizing glued with
  | nil => exact hr
  | cons a l ih =>
    obtain ⟨⟨hlead, hvalue⟩, hl⟩ := List.forall_mem_cons.mp hl
    exact ⟨fun _ => hlead, hvalue.symm ▸ ih hl hr.behind_value⟩

/-- all that matters in front of an attribute is the one before it -/
theorem attributesFit_iff_separated {trail : List Char} {k : Closer} {l : List AttributeText}
    (htrail : ∀ c ∈ trail, isBlank c = true) (h : ∀ a ∈ l, a.Sound) (glued : Bool) :
    AttributesFit (trail ++ [k.char]) glued l ↔ Separated glued l := by
  induction l generalizing glued with
  | nil => exact Iff.rfl
  | cons a l ih =>
    have ih := ih fun b hb => h b (List.mem_cons_of_mem _ hb)
    obtain ⟨hlead, hkne, hkey, hvalue⟩ := h a (List.mem_cons_self ..)
    constructor
    · intro h
      obtain ⟨ha, hl⟩ := h
      exact ⟨ha.lead_ne, (ih _).mp hl⟩
    · intro h
      obtain ⟨hne, hl⟩ := h
      have hfit := (ih _).mpr hl
      refine ⟨⟨hlead, hne, ⟨hkne, hkey, ?_⟩, hvalue⟩, hfit⟩
      obtain ⟨lead, key, value⟩ := a
      cases value with
      | none => exact ((attributesFit_iff htrail false).mp hfit).2 rfl
      | some v => exact (hvalue v rfl).stops_isKeyChar _

theorem OpeningTag.Fits.separated {t : OpeningTag} (h : t.Fits) : Separated false t.attributes :=
  (attributesFit_iff_separated h.trail h.attributes.sound false).mp h.attributes

theorem OpeningTag.Fits.withAttributes_iff {t : OpeningTag} (h : t.Fits) {l : List AttributeText}
    (hl : ∀ a ∈ l, a.Sound) : OpeningTag.Fits { t with attributes := l } ↔ Separated false l := by
  constructor
  · exact OpeningTag.Fits.separated
  · intro hsep
    have hfit : AttributesFit t.closing false l :=
      (attributesFit_iff_separated h.trail hl false).mpr hsep
    exact ⟨⟨h.name.ne, h.name.all, hfit.stops_isNameChar h.trail⟩, hfit, h.trail⟩

/-- other attributes give a template that falls into the same pieces just when they have blanks
between them, where these are needed -/
theorem wellFormed_withAttributes {ps : List Piece} {ls : List (List AttributeText)}
    (h : WellFormed ps) (hlength : ls.length = (openingTags ps).length)
    (hsound : ∀ l ∈ ls, ∀ a ∈ l, a.Sound) :
    WellFormed (withAttributes ps ls) ↔ ∀ l ∈ ls, Separated false l := by
  induction ps generalizing ls with
  | nil =>
    obtain rfl := List.length_eq_zero_iff.mp hlength
    exact ⟨fun _ => by simp, fun _ => trivial⟩
  | cons p ps ih =>
    obtain ⟨hp, hps⟩ := h
    rcases p.tag_or_other with ⟨t, rfl⟩ | hother
    · cases ls with
      | nil => cases hlength
      | cons l ls =>
        have htag := OpeningTag.Fits.withAttributes_iff hp (hsound l (List.mem_cons_self ..))
        have ih := ih hps (Nat.succ.inj hlength) fun m hm => hsound m (List.mem_cons_of_mem _ hm)
        show OpeningTag.Fits _ ∧ WellFormed (withAttributes ps ls) ↔ _
        rw [htag, ih, List.forall_mem_cons]
    · rw [openingTags_cons_other hother] at hlength
      rw [withAttributes_cons_other hother, WellFormed, ih hps hlength hsound,
        Piece.fits_congr (head?_render_withAttributes ps ls)]
      exact and_iff_right hp

/-! ## where the tags are found -/

/-- attributes with the same blanks in front and the same contents are separated alike -/
theorem Separated.congr {l m : List AttributeText} {glued : Bool} (h : Separated glued l)
    (hlm : List.Forall₂ (fun a b => a.lead = b.lead ∧ a.attr = b.attr) l m) :
    Separated glued m := by
  induction hlm generalizing glued with
  | nil => trivial
  | @cons a b l m hab _ ih =>
    obtain ⟨hlead, hattr⟩ := hab
    have hvalue : a.value.isSome = b.value.isSome := by
      have hmap := congrArg (fun x => x.value.isSome) hattr
      simpa [AttributeText.attr] using hmap
    exact ⟨fun hg => hlead ▸ h.1 hg, ih (hvalue ▸ h.2)⟩

/-- tags that are found at the same places of a text have attributes that are separated alike -/
theorem Located.separated {text : List Char} {t u : OpeningTag} {found : ScannedTag}
    (ht : Located text t found) (hu : Located text u found) (hfit : t.Fits)
    (hsound : ∀ a ∈ u.attributes, a.Sound) : Separated false u.attributes := by
  obtain ⟨front, rest, htext, rfl⟩ := ht
  obtain ⟨front', rest', htext', heq⟩ := hu
  obtain ⟨_, hfront, hspanned⟩ := ScannedTag.mk.inj heq
  obtain ⟨rfl, hrest⟩ := append_inj_of_bytes (htext.symm.trans htext') hfront
  exact hfit.separated.congr (leads_of_spannedFrom_eq hspanned hrest hfit.attributes.sound hsound)

/-- A text with other attributes in its tags has these tags at the places of its own just when the
attributes are separated. -/
theorem scan_withAttributes_iff {template out : String} {ps : List Piece}
    {ls : List (List AttributeText)} (hps : Splits template ps)
    (hlength : ls.length = (openingTags ps).length) (hsound : ∀ l ∈ ls, ∀ a ∈ l, a.Sound)
    (hout : out.toList = render (withAttributes ps ls)) :
    scan out = .ok (tagsFrom 0 (withAttributes ps ls)) ↔ ∀ l ∈ ls, Separated false l := by
  have hattributes := attributes_withAttributes hlength
  have hwell := wellFormed_withAttributes hps.1 hlength hsound
  constructor
  · intro h l hl
    obtain ⟨qs, ⟨hqs, hrender⟩, htags⟩ := scan_ok_iff.mp h
    have hq := tagsFrom_located [] hrender.symm
    have hp := tagsFrom_located [] hout
    rw [bytes_nil] at hp hq
    rw [htags] at hq
    rw [← hattributes] at hl hsound
    obtain ⟨u, hu, rfl⟩ := List.mem_map.mp hl
    have hall : ∀ u ∈ openingTags (withAttributes ps ls), Separated false u.attributes :=
      forall_right_of_forall₂ hq hp fun t ht u hu found htf huf =>
        htf.separated huf (hqs.fits t ht) (hsound _ (List.mem_map_of_mem hu))
    exact hall u hu
  · intro h
    exact scan_ok_iff.mpr ⟨_, ⟨hwell.mpr h, hout.symm⟩, rfl⟩

end Stencil.Markup
