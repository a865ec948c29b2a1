import Stencil.Proofs.Markup.Grammar

/-!
# Cutting a template into pieces

A template scans just when it is cut into pieces of the grammar, and there is one way to cut it.

* `pieces_text`, `pieces_lone`, `pieces_name`   the first piece of a text and the others;
* `pieces_ok_iff`                               the pieces that are read are the well-formed ones;
* `Splits`                                      a way to cut a template into pieces;
* `scan_iff_splits`                             which templates scan, and which tags are found.
-/

namespace Stencil.Markup

open Stencil.Text

/-! ## the readers, one step each -/

theorem opening_of_head_ne {s : List Char} (h : s.head? ≠ some '<') :
    opening s = (attributeList s).map .tag := by
  cases s with
  | nil => rw [attributeList]; rfl
  | cons c r =>
    unfold opening
    split
    · rename_i heq; cases heq
    · rename_i heq
      cases heq
      exact absurd rfl h
    · rename_i heq
      cases heq
      have hx : attributeList ('/' :: r) = .ok ⟨[], [], .slash, r⟩ :=
        attributeList_ok_iff.mpr ⟨rfl, by simp, trivial⟩
      rw [hx]
      rfl
    · rename_i heq
      cases heq
      have hx : attributeList ('>' :: r) = .ok ⟨[], [], .angle, r⟩ :=
        attributeList_ok_iff.mpr ⟨rfl, by simp, trivial⟩
      rw [hx]
      rfl
    · rename_i heq
      cases heq
      rfl

theorem pieces_of_none {s : List Char} (h : MarkupToken.lexer.next? s = none) :
    pieces s = .ok (textPiece s) := by
  rw [pieces]
  split
  · rfl
  · rename_i hsome
    cases hsome.symm.trans h

theorem pieces_of_lessThan {s gap r : List Char}
    (h : MarkupToken.lexer.next? s = some (⟨gap, .lessThan, ['<']⟩, r)) :
    pieces s = (pieces r).map fun ps => textPiece gap ++ .lone :: ps := by
  rw [pieces]
  split
  · rename_i hnone
    cases hnone.symm.trans h
  · rename_i hsome
    cases hsome.symm.trans h
    rfl

theorem pieces_of_tagOpen {s gap name r : List Char}
    (h : MarkupToken.lexer.next? s = some (⟨gap, .tagOpen, '<' :: name⟩, r)) :
    pieces s = match opening r with
      | .error e => .error (e.toFault name r)
      | .ok .broken => (pieces r).map fun ps => textPiece gap ++ .broken name :: ps
      | .ok (.tag x) => (pieces x.rest).map fun ps =>
          textPiece gap ++ .tag ⟨name, x.attributes, x.trail, x.closer⟩ :: ps := by
  rw [pieces]
  split
  · rename_i hnone
    cases hnone.symm.trans h
  · rename_i hsome
    cases hsome.symm.trans h
    simp only [List.tail_cons]
    split <;> rename_i ho <;> rw [ho]

/-- a character that ends a name and is no `<` ends a key as well -/
theorem stops_isKeyChar_of_isNameChar {s : List Char} (hs : Stops isNameChar s)
    (hhead : s.head? ≠ some '<') : Stops isKeyChar s := by
  intro c hc
  have hname := hs c hc
  have hlt : c ≠ '<' := fun h => hhead (h ▸ hc)
  by_contra hkey
  obtain ⟨hblank, hslash, hclose, _⟩ := isKeyChar_iff.mp (by simpa using hkey)
  rw [isNameChar_iff.mpr ⟨hblank, hslash, hlt, hclose⟩] at hname
  cases hname

/-- what is read behind a name -/
theorem opening_tag_iff {s trail rest : List Char} {k : Closer} {l : List AttributeText}
    (hs : Stops isNameChar s) :
    opening s = .ok (.tag ⟨l, trail, k, rest⟩) ↔
      s = renderAll l ++ (trail ++ k.char :: rest) ∧ (∀ c ∈ trail, isBlank c = true) ∧
        AttributesFit (trail ++ [k.char]) false l := by
  have hsplit : ∀ {t : List Char}, t = renderAll l ++ (trail ++ k.char :: rest) →
      t = (renderAll l ++ (trail ++ [k.char])) ++ rest := by simp
  have hne : renderAll l ++ (trail ++ [k.char]) ≠ [] := by simp
  constructor
  · intro h
    have hhead : s.head? ≠ some '<' := by
      intro hhead
      cases s with
      | nil => cases hhead
      | cons c r => cases hhead; cases h
    rw [opening_of_head_ne hhead] at h
    obtain ⟨x, hx, heq⟩ := map_ok_iff.mp h
    cases heq
    obtain ⟨hsx, htrail, hfit⟩ := attributeList_ok_iff.mp hx
    refine ⟨hsx, htrail, (attributesFit_iff htrail false).mpr ⟨hfit, fun _ => ?_⟩⟩
    rw [← stops_append hne rest, ← hsplit hsx]
    exact stops_isKeyChar_of_isNameChar hs hhead
  · intro h
    obtain ⟨heq, htrail, hfit⟩ := h
    obtain ⟨hfit', hstops⟩ := (attributesFit_iff htrail false).mp hfit
    have hhead : s.head? ≠ some '<' := by
      intro hhead
      have h := hstops rfl
      rw [← stops_append hne rest, ← hsplit heq] at h
      cases h _ hhead
    rw [opening_of_head_ne hhead, attributeList_ok_iff.mpr ⟨heq, htrail, hfit'⟩]
    rfl

theorem opening_broken_iff {s : List Char} : opening s = .ok .broken ↔ s.head? = some '<' := by
  constructor
  · intro h
    by_contra hhead
    rw [opening_of_head_ne hhead] at h
    obtain ⟨_, _, heq⟩ := map_ok_iff.mp h
    cases heq
  · intro h
    obtain ⟨c, r, rfl⟩ : ∃ c r, s = c :: r := List.exists_cons_of_ne_nil (by rintro rfl; cases h)
    cases h
    rfl

/-! ## one piece -/

theorem textPiece_of_ne {run : List Char} (h : run ≠ []) : textPiece run = [.text run] := by
  rw [textPiece, if_neg (by simpa using h)]

theorem pieces_nil : pieces [] = .ok [] := pieces_of_none rfl

/-- text goes into a piece of its own -/
theorem pieces_text {run s : List Char} (h : MaximalRun notLessThan run s) :
    pieces (run ++ s) = (pieces s).map (.text run :: ·) := by
  cases hnext : MarkupToken.lexer.next? s with
  | none =>
    have hall := MarkupToken.next?_none_iff.mp hnext
    obtain rfl : s = [] := by
      cases s with
      | nil => rfl
      | cons c r =>
        have hc := hall c (List.mem_cons_self ..)
        rw [stops_cons.mp h.stops] at hc
        cases hc
    have hrun : MarkupToken.lexer.next? (run ++ []) = none :=
      MarkupToken.next?_none_iff.mpr (by simpa using h.all)
    rw [pieces_of_none hrun, pieces_nil, List.append_nil, textPiece_of_ne h.ne]
    rfl
  | some p =>
    obtain ⟨⟨gap, kind, text⟩, r⟩ := p
    obtain ⟨rfl, hgap, hshape⟩ := MarkupToken.next?_iff.mp hnext
    obtain rfl : gap = [] := by
      cases gap with
      | nil => rfl
      | cons c r =>
        have hc := hgap c (List.mem_cons_self ..)
        rw [stops_cons.mp h.stops] at hc
        cases hc
    have hrun : MarkupToken.lexer.next? (run ++ ([] ++ (text ++ r))) = some (⟨run, kind, text⟩, r) :=
      MarkupToken.next?_iff.mpr ⟨rfl, h.all, hshape⟩
    cases hshape with
    | lessThan _ =>
      rw [pieces_of_lessThan hrun, pieces_of_lessThan hnext, textPiece_of_ne h.ne]
      cases pieces r <;> rfl
    | tagOpen _ =>
      rw [pieces_of_tagOpen hrun, pieces_of_tagOpen hnext, textPiece_of_ne h.ne]
      cases opening r with
      | error e => rfl
      | ok o =>
        cases o with
        | broken =>
          show Except.map _ (pieces r) = Except.map _ (Except.map _ (pieces r))
          cases pieces r <;> rfl
        | tag x =>
          show Except.map _ (pieces x.rest) = Except.map _ (Except.map _ (pieces x.rest))
          cases pieces x.rest <;> rfl

theorem pieces_lone {s : List Char} (h : Stops isNameChar s) :
    pieces ('<' :: s) = (pieces s).map (.lone :: ·) := by
  have hnext : MarkupToken.lexer.next? ('<' :: s) = some (⟨[], .lessThan, ['<']⟩, s) :=
    MarkupToken.next?_iff.mpr ⟨rfl, by simp, .lessThan h⟩
  exact pieces_of_lessThan hnext

theorem pieces_name {name s : List Char} (h : MaximalRun isNameChar name s) :
    pieces ('<' :: (name ++ s)) = match opening s with
      | .error e => .error (e.toFault name s)
      | .ok .broken => (pieces s).map (.broken name :: ·)
      | .ok (.tag x) =>
          (pieces x.rest).map (.tag ⟨name, x.attributes, x.trail, x.closer⟩ :: ·) := by
  have hnext : MarkupToken.lexer.next? ('<' :: (name ++ s)) =
      some (⟨[], .tagOpen, '<' :: name⟩, s) :=
    MarkupToken.next?_iff.mpr ⟨rfl, by simp, .tagOpen h⟩
  exact pieces_of_tagOpen hnext

/-! ## all pieces -/

theorem render_tag_append (t : OpeningTag) (s : List Char) :
    t.render ++ s =
      '<' :: (t.name ++ (renderAll t.attributes ++ (t.trail ++ t.closer.char :: s))) := by
  rw [OpeningTag.render_eq, OpeningTag.closing]
  simp only [List.cons_append, List.append_assoc, List.nil_append]

/-- a piece that fits in front of a text is read there first -/
theorem pieces_piece {p : Piece} {s : List Char} (h : p.Fits s) :
    pieces (p.render ++ s) = (pieces s).map (p :: ·) := by
  cases p with
  | text run => exact pieces_text h
  | lone => exact pieces_lone h
  | broken name =>
    show pieces ('<' :: (name ++ s)) = _
    rw [pieces_name h.1, opening_broken_iff.mpr h.2]
  | tag t =>
    obtain ⟨name, l, trail, k⟩ := t
    obtain ⟨hname, hattributes, htrail⟩ := h
    have hsplit : renderAll l ++ (trail ++ k.char :: s) =
        (renderAll l ++ (trail ++ [k.char])) ++ s := by simp
    have hrun : MaximalRun isNameChar name (renderAll l ++ (trail ++ k.char :: s)) := by
      refine ⟨hname.ne, hname.all, ?_⟩
      rw [hsplit, stops_append (by simp)]
      exact hname.stops
    rw [Piece.render, render_tag_append, pieces_name hrun,
      (opening_tag_iff hrun.stops).mpr ⟨rfl, htrail, hattributes⟩]

/-- the pieces of a text are the only well-formed ones that are written like it -/
theorem pieces_of_wellFormed {ps : List Piece} (h : WellFormed ps) :
    pieces (render ps) = .ok ps := by
  induction ps with
  | nil => exact pieces_nil
  | cons p ps ih =>
    obtain ⟨hp, hps⟩ := h
    rw [render_cons, pieces_piece hp, ih hps]
    rfl

/-- a text starts with a run of text, or with a `<` and perhaps a name -/
theorem start_cases (s : List Char) : s = [] ∨
    (∃ run r, s = run ++ r ∧ MaximalRun notLessThan run r) ∨
    (∃ r, s = '<' :: r ∧ Stops isNameChar r) ∨
    (∃ name r, s = '<' :: (name ++ r) ∧ MaximalRun isNameChar name r) := by
  cases s with
  | nil => exact .inl rfl
  | cons c t =>
    by_cases hc : notLessThan c = true
    · refine .inr (.inl ⟨_, _, ?_, MaximalRun.cons (s := t) hc⟩)
      rw [List.cons_append, List.takeWhile_append_dropWhile]
    · obtain rfl : c = '<' := by simpa [notLessThan] using hc
      by_cases hname : Stops isNameChar t
      · exact .inr (.inr (.inl ⟨t, rfl, hname⟩))
      · refine .inr (.inr (.inr ⟨t.takeWhile isNameChar, t.dropWhile isNameChar, ?_, ?_⟩))
        · rw [List.takeWhile_append_dropWhile]
        · refine ⟨fun h => hname (stops_iff_takeWhile.mpr h), fun d hd => ?_, stops_dropWhile _ _⟩
          exact List.mem_takeWhile_imp hd

/-- a text starts with a piece, unless it is empty or starts with a name whose attribute list is not
complete -/
theorem first_piece_cases (s : List Char) : s = [] ∨
    (∃ (p : Piece) (r : List Char), s = p.render ++ r ∧ p.Fits r ∧ r.length < s.length) ∨
    (∃ name r e, s = '<' :: (name ++ r) ∧ MaximalRun isNameChar name r ∧ opening r = .error e) := by
  rcases start_cases s with rfl | ⟨run, r, rfl, hrun⟩ | ⟨r, rfl, hr⟩ | ⟨name, r, rfl, hname⟩
  · exact .inl rfl
  · have hlen : 0 < run.length := List.length_pos_iff.mpr hrun.ne
    exact .inr (.inl ⟨.text run, r, rfl, hrun, by rw [List.length_append]; omega⟩)
  · exact .inr (.inl ⟨.lone, r, rfl, hr, by rw [List.length_cons]; omega⟩)
  · cases ho : opening r with
    | error e => exact .inr (.inr ⟨name, r, e, rfl, hname, ho⟩)
    | ok o =>
      cases o with
      | broken =>
        exact .inr (.inl ⟨.broken name, r, rfl, ⟨hname, opening_broken_iff.mp ho⟩,
          by rw [List.length_cons, List.length_append]; omega⟩)
      | tag x =>
        obtain ⟨l, trail, k, rest⟩ := x
        obtain ⟨rfl, htrail, hfit⟩ := (opening_tag_iff hname.stops).mp ho
        refine .inr (.inl ⟨.tag ⟨name, l, trail, k⟩, rest,
          (render_tag_append ⟨name, l, trail, k⟩ rest).symm,
          ⟨⟨hname.ne, hname.all, ?_⟩, hfit, htrail⟩, ?_⟩)
        · have hstops := hname.stops
          rwa [← List.singleton_append, ← List.append_assoc trail, ← List.append_assoc,
            stops_append (by simp)] at hstops
        · simp only [List.length_cons, List.length_append]
          omega

theorem wellFormed_of_pieces {s : List Char} {ps : List Piece} (h : pieces s = .ok ps) :
    WellFormed ps ∧ render ps = s := by
  induction hn : s.length using Nat.strongRecOn generalizing s ps with
  | _ n ih =>
    rcases first_piece_cases s with rfl | ⟨p, r, rfl, hp, hlt⟩ | ⟨name, r, e, rfl, hname, ho⟩
    · rw [pieces_nil] at h
      cases h
      exact ⟨trivial, rfl⟩
    · rw [pieces_piece hp] at h
      obtain ⟨qs, hqs, rfl⟩ := map_ok_iff.mp h
      obtain ⟨hwell, rfl⟩ := ih r.length (hn ▸ hlt) hqs rfl
      exact ⟨⟨hp, hwell⟩, rfl⟩
    · rw [pieces_name hname, ho] at h
      cases h

theorem pieces_ok_iff {s : List Char} {ps : List Piece} :
    pieces s = .ok ps ↔ WellFormed ps ∧ render ps = s :=
  ⟨wellFormed_of_pieces, fun h => h.2 ▸ pieces_of_wellFormed h.1⟩

/-! ## scanning -/

/-- `ps` is a way to cut `template` into pieces -/
def Splits (template : String) (ps : List Piece) : Prop :=
  WellFormed ps ∧ render ps = template.toList

/-- the name of a tag with the keys and values of its attributes -/
def ScannedTag.content (t : ScannedTag) : String × List Attribute :=
  (t.name, t.attributes.map SpannedAttribute.attr)

def OpeningTag.content (t : OpeningTag) : String × List Attribute :=
  (t.tagName, t.attributes.map AttributeText.attr)

def Piece.tag? : Piece → Option OpeningTag
  | .tag t => some t
  | _ => none

def openingTags (ps : List Piece) : List OpeningTag := ps.filterMap Piece.tag?

theorem Piece.tag_or_other (p : Piece) : (∃ t, p = .tag t) ∨ p.tag? = none := by
  cases p with
  | tag t => exact .inl ⟨t, rfl⟩
  | text run => exact .inr rfl
  | lone => exact .inr rfl
  | broken name => exact .inr rfl

theorem openingTags_cons_other {p : Piece} (h : p.tag? = none) (ps : List Piece) :
    openingTags (p :: ps) = openingTags ps := List.filterMap_cons_none h

theorem WellFormed.fits {ps : List Piece} (h : WellFormed ps) : ∀ t ∈ openingTags ps, t.Fits := by
  induction ps with
  | nil => simp [openingTags]
  | cons p ps ih =>
    obtain ⟨hp, hps⟩ := h
    rcases p.tag_or_other with ⟨t, rfl⟩ | hother
    · intro u hu
      rcases List.mem_cons.mp hu with rfl | hu
      · exact hp
      · exact ih hps u hu
    · rw [openingTags_cons_other hother]
      exact ih hps

theorem attrs_spannedFrom (offset : Nat) (l : List AttributeText) :
    (spannedFrom offset l).map SpannedAttribute.attr = l.map AttributeText.attr := by
  induction l generalizing offset with
  | nil => rfl
  | cons a l ih =>
    show a.attr :: (spannedFrom (offset + bytes a.render) l).map SpannedAttribute.attr = _
    rw [ih, List.map_cons]

theorem content_scanned (offset : Nat) (t : OpeningTag) : (t.scanned offset).content = t.content := by
  show (t.tagName, (spannedFrom _ t.attributes).map SpannedAttribute.attr) = _
  rw [attrs_spannedFrom]
  rfl

theorem contents_tagsFrom (offset : Nat) (ps : List Piece) :
    (tagsFrom offset ps).map ScannedTag.content = (openingTags ps).map OpeningTag.content := by
  induction ps generalizing offset with
  | nil => rfl
  | cons p ps ih =>
    cases p with
    | tag t =>
      show (t.scanned offset).content :: (tagsFrom _ ps).map ScannedTag.content = _
      rw [ih, content_scanned]
      rfl
    | text run => exact ih _
    | lone => exact ih _
    | broken name => exact ih _

theorem names_tagsFrom (offset : Nat) (ps : List Piece) :
    (tagsFrom offset ps).map ScannedTag.name = (openingTags ps).map OpeningTag.tagName := by
  have h := congrArg (List.map Prod.fst) (contents_tagsFrom offset ps)
  rwa [List.map_map, List.map_map] at h

theorem attributes_tagsFrom (offset : Nat) (ps : List Piece) :
    (tagsFrom offset ps).map (fun t => t.attributes.map SpannedAttribute.attr) =
      (openingTags ps).map fun t => t.attributes.map AttributeText.attr := by
  have h := congrArg (List.map Prod.snd) (contents_tagsFrom offset ps)
  rwa [List.map_map, List.map_map] at h

theorem parse_ok_iff {template : String} {ps : List Piece} :
    parse template = .ok ps ↔ Splits template ps := by
  rw [Splits, ← pieces_ok_iff, parse]
  cases pieces template.toList with
  | error e => exact ⟨fun h => (by cases h), fun h => (by cases h)⟩
  | ok qs => exact ⟨fun h => (by cases h; rfl), fun h => (by cases h; rfl)⟩

theorem scan_ok_iff {template : String} {found : List ScannedTag} :
    scan template = .ok found ↔ ∃ ps, Splits template ps ∧ tagsFrom 0 ps = found := by
  rw [scan, map_ok_iff]
  exact exists_congr fun ps => and_congr_left' parse_ok_iff

theorem scan_error_iff {template : String} {e : ScanError} :
    scan template = .error e ↔ parse template = .error e := map_error_iff

theorem parse_error_iff {template : String} {e : ScanError} : parse template = .error e ↔
    ∃ f, pieces template.toList = .error f ∧ f.toError template.toList = e := by
  unfold parse
  cases pieces template.toList with
  | error f =>
    constructor
    · intro h
      cases h
      exact ⟨f, rfl, rfl⟩
    · rintro ⟨_, hf, rfl⟩
      cases hf
      rfl
  | ok ps => exact ⟨fun h => (by cases h), fun ⟨_, hf, _⟩ => (by cases hf)⟩

theorem Splits.unique {template : String} {ps qs : List Piece} (hp : Splits template ps)
    (hq : Splits template qs) : ps = qs :=
  Except.ok.inj ((parse_ok_iff.mpr hp).symm.trans (parse_ok_iff.mpr hq))

/-- A template scans just when it can be cut into pieces.  It can be cut in one way only, and the
tags that are found are the opening tags among these pieces. -/
theorem scan_iff_splits (template : String) :
    ((∃ found, scan template = .ok found) ↔ ∃ ps, Splits template ps) ∧
      (∀ ps qs, Splits template ps → Splits template qs → ps = qs) ∧
      ∀ found ps, scan template = .ok found → Splits template ps →
        found.map ScannedTag.content = (openingTags ps).map OpeningTag.content := by
  refine ⟨⟨fun ⟨found, h⟩ => ?_, fun ⟨ps, h⟩ => ⟨_, scan_ok_iff.mpr ⟨ps, h, rfl⟩⟩⟩,
    fun ps qs => Splits.unique, fun found ps h hps => ?_⟩
  · obtain ⟨ps, hps, _⟩ := scan_ok_iff.mp h
    exact ⟨ps, hps⟩
  · obtain ⟨qs, hqs, rfl⟩ := scan_ok_iff.mp h
    rw [hps.unique hqs, contents_tagsFrom]

end Stencil.Markup
