import Stencil.Markup.Scan
import Stencil.Proofs.Markup.Token

/-!
# The grammar of templates

`WellFormed ps` says that the pieces `ps`, written one after the other, are a template which falls
into just these pieces.  What a piece may be depends on the text behind it only through the first
character of that text.

* `AttributeText.Fits`, `AttributesFit`   one attribute in front of a rest, and a list of them;
* `Piece.Fits`, `WellFormed`              one piece in front of a rest, and a whole template;
* `attributeList_ok_iff`                  the reader of attribute lists reads just these lists.
-/

namespace Stencil.Markup

open Stencil.Text

/-! ## attributes -/

/-- `=` with blanks on both sides and a value between quotes -/
structure ValueText.Fits (v : ValueText) : Prop where
  before : ∀ c ∈ v.before, isBlank c = true
  after : ∀ c ∈ v.after, isBlank c = true
  quoted : ∃ inner, (∀ c ∈ inner, notQuote c = true) ∧ v.quoted = '"' :: (inner ++ ['"'])

namespace AttributeText

/-- what is written behind the key -/
def valueChars (a : AttributeText) : List Char := a.value.elim [] ValueText.render

theorem render_eq (a : AttributeText) : a.render = a.lead ++ (a.key ++ a.valueChars) := rfl

/-- Blanks, a key that cannot be longer, and perhaps a value.  The blanks can be left out where
the attribute is `glued` to a value in front of it. -/
structure Fits (a : AttributeText) (glued : Bool) (rest : List Char) : Prop where
  lead : ∀ c ∈ a.lead, isBlank c = true
  lead_ne : glued = false → a.lead ≠ []
  key : MaximalRun isKeyChar a.key (a.valueChars ++ rest)
  value : ∀ v ∈ a.value, v.Fits

end AttributeText

def renderAll (l : List AttributeText) : List Char := l.flatMap AttributeText.render

theorem renderAll_nil : renderAll [] = [] := rfl
theorem renderAll_cons (a : AttributeText) (l : List AttributeText) :
    renderAll (a :: l) = a.render ++ renderAll l := rfl
theorem renderAll_append (l m : List AttributeText) :
    renderAll (l ++ m) = renderAll l ++ renderAll m := by
  simp [renderAll, List.flatMap_append]

/-- attributes up to the text `closing` that ends their list -/
def AttributesFit (closing : List Char) : Bool → List AttributeText → Prop
  | _, [] => True
  | glued, a :: r =>
    a.Fits glued (renderAll r ++ closing) ∧ AttributesFit closing a.value.isSome r

/-- an attribute that fits somewhere -/
structure AttributeText.Sound (a : AttributeText) : Prop where
  lead : ∀ c ∈ a.lead, isBlank c = true
  key_ne : a.key ≠ []
  key : ∀ c ∈ a.key, isKeyChar c = true
  value : ∀ v ∈ a.value, v.Fits

theorem AttributesFit.sound {closing : List Char} {glued : Bool} {l : List AttributeText}
    (h : AttributesFit closing glued l) : ∀ a ∈ l, a.Sound := by
  induction l generalizing glued with
  | nil => simp
  | cons a l ih =>
    obtain ⟨ha, hl⟩ := h
    intro b hb
    rcases List.mem_cons.mp hb with rfl | hb
    · exact ⟨ha.lead, ha.key.ne, ha.key.all, ha.value⟩
    · exact ih hl b hb

/-! ## pieces -/

/-- the end of an opening tag, from the blanks behind the last attribute on -/
def OpeningTag.closing (t : OpeningTag) : List Char := t.trail ++ [t.closer.char]

theorem OpeningTag.render_eq (t : OpeningTag) :
    t.render = '<' :: (t.name ++ (renderAll t.attributes ++ t.closing)) := rfl

structure OpeningTag.Fits (t : OpeningTag) : Prop where
  name : MaximalRun isNameChar t.name (renderAll t.attributes ++ t.closing)
  attributes : AttributesFit t.closing false t.attributes
  trail : ∀ c ∈ t.trail, isBlank c = true

def Piece.Fits (rest : List Char) : Piece → Prop
  | .text run => MaximalRun notLessThan run rest
  | .lone => Stops isNameChar rest
  | .broken name => MaximalRun isNameChar name rest ∧ rest.head? = some '<'
  | .tag t => t.Fits

def WellFormed : List Piece → Prop
  | [] => True
  | p :: ps => p.Fits (render ps) ∧ WellFormed ps

/-- what a piece may be depends on the first character behind it -/
theorem Piece.fits_congr {p : Piece} {s t : List Char} (h : s.head? = t.head?) :
    p.Fits s ↔ p.Fits t := by
  have hstops : ∀ q : Char → Bool, Stops q s ↔ Stops q t := fun q => by rw [Stops, Stops, h]
  have hrun : ∀ (q : Char → Bool) (run : List Char), MaximalRun q run s ↔ MaximalRun q run t :=
    fun q run => ⟨fun hr => ⟨hr.ne, hr.all, (hstops q).mp hr.stops⟩,
      fun hr => ⟨hr.ne, hr.all, (hstops q).mpr hr.stops⟩⟩
  cases p with
  | text run => exact hrun _ _
  | lone => exact hstops _
  | broken name => rw [Piece.Fits, Piece.Fits, hrun, h]
  | tag t => exact Iff.rfl

/-! ## values -/

theorem map_ok_iff {ε α γ : Type} {x : Except ε α} {f : α → γ} {b : γ} :
    x.map f = .ok b ↔ ∃ a, x = .ok a ∧ f a = b := by
  cases x with
  | error e =>
    constructor
    · intro h
      cases h
    · intro h
      obtain ⟨_, ha, _⟩ := h
      cases ha
  | ok a =>
    constructor
    · intro h
      cases h
      exact ⟨a, rfl, rfl⟩
    · intro h
      obtain ⟨_, ha, hb⟩ := h
      cases ha
      rw [← hb]
      rfl

theorem map_error_iff {ε α γ : Type} {x : Except ε α} {f : α → γ} {e : ε} :
    x.map f = .error e ↔ x = .error e := by
  cases x with
  | error e' => exact ⟨fun h => by cases h; rfl, fun h => by cases h; rfl⟩
  | ok a => exact ⟨fun h => (by cases h), fun h => (by cases h)⟩

theorem valueAfter_ok_iff {before s r : List Char} {v : ValueText} :
    valueAfter before s = .ok (v, r) ↔ v.before = before ∧ s = v.after ++ (v.quoted ++ r) ∧
      (∀ c ∈ v.after, isBlank c = true) ∧
      ∃ inner, (∀ c ∈ inner, notQuote c = true) ∧ v.quoted = '"' :: (inner ++ ['"']) := by
  constructor
  · intro h
    unfold valueAfter at h
    split at h
    · cases h
    · rename_i l t hl
      obtain ⟨gap, k, text⟩ := l
      obtain ⟨hs, hgap, hshape⟩ := AttrToken.next?_iff.mp hl
      cases k with
      | quoted =>
        cases h
        cases hshape with
        | quoted hinner => exact ⟨rfl, hs, hgap, _, hinner, rfl⟩
      | unclosed => cases h
      | key => cases h
      | equals => cases h
      | slash => cases h
      | close => cases h
  · intro h
    obtain ⟨rfl, hs, hafter, inner, hinner, hq⟩ := h
    have hl := AttrToken.next?_iff.mpr ⟨hs, hafter, hq ▸ AttrToken.Shape.quoted hinner⟩
    rw [valueAfter, hl]

/-- an `=` comes next where it is the first character that is not blank -/
theorem next?_equals_iff {s gap text r : List Char} :
    AttrToken.lexer.next? s = some (⟨gap, .equals, text⟩, r) ↔
      text = ['='] ∧ s = gap ++ '=' :: r ∧ ∀ c ∈ gap, isBlank c = true := by
  rw [AttrToken.next?_iff]
  constructor
  · intro h
    obtain ⟨hs, hgap, hshape⟩ := h
    cases hshape
    exact ⟨rfl, hs, hgap⟩
  · intro h
    obtain ⟨rfl, hs, hgap⟩ := h
    exact ⟨hs, hgap, .equals⟩

theorem valueText_some_iff {s r : List Char} {v : ValueText} :
    valueText s = .ok (some v, r) ↔ s = v.render ++ r ∧ v.Fits := by
  constructor
  · intro h
    unfold valueText at h
    split at h
    · rename_i before text t hl
      obtain ⟨_, rfl, hbefore⟩ := next?_equals_iff.mp hl
      obtain ⟨⟨w, u⟩, hv, heq⟩ := map_ok_iff.mp h
      cases heq
      obtain ⟨rfl, rfl, hafter, hquoted⟩ := valueAfter_ok_iff.mp hv
      exact ⟨by simp [ValueText.render], hbefore, hafter, hquoted⟩
    · cases h
  · intro h
    obtain ⟨rfl, hbefore, hafter, hquoted⟩ := h
    have hl : AttrToken.lexer.next? (v.render ++ r) =
        some (⟨v.before, .equals, ['=']⟩, v.after ++ (v.quoted ++ r)) :=
      next?_equals_iff.mpr ⟨rfl, by simp [ValueText.render], hbefore⟩
    have hv : valueAfter v.before (v.after ++ (v.quoted ++ r)) = .ok (v, r) :=
      valueAfter_ok_iff.mpr ⟨rfl, rfl, hafter, hquoted⟩
    simp only [valueText, hl, hv]
    rfl

theorem stops_equals_iff {s : List Char} : Stops (· == '=') (trimStart s) ↔
    ∀ gap r, AttrToken.lexer.next? s ≠ some (⟨gap, .equals, ['=']⟩, r) := by
  constructor
  · intro h gap r hl
    obtain ⟨_, rfl, hgap⟩ := next?_equals_iff.mp hl
    rw [trimStart, (takeWhile_append_of_stops hgap (stops_cons.mpr (by decide))).2] at h
    cases stops_cons.mp h
  · intro h c hc
    cases htrim : trimStart s with
    | nil => rw [htrim] at hc; cases hc
    | cons d r =>
      rw [htrim] at hc
      cases hc
      refine beq_eq_false_iff_ne.mpr fun hd => h (s.takeWhile isBlank) r ?_
      refine next?_equals_iff.mpr ⟨rfl, ?_, fun c hc => List.mem_takeWhile_imp hc⟩
      rw [← hd, ← htrim]
      exact List.takeWhile_append_dropWhile.symm

/-- no value is read where no `=` comes next -/
theorem valueText_none_iff {s r : List Char} :
    valueText s = .ok (none, r) ↔ r = s ∧ Stops (· == '=') (trimStart s) := by
  rw [stops_equals_iff, valueText]
  split
  · rename_i before text t hl
    obtain ⟨rfl, _, _⟩ := next?_equals_iff.mp hl
    refine ⟨fun h => ?_, fun h => absurd hl (h.2 before t)⟩
    obtain ⟨_, _, heq⟩ := map_ok_iff.mp h
    cases heq
  · rename_i hl
    refine ⟨fun h => ?_, fun h => by rw [h.1]⟩
    cases h
    exact ⟨rfl, fun gap t heq => hl gap ['='] t heq⟩

/-! ## attribute lists -/

def Closer.token : Closer → AttrToken
  | .slash => .slash
  | .angle => .close

theorem next?_closer_iff {s gap r : List Char} {k : Closer} :
    AttrToken.lexer.next? s = some (⟨gap, k.token, [k.char]⟩, r) ↔
      s = gap ++ k.char :: r ∧ ∀ c ∈ gap, isBlank c = true := by
  rw [AttrToken.next?_iff]
  cases k with
  | slash => exact ⟨fun h => ⟨h.1, h.2.1⟩, fun h => ⟨h.1, h.2, .slash⟩⟩
  | angle => exact ⟨fun h => ⟨h.1, h.2.1⟩, fun h => ⟨h.1, h.2, .close⟩⟩

/-- a list is at its end, or an attribute stands in front of the rest of it -/
theorem attributeList_ok_iff_step {s : List Char} {x : AttributeList} :
    attributeList s = .ok x ↔
      (∃ trail k r, x = ⟨[], trail, k, r⟩ ∧
        AttrToken.lexer.next? s = some (⟨trail, k.token, [k.char]⟩, r)) ∨
      (∃ a y t u, x = { y with attributes := a :: y.attributes } ∧
        AttrToken.lexer.next? s = some (⟨a.lead, .key, a.key⟩, t) ∧
        valueText t = .ok (a.value, u) ∧ attributeList u = .ok y) := by
  constructor
  · intro h
    rw [attributeList] at h
    split at h
    · cases h
    · rename_i l t hl
      obtain ⟨gap, kind, text⟩ := l
      have hshape := (AttrToken.next?_iff.mp hl).2.2
      cases kind with
      | slash => cases h; cases hshape; exact .inl ⟨gap, .slash, t, rfl, hl⟩
      | close => cases h; cases hshape; exact .inl ⟨gap, .angle, t, rfl, hl⟩
      | key =>
        simp only at h
        split at h
        · cases h
        · rename_i v u hv
          split at h
          · cases h
          · rename_i y hy
            cases h
            exact .inr ⟨⟨gap, text, v⟩, y, t, u, rfl, hl, hv, hy⟩
      | equals => cases h
      | quoted => cases h
      | unclosed => cases h
  · intro h
    rcases h with ⟨trail, k, r, rfl, hl⟩ | ⟨a, y, t, u, rfl, hl, hv, hy⟩
    · rw [attributeList]
      split
      · rename_i hnone
        cases hnone.symm.trans hl
      · rename_i l t hsome
        cases hsome.symm.trans hl
        cases k <;> rfl
    · rw [attributeList]
      split
      · rename_i hnone
        cases hnone.symm.trans hl
      · rename_i l t hsome
        cases hsome.symm.trans hl
        simp only
        split
        · rename_i herr
          cases herr.symm.trans hv
        · rename_i hok
          cases hok.symm.trans hv
          rw [hy]

/-! ## where keys and values end -/

section
variable {trail : List Char} {k : Closer} {l : List AttributeText}

theorem not_isKeyChar_of_isBlank {c : Char} (h : isBlank c = true) : isKeyChar c = false := by
  simp [isKeyChar, h]

theorem not_isNameChar_of_isBlank {c : Char} (h : isBlank c = true) : isNameChar c = false := by
  simp [isNameChar, h]

/-- a run without blanks ends in front of blanks -/
theorem stops_gap_append {p : Char → Bool} (hp : ∀ {c}, isBlank c = true → p c = false)
    {gap s : List Char} (hgap : ∀ c ∈ gap, isBlank c = true) (hs : Stops p s) :
    Stops p (gap ++ s) := by
  cases gap with
  | nil => exact hs
  | cons c r => exact stops_cons.mpr (hp (hgap c (List.mem_cons_self ..)))

/-- a run without blanks ends in front of a text that begins with one -/
theorem stops_lead_append {p : Char → Bool} (hp : ∀ {c}, isBlank c = true → p c = false)
    {lead : List Char} (hlead : ∀ c ∈ lead, isBlank c = true) (hne : lead ≠ []) (s : List Char) :
    Stops p (lead ++ s) := by
  obtain ⟨c, r, rfl⟩ := List.exists_cons_of_ne_nil hne
  exact stops_cons.mpr (hp (hlead c (List.mem_cons_self ..)))

theorem stops_isKeyChar_closing (htrail : ∀ c ∈ trail, isBlank c = true) :
    Stops isKeyChar (trail ++ [k.char]) :=
  stops_gap_append not_isKeyChar_of_isBlank htrail (stops_cons.mpr (by cases k <;> decide))

theorem ValueText.Fits.stops_isKeyChar {v : ValueText} (h : v.Fits) (rest : List Char) :
    Stops isKeyChar (v.render ++ rest) := by
  rw [ValueText.render, List.append_assoc]
  exact stops_gap_append not_isKeyChar_of_isBlank h.before (stops_cons.mpr (by decide))

/-- blanks can be left out only behind a value -/
theorem attributesFit_iff (htrail : ∀ c ∈ trail, isBlank c = true) (glued : Bool) :
    AttributesFit (trail ++ [k.char]) glued l ↔ AttributesFit (trail ++ [k.char]) true l ∧
      (glued = false → Stops isKeyChar (renderAll l ++ (trail ++ [k.char]))) := by
  cases l with
  | nil => exact ⟨fun _ => ⟨trivial, fun _ => stops_isKeyChar_closing htrail⟩, fun _ => trivial⟩
  | cons a l =>
    constructor
    · intro h
      obtain ⟨⟨hlead, hne, hkey, hvalue⟩, hl⟩ := h
      refine ⟨⟨⟨hlead, by simp, hkey, hvalue⟩, hl⟩, fun hg => ?_⟩
      rw [renderAll_cons, AttributeText.render_eq, List.append_assoc, List.append_assoc]
      exact stops_lead_append not_isKeyChar_of_isBlank hlead (hne hg) _
    · intro h
      obtain ⟨⟨⟨hlead, _, hkey, hvalue⟩, hl⟩, hstops⟩ := h
      refine ⟨⟨hlead, fun hg hnil => ?_, hkey, hvalue⟩, hl⟩
      -- without blanks the list would start with the first character of the key
      have h := hstops hg
      rw [renderAll_cons, AttributeText.render_eq, hnil, List.nil_append, List.append_assoc,
        List.append_assoc, stops_append hkey.ne] at h
      obtain ⟨c, r, hcr⟩ := List.exists_cons_of_ne_nil hkey.ne
      rw [hcr, stops_cons, hkey.all c (hcr ▸ List.mem_cons_self ..)] at h
      cases h

/-- a name ends in front of the attributes of its tag -/
theorem AttributesFit.stops_isNameChar (htrail : ∀ c ∈ trail, isBlank c = true)
    (h : AttributesFit (trail ++ [k.char]) false l) :
    Stops isNameChar (renderAll l ++ (trail ++ [k.char])) := by
  cases l with
  | nil =>
    have hk : Stops isNameChar [k.char] := stops_cons.mpr (by cases k <;> decide)
    rw [renderAll_nil, List.nil_append]
    exact stops_gap_append not_isNameChar_of_isBlank htrail hk
  | cons a l =>
    obtain ⟨⟨hlead, hne, _, _⟩, _⟩ := h
    rw [renderAll_cons, AttributeText.render_eq, List.append_assoc, List.append_assoc]
    exact stops_lead_append not_isNameChar_of_isBlank hlead (hne rfl) _

/-- no `=` comes next where an attribute does -/
theorem AttributeText.Sound.stops_equals {a : AttributeText} (h : a.Sound) (s : List Char) :
    Stops (· == '=') (trimStart (a.lead ++ (a.key ++ s))) := by
  have hkey : MaximalRun isKeyChar a.key [] := ⟨h.key_ne, h.key, stops_nil _⟩
  have hblank := hkey.stops_append (fun c hc => (isKeyChar_iff.mp hc).1) s
  rw [trimStart, (takeWhile_append_of_stops h.lead hblank).2]
  exact hkey.stops_append (fun c hc => beq_eq_false_iff_ne.mpr (isKeyChar_iff.mp hc).2.2.2.1) s

/-- no `=` comes next where an attribute or the end of the list does -/
theorem AttributesFit.stops_equals {glued : Bool} (htrail : ∀ c ∈ trail, isBlank c = true)
    (h : AttributesFit (trail ++ [k.char]) glued l) (rest : List Char) :
    Stops (· == '=') (trimStart (renderAll l ++ (trail ++ k.char :: rest))) := by
  cases l with
  | nil =>
    have hk : Stops isBlank (k.char :: rest) := stops_cons.mpr (by cases k <;> decide)
    rw [renderAll_nil, List.nil_append, trimStart, (takeWhile_append_of_stops htrail hk).2]
    exact stops_cons.mpr (by cases k <;> decide)
  | cons a l =>
    have ha : a.Sound := h.sound a (List.mem_cons_self ..)
    rw [renderAll_cons, AttributeText.render_eq, List.append_assoc, List.append_assoc,
      List.append_assoc]
    exact ha.stops_equals _

/-- a key and what stands behind it, up to the rest of the list -/
theorem valueText_attributesFit_iff {a : AttributeText} {t u rest : List Char}
    (htrail : ∀ c ∈ trail, isBlank c = true) (hu : u = renderAll l ++ (trail ++ k.char :: rest))
    (hl : AttributesFit (trail ++ [k.char]) true l) :
    MaximalRun isKeyChar a.key t ∧ valueText t = .ok (a.value, u) ↔
      t = a.valueChars ++ u ∧
        MaximalRun isKeyChar a.key (a.valueChars ++ (renderAll l ++ (trail ++ [k.char]))) ∧
        (∀ v ∈ a.value, v.Fits) ∧ AttributesFit (trail ++ [k.char]) a.value.isSome l := by
  obtain ⟨lead, key, value⟩ := a
  have hsplit : u = (renderAll l ++ (trail ++ [k.char])) ++ rest := by simp [hu]
  have hne : renderAll l ++ (trail ++ [k.char]) ≠ [] := by simp
  cases value with
  | none =>
    simp only [AttributeText.valueChars, Option.elim_none, List.nil_append, Option.isSome_none,
      valueText_none_iff, attributesFit_iff htrail false]
    constructor
    · intro h
      obtain ⟨hkey, rfl, _⟩ := h
      have hstops := hkey.stops
      rw [hsplit, stops_append hne] at hstops
      exact ⟨rfl, ⟨hkey.ne, hkey.all, hstops⟩, by simp, hl, fun _ => hstops⟩
    · intro h
      obtain ⟨rfl, hkey, _, _, hstops⟩ := h
      refine ⟨⟨hkey.ne, hkey.all, ?_⟩, rfl, ?_⟩
      · rw [hsplit, stops_append hne]
        exact hkey.stops
      · rw [hu]
        exact hl.stops_equals htrail rest
  | some v =>
    simp only [AttributeText.valueChars, Option.elim_some, Option.isSome_some, valueText_some_iff,
      Option.mem_some_iff, forall_eq']
    constructor
    · intro h
      obtain ⟨hkey, rfl, hv⟩ := h
      exact ⟨rfl, ⟨hkey.ne, hkey.all, hv.stops_isKeyChar _⟩, hv, hl⟩
    · intro h
      obtain ⟨rfl, hkey, hv, _⟩ := h
      exact ⟨⟨hkey.ne, hkey.all, hv.stops_isKeyChar _⟩, rfl, hv⟩

theorem attributeList_ok_iff {s rest : List Char} :
    attributeList s = .ok ⟨l, trail, k, rest⟩ ↔
      s = renderAll l ++ (trail ++ k.char :: rest) ∧ (∀ c ∈ trail, isBlank c = true) ∧
        AttributesFit (trail ++ [k.char]) true l := by
  induction l generalizing s with
  | nil =>
    rw [attributeList_ok_iff_step]
    constructor
    · intro h
      rcases h with ⟨trail', k', r, heq, hl⟩ | ⟨a, y, t, u, heq, _⟩
      · cases heq
        obtain ⟨hs, htrail⟩ := next?_closer_iff.mp hl
        exact ⟨hs, htrail, trivial⟩
      · cases heq
    · intro h
      obtain ⟨hs, htrail, _⟩ := h
      exact .inl ⟨trail, k, rest, rfl, next?_closer_iff.mpr ⟨hs, htrail⟩⟩
  | cons a l ih =>
    rw [attributeList_ok_iff_step]
    constructor
    · intro h
      rcases h with ⟨trail', k', r, heq, hl⟩ | ⟨a', y, t, u, heq, hl, hv, hy⟩
      · cases heq
      · obtain ⟨l', trail', k', rest'⟩ := y
        cases heq
        obtain ⟨hs, hlead, hshape⟩ := AttrToken.next?_iff.mp hl
        obtain ⟨hu, htrail, hfit⟩ := ih.mp hy
        cases hshape with
        | key hkey =>
          obtain ⟨ht, hkey', hvalue, hfit'⟩ :=
            (valueText_attributesFit_iff htrail hu hfit).mp ⟨hkey, hv⟩
          refine ⟨?_, htrail, ⟨hlead, by simp, hkey', hvalue⟩, hfit'⟩
          rw [hs, ht, hu, renderAll_cons, AttributeText.render_eq]
          simp only [List.append_assoc]
    · intro h
      obtain ⟨hs, htrail, ⟨hlead, _, hkey, hvalue⟩, hfit⟩ := h
      have hfit' := ((attributesFit_iff htrail _).mp hfit).1
      obtain ⟨hkey', hv⟩ :=
        (valueText_attributesFit_iff htrail rfl hfit').mpr ⟨rfl, hkey, hvalue, hfit⟩
      refine .inr ⟨a, ⟨l, trail, k, rest⟩, _, _, rfl, ?_, hv, ih.mpr ⟨rfl, htrail, hfit'⟩⟩
      refine AttrToken.next?_iff.mpr ⟨?_, hlead, .key hkey'⟩
      rw [hs, renderAll_cons, AttributeText.render_eq]
      simp only [List.append_assoc]

end

end Stencil.Markup
