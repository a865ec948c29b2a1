import Mathlib.Data.List.TakeWhile
import Stencil.Markup.Token

/-!
# The shapes of tokens

Both lexers cut a text in one way only: skipped characters, a token of a fixed shape, the rest.

* `Stops`, `MaximalRun`                      runs of characters that cannot be longer;
* `AttrToken.Shape`, `MarkupToken.Shape`     what the text of a token looks like in front of a rest;
* `AttrToken.next?_iff`                      the first token of an attribute list;
* `MarkupToken.next?_iff`                    the first token outside of a tag;
* `MarkupToken.next?_none_iff`               texts without one.
-/

namespace Stencil.Markup

open Stencil.Text

/-! ## runs -/

/-- `s` does not start with a character that has `p` -/
def Stops (p : Char → Bool) (s : List Char) : Prop := ∀ c ∈ s.head?, p c = false

theorem stops_nil (p : Char → Bool) : Stops p [] := by
  intro c hc
  cases hc

theorem stops_cons {p : Char → Bool} {c : Char} {s : List Char} :
    Stops p (c :: s) ↔ p c = false := by
  simp [Stops]

theorem stops_append {p : Char → Bool} {s : List Char} (hs : s ≠ []) (t : List Char) :
    Stops p (s ++ t) ↔ Stops p s := by
  cases s with
  | nil => exact absurd rfl hs
  | cons c r => rw [List.cons_append, stops_cons, stops_cons]

theorem stops_iff_takeWhile {p : Char → Bool} {s : List Char} :
    Stops p s ↔ s.takeWhile p = [] := by
  cases s with
  | nil => simp [stops_nil]
  | cons c r => cases hc : p c <;> simp [stops_cons, hc]

theorem stops_dropWhile (p : Char → Bool) (s : List Char) : Stops p (s.dropWhile p) := by
  intro c hc
  have h := List.head?_dropWhile_not p s
  rw [Option.mem_def.mp hc] at h
  simpa using h

/-- the only way to cut a text behind the run of `p` that it starts with -/
theorem takeWhile_append_of_stops {p : Char → Bool} {run rest : List Char}
    (hall : ∀ c ∈ run, p c = true) (hstops : Stops p rest) :
    (run ++ rest).takeWhile p = run ∧ (run ++ rest).dropWhile p = rest := by
  rw [List.takeWhile_append_of_pos hall, List.dropWhile_append_of_pos hall]
  cases rest with
  | nil => simp
  | cons c r =>
    have hc := stops_cons.mp hstops
    simp [hc]

theorem append_inj_of_stops {p : Char → Bool} {run run' rest rest' : List Char}
    (hrun : ∀ c ∈ run, p c = true) (hrun' : ∀ c ∈ run', p c = true) (hrest : Stops p rest)
    (hrest' : Stops p rest') (h : run ++ rest = run' ++ rest') : run = run' ∧ rest = rest' := by
  have hcut := takeWhile_append_of_stops hrun hrest
  have hcut' := takeWhile_append_of_stops hrun' hrest'
  rw [h] at hcut
  exact ⟨hcut.1.symm.trans hcut'.1, hcut.2.symm.trans hcut'.2⟩

/-- a run of characters with `p` that is not empty and ends where `rest` begins -/
structure MaximalRun (p : Char → Bool) (run rest : List Char) : Prop where
  ne : run ≠ []
  all : ∀ c ∈ run, p c = true
  stops : Stops p rest

theorem MaximalRun.cons {p : Char → Bool} {c : Char} {s : List Char} (h : p c = true) :
    MaximalRun p (c :: s.takeWhile p) (s.dropWhile p) := by
  refine ⟨by simp, fun d hd => ?_, stops_dropWhile p s⟩
  rcases List.mem_cons.mp hd with rfl | hd
  · exact h
  · exact List.mem_takeWhile_imp hd

/-- a maximal run is not cut by a condition that none of its characters meets -/
theorem MaximalRun.stops_append {p q : Char → Bool} {run rest : List Char}
    (h : MaximalRun p run rest) (hq : ∀ c, p c = true → q c = false) (more : List Char) :
    Stops q (run ++ more) := by
  obtain ⟨ne, all, _⟩ := h
  cases run with
  | nil => exact absurd rfl ne
  | cons c r => exact stops_cons.mpr (hq c (all c (List.mem_cons_self ..)))

/-! ## attribute lists -/

theorem isKeyChar_iff {c : Char} : isKeyChar c = true ↔
    isBlank c = false ∧ c ≠ '/' ∧ c ≠ '>' ∧ c ≠ '=' ∧ c ≠ '"' := by
  simp [isKeyChar, and_assoc]

/-- the text of a token in front of a rest -/
inductive AttrToken.Shape : AttrToken → List Char → List Char → Prop
  | key {text rest : List Char} (h : MaximalRun isKeyChar text rest) : Shape .key text rest
  | equals {rest : List Char} : Shape .equals ['='] rest
  | slash {rest : List Char} : Shape .slash ['/'] rest
  | close {rest : List Char} : Shape .close ['>'] rest
  | quoted {inner rest : List Char} (h : ∀ c ∈ inner, notQuote c = true) :
      Shape .quoted ('"' :: (inner ++ ['"'])) rest
  | unclosed {inner : List Char} (h : ∀ c ∈ inner, notQuote c = true) :
      Shape .unclosed ('"' :: inner) []

namespace AttrToken

theorem Shape.stops_blank {k : AttrToken} {text rest : List Char} (h : Shape k text rest)
    (more : List Char) : Stops isBlank (text ++ more) := by
  cases h with
  | key h => exact h.stops_append (fun c hc => (isKeyChar_iff.mp hc).1) more
  | equals => exact stops_cons.mpr (by decide)
  | slash => exact stops_cons.mpr (by decide)
  | close => exact stops_cons.mpr (by decide)
  | quoted _ => exact stops_cons.mpr (by decide)
  | unclosed _ => exact stops_cons.mpr (by decide)

theorem shape_of_first? {s text r : List Char} {k : AttrToken} (hs : Stops isBlank s)
    (h : first? s = some (k, text, r)) : Shape k text r := by
  cases s with
  | nil => cases h
  | cons c t =>
    have hblank := stops_cons.mp hs
    simp only [first?] at h
    split at h
    · rename_i hc; cases h; rw [hc]; exact .equals
    split at h
    · rename_i hc; cases h; rw [hc]; exact .slash
    split at h
    · rename_i hc; cases h; rw [hc]; exact .close
    split at h
    · rename_i hc
      split at h
      · rename_i hd
        cases h
        rw [hc]
        exact .unclosed (List.dropWhile_eq_nil_iff.mp hd)
      · rename_i q u hd
        cases h
        have hq := stops_dropWhile notQuote t
        rw [hd, stops_cons] at hq
        have hq' : q = '"' := by simpa [notQuote] using hq
        rw [hc, hq']
        exact .quoted fun d hd => List.mem_takeWhile_imp hd
    · rename_i h₁ h₂ h₃ h₄
      cases h
      exact .key (MaximalRun.cons (isKeyChar_iff.mpr ⟨hblank, h₂, h₃, h₁, h₄⟩))

theorem first?_of_shape {text r : List Char} {k : AttrToken} (h : Shape k text r) :
    first? (text ++ r) = some (k, text, r) := by
  cases h with
  | key h =>
    obtain ⟨ne, all, stops⟩ := h
    cases text with
    | nil => exact absurd rfl ne
    | cons c t =>
      obtain ⟨_, h₂, h₃, h₁, h₄⟩ := isKeyChar_iff.mp (all c (List.mem_cons_self ..))
      have ht := takeWhile_append_of_stops (fun d hd => all d (List.mem_cons_of_mem _ hd)) stops
      rw [List.cons_append, first?, if_neg h₁, if_neg h₂, if_neg h₃, if_neg h₄, ht.1, ht.2]
  | equals => rfl
  | slash => rfl
  | close => rfl
  | @quoted inner _ h =>
    have hr : Stops notQuote ('"' :: r) := stops_cons.mpr (by decide)
    have ht := takeWhile_append_of_stops h hr
    rw [List.cons_append, List.append_assoc, List.singleton_append, first?, if_neg (by decide),
      if_neg (by decide), if_neg (by decide), if_pos rfl, ht.1, ht.2]
  | @unclosed inner h =>
    have ht := List.dropWhile_eq_nil_iff.mpr h
    rw [List.append_nil, first?, if_neg (by decide), if_neg (by decide), if_neg (by decide),
      if_pos rfl, ht]

/-- the first token of an attribute list with the blanks in front of it, and what follows -/
theorem next?_iff {s gap text r : List Char} {k : AttrToken} :
    lexer.next? s = some (⟨gap, k, text⟩, r) ↔
      s = gap ++ (text ++ r) ∧ (∀ c ∈ gap, isBlank c = true) ∧ Shape k text r := by
  show next? s = _ ↔ _
  constructor
  · intro h
    unfold next? at h
    split at h
    · cases h
    · rename_i k' text' r' hf
      cases h
      refine ⟨?_, fun c hc => List.mem_takeWhile_imp hc,
        shape_of_first? (stops_dropWhile isBlank s) hf⟩
      rw [(first?_lossless hf).1]
      exact List.takeWhile_append_dropWhile.symm
  · intro h
    obtain ⟨rfl, hgap, hshape⟩ := h
    have ht := takeWhile_append_of_stops hgap (hshape.stops_blank r)
    rw [next?, trimStart, ht.2, first?_of_shape hshape, ht.1]

end AttrToken

/-! ## markup -/

theorem isNameChar_iff {c : Char} : isNameChar c = true ↔
    isBlank c = false ∧ c ≠ '/' ∧ c ≠ '<' ∧ c ≠ '>' := by
  simp [isNameChar, and_assoc]

/-- the text of a token in front of a rest -/
inductive MarkupToken.Shape : MarkupToken → List Char → List Char → Prop
  | lessThan {rest : List Char} (h : Stops isNameChar rest) : Shape .lessThan ['<'] rest
  | tagOpen {name rest : List Char} (h : MaximalRun isNameChar name rest) :
      Shape .tagOpen ('<' :: name) rest

namespace MarkupToken

theorem Shape.stops_notLessThan {k : MarkupToken} {text rest : List Char} (h : Shape k text rest)
    (more : List Char) : Stops notLessThan (text ++ more) := by
  cases h with
  | lessThan _ => exact stops_cons.mpr rfl
  | tagOpen _ => exact stops_cons.mpr rfl

theorem next?_none_iff {s : List Char} :
    lexer.next? s = none ↔ ∀ c ∈ s, notLessThan c = true := by
  show next? s = none ↔ _
  rw [← List.dropWhile_eq_nil_iff, next?]
  cases s.dropWhile notLessThan with
  | nil => simp
  | cons c r =>
    refine ⟨fun h => ?_, fun h => by cases h⟩
    simp only at h
    split at h <;> cases h

/-- the first token outside of a tag with the text in front of it, and what follows -/
theorem next?_iff {s gap text r : List Char} {k : MarkupToken} :
    lexer.next? s = some (⟨gap, k, text⟩, r) ↔
      s = gap ++ (text ++ r) ∧ (∀ c ∈ gap, notLessThan c = true) ∧ Shape k text r := by
  constructor
  · intro h
    have hs := lexer.lossless h
    rw [Lexeme.render, List.append_assoc] at hs
    have hstops := stops_dropWhile notLessThan s
    replace h : next? s = _ := h
    unfold next? at h
    split at h
    · cases h
    · rename_i c t hd
      rw [hd, stops_cons] at hstops
      have hc : c = '<' := by simpa [notLessThan] using hstops
      simp only [hc] at h
      split at h
      · rename_i hempty
        cases h
        refine ⟨hs.symm, fun c hc => List.mem_takeWhile_imp hc, .lessThan ?_⟩
        exact stops_iff_takeWhile.mpr (List.isEmpty_iff.mp hempty)
      · rename_i hempty
        cases h
        refine ⟨hs.symm, fun c hc => List.mem_takeWhile_imp hc, .tagOpen ⟨?_, ?_, ?_⟩⟩
        · simpa using hempty
        · exact fun c hc => List.mem_takeWhile_imp hc
        · exact stops_dropWhile isNameChar t
  · intro h
    obtain ⟨rfl, hgap, hshape⟩ := h
    have ht := takeWhile_append_of_stops hgap (hshape.stops_notLessThan r)
    show next? _ = _
    rw [next?, ht.2, ht.1]
    cases hshape with
    | lessThan h =>
      simp [stops_iff_takeWhile.mp h]
    | @tagOpen name _ h =>
      have hn := takeWhile_append_of_stops h.all h.stops
      simp [hn.1, hn.2, h.ne]

end MarkupToken

end Stencil.Markup
