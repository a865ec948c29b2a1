import Stencil.Proofs.Markup.Beginning
import Stencil.Proofs.Markup.Places

/-!
# What the lexers find

Both lexers cut a text into tokens, and what they skip is of one kind: no `<` outside of tags,
blanks only in an attribute list.  Which tokens there are can be told from the text alone, without
following a lexer from its start: outside of tags they start at the `<`, and in an attribute list
they stand where the number of quotes in front of them is even.

* `mem_markup_iff`            the tokens outside of tags;
* `OutsideQuotes`             texts in which no quoted value is open;
* `AttrToken.Stands`          where the tokens of an attribute list can stand;
* `mem_attr_iff`              the tokens of an attribute list;
* `exists_unclosed_iff`       the quotes at which lexing it fails;
* `lexing_loses_nothing`      all this for every text.
-/

namespace Stencil.Markup

open Stencil.Text

/-! ## outside of tags -/

theorem MarkupToken.Shape.unique {k k' : MarkupToken} {text text' rest rest' : List Char}
    (h : k.Shape text rest) (h' : k'.Shape text' rest') (heq : text ++ rest = text' ++ rest') :
    k = k' ∧ text = text' := by
  have hnext := MarkupToken.next?_iff.mpr ⟨(List.nil_append _).symm, by simp, h⟩
  rw [heq, MarkupToken.next?_iff.mpr ⟨(List.nil_append _).symm, by simp, h'⟩] at hnext
  cases hnext
  exact ⟨rfl, rfl⟩

/-- a token starts with its only `<` -/
theorem MarkupToken.Shape.text_eq {k : MarkupToken} {text rest : List Char}
    (h : k.Shape text rest) : ∃ name, text = '<' :: name ∧ '<' ∉ name := by
  cases h with
  | lessThan _ => exact ⟨[], rfl, by simp⟩
  | @tagOpen name _ h =>
    exact ⟨name, rfl, fun hmem => (isNameChar_iff.mp (h.all _ hmem)).2.2.1 rfl⟩

theorem cuts_markup (s : List Char) : Cuts notLessThan s (MarkupToken.lexer.run s).spans :=
  MarkupToken.lexer.cuts (fun _ _ _ h => (MarkupToken.next?_iff.mp h).2.1)
    (fun _ h => MarkupToken.next?_none_iff.mp h) s

theorem exists_between_of_mem_markup {s : List Char} {t : Spanned MarkupToken}
    (h : t ∈ (MarkupToken.lexer.run s).spans) :
    ∃ front rest, t.Between s front rest ∧ t.kind.Shape t.text rest := by
  obtain ⟨front, gap, rest, _, hnext, hbetween⟩ := Lexer.exists_reaches h
  exact ⟨front ++ gap, rest, hbetween, (MarkupToken.next?_iff.mp hnext).2.2⟩

/-- each `<` starts a token -/
theorem exists_markup_at {s front rest : List Char} (h : s = front ++ '<' :: rest) :
    ∃ t ∈ (MarkupToken.lexer.run s).spans, ∃ behind, t.Between s front behind ∧
      t.kind.Shape t.text behind ∧ t.text ++ behind = '<' :: rest := by
  obtain ⟨t, ht, hcovers⟩ := (cuts_markup s).exists_covers h rfl
  obtain ⟨front', behind, hbetween, hshape⟩ := exists_between_of_mem_markup ht
  obtain ⟨m, n, rfl, htext, hne, hn⟩ := hbetween.cut h hcovers
  obtain ⟨name, hname, hlt⟩ := hshape.text_eq
  cases m with
  | nil =>
    rw [List.append_nil] at h ⊢
    exact ⟨t, ht, behind, hbetween, hshape, by rw [htext, List.nil_append, hn]⟩
  | cons c m =>
    -- a second `<` in the token would belong to the name
    obtain ⟨d, n, rfl⟩ := List.exists_cons_of_ne_nil hne
    obtain ⟨rfl, _⟩ := List.cons.inj hn
    rw [hname] at htext
    obtain ⟨_, rfl⟩ := List.cons.inj htext
    exact absurd (List.mem_append_right _ (List.mem_cons_self ..)) hlt

theorem mem_markup_iff {s : List Char} {t : Spanned MarkupToken} :
    t ∈ (MarkupToken.lexer.run s).spans ↔
      ∃ front rest, t.Between s front rest ∧ t.kind.Shape t.text rest := by
  refine ⟨exists_between_of_mem_markup, ?_⟩
  rintro ⟨front, rest, hbetween, hshape⟩
  obtain ⟨name, hname, _⟩ := hshape.text_eq
  have hs : s = front ++ '<' :: (name ++ rest) := by
    rw [hbetween.split, hname, List.cons_append]
  obtain ⟨u, hu, behind, hbetween', hshape', heq⟩ := exists_markup_at hs
  rw [← List.cons_append, ← hname] at heq
  obtain ⟨hkind, htext⟩ := hshape.unique hshape' heq.symm
  rwa [hbetween.eq hbetween' hkind htext]

theorem existsUnique_markup {s front rest : List Char} (h : s = front ++ '<' :: rest) :
    ∃! t, t ∈ (MarkupToken.lexer.run s).spans ∧ t.start = bytes front := by
  obtain ⟨t, ht, behind, hbetween, hshape, heq⟩ := exists_markup_at h
  refine ⟨t, ⟨ht, hbetween.start⟩, ?_⟩
  rintro u ⟨hu, hstart⟩
  obtain ⟨front', behind', hbetween', hshape'⟩ := exists_between_of_mem_markup hu
  obtain ⟨rfl, htail⟩ := append_inj_of_bytes (hbetween'.split.symm.trans hbetween.split)
    (hbetween'.start.symm.trans hstart)
  obtain ⟨hkind, htext⟩ := hshape'.unique hshape htail
  exact hbetween'.eq hbetween hkind htext

/-! ## attribute lists -/

/-- an even number of quotes, so that no quoted value is open at the end of the text -/
def OutsideQuotes (front : List Char) : Prop := front.count '"' % 2 = 0

/-- a token of an attribute list between two texts: it starts outside of quoted values, and a key
is not the end of a longer run -/
structure AttrToken.Stands (k : AttrToken) (front text rest : List Char) : Prop where
  shape : k.Shape text rest
  outside : OutsideQuotes front
  whole : k = .key → ∀ c ∈ front.getLast?, isKeyChar c = false

theorem AttrToken.Shape.unique {k k' : AttrToken} {text text' rest rest' : List Char}
    (h : k.Shape text rest) (h' : k'.Shape text' rest') (heq : text ++ rest = text' ++ rest') :
    k = k' ∧ text = text' := by
  have hfirst := AttrToken.first?_of_shape h
  rw [heq, AttrToken.first?_of_shape h'] at hfirst
  cases hfirst
  exact ⟨rfl, rfl⟩

theorem AttrToken.Shape.ne_nil {k : AttrToken} {text rest : List Char} (h : k.Shape text rest) :
    text ≠ [] := by
  cases h with
  | key h => exact h.ne
  | equals => exact List.cons_ne_nil _ _
  | slash => exact List.cons_ne_nil _ _
  | close => exact List.cons_ne_nil _ _
  | quoted _ => exact List.cons_ne_nil _ _
  | unclosed _ => exact List.cons_ne_nil _ _

theorem count_quote_eq_zero {p : Char → Bool} (hp : p '"' = false) {s : List Char}
    (h : ∀ c ∈ s, p c = true) : s.count '"' = 0 := by
  refine List.count_eq_zero.mpr fun hmem => ?_
  rw [h _ hmem] at hp
  cases hp

/-- a token behind which there is any text leaves no quoted value open -/
theorem AttrToken.Shape.outside {k : AttrToken} {text rest front : List Char}
    (h : k.Shape text rest) (hfront : OutsideQuotes front) :
    OutsideQuotes (front ++ text) ∨ rest = [] := by
  unfold OutsideQuotes at hfront ⊢
  rw [List.count_append]
  cases h with
  | key h =>
    rw [count_quote_eq_zero (by decide) h.all]
    exact .inl hfront
  | equals => exact .inl hfront
  | slash => exact .inl hfront
  | close => exact .inl hfront
  | @quoted inner _ h =>
    have hinner := count_quote_eq_zero (by decide) h
    simp only [List.count_cons, List.count_append, hinner]
    exact .inl (by simpa using hfront)
  | unclosed _ => exact .inr rfl

/-- behind a token there is no key that is the end of a longer run -/
theorem AttrToken.Shape.stops_isKeyChar {k : AttrToken} {text rest : List Char}
    (h : k.Shape text rest) (hlast : ∃ c ∈ text.getLast?, isKeyChar c = true) :
    Stops isKeyChar rest := by
  obtain ⟨c, hc, hkey⟩ := hlast
  cases h with
  | key h => exact h.stops
  | equals => cases hc; cases hkey
  | slash => cases hc; cases hkey
  | close => cases hc; cases hkey
  | quoted _ =>
    rw [← List.cons_append, List.getLast?_concat] at hc
    cases hc
    cases hkey
  | unclosed _ => exact stops_nil _

/-- wherever the lexer comes to, no quoted value is open and no key is cut -/
theorem reaches_attr {s front rest : List Char} (h : AttrToken.lexer.Reaches s front rest) :
    (OutsideQuotes front ∨ rest = []) ∧
      ((∃ c ∈ front.getLast?, isKeyChar c = true) → Stops isKeyChar rest) := by
  induction h with
  | start => exact ⟨.inl rfl, fun ⟨c, hc, _⟩ => by cases hc⟩
  | @next front rest r l h hnext ih =>
    obtain ⟨gap, k, text⟩ := l
    obtain ⟨hsplit, hgap, hshape⟩ := AttrToken.next?_iff.mp hnext
    have hne := hshape.ne_nil
    rw [Lexeme.render]
    constructor
    · have hrest : rest ≠ [] := by simp [hsplit, hne]
      have hfront : OutsideQuotes (front ++ gap) := by
        unfold OutsideQuotes
        rw [List.count_append, count_quote_eq_zero (by decide) hgap]
        exact ih.1.resolve_right hrest
      rw [← List.append_assoc]
      exact hshape.outside hfront
    · rintro ⟨c, hc, hkey⟩
      rw [← List.append_assoc, List.getLast?_append_of_ne_nil _ hne] at hc
      exact hshape.stops_isKeyChar ⟨c, hc, hkey⟩

theorem cuts_attr (s : List Char) : Cuts isBlank s (AttrToken.lexer.run s).spans :=
  AttrToken.lexer.cuts (fun _ _ _ h => (AttrToken.next?_iff.mp h).2.1)
    (fun _ h => AttrToken.next?_none h) s

theorem exists_stands_of_mem_attr {s : List Char} {t : Spanned AttrToken}
    (h : t ∈ (AttrToken.lexer.run s).spans) :
    ∃ front rest, t.Between s front rest ∧ t.kind.Stands front t.text rest := by
  obtain ⟨front, gap, rest, hreaches, hnext, hbetween⟩ := Lexer.exists_reaches h
  obtain ⟨_, hgap, hshape⟩ := AttrToken.next?_iff.mp hnext
  obtain ⟨houtside, hboundary⟩ := reaches_attr hreaches
  refine ⟨front ++ gap, rest, hbetween, hshape, ?_, fun hkind c hc => ?_⟩
  · unfold OutsideQuotes
    rw [List.count_append, count_quote_eq_zero (by decide) hgap]
    exact houtside.resolve_right (by simp [hshape.ne_nil])
  · cases gap with
    | cons d gap =>
      rw [List.getLast?_append_of_ne_nil _ (List.cons_ne_nil d gap)] at hc
      exact not_isKeyChar_of_isBlank (hgap c (List.mem_of_getLast? hc))
    | nil =>
      -- a key goes on where the lexer comes to, so the character in front is of none
      rw [List.append_nil] at hc
      by_contra hkey
      have hstops := hboundary ⟨c, hc, by simpa using hkey⟩
      rw [List.nil_append, stops_append hshape.ne_nil] at hstops
      rw [hkind] at hshape
      cases hshape with
      | key hrun =>
        have htext := stops_iff_takeWhile.mp hstops
        rw [List.takeWhile_eq_self_iff.mpr hrun.all] at htext
        exact hrun.ne htext

theorem count_quote_cons {inner : List Char} (h : ∀ c ∈ inner, notQuote c = true) :
    ('"' :: inner).count '"' = 1 := by
  rw [List.count_cons_self, count_quote_eq_zero (by decide) h]

/-- a place within a token is within a key or behind the first quote of a value -/
theorem AttrToken.Shape.cut {k : AttrToken} {m n rest : List Char} (h : k.Shape (m ++ n) rest)
    (hm : m ≠ []) (hn : n ≠ []) :
    (k = .key ∧ (∀ c ∈ m, isKeyChar c = true) ∧ ∀ c ∈ n, isKeyChar c = true) ∨
      (k = .quoted ∧ m.count '"' = 1) ∨ (k = .unclosed ∧ m.count '"' = 1 ∧ '"' ∉ n) := by
  obtain ⟨c, m, rfl⟩ := List.exists_cons_of_ne_nil hm
  generalize htext : c :: m ++ n = text at h
  have hone : ∀ d : Char, c :: m ++ n ≠ [d] := by
    intro d hd
    obtain ⟨_, hnil⟩ := List.cons.inj hd
    exact hn (List.append_eq_nil_iff.mp hnil).2
  cases h with
  | key h =>
    subst htext
    exact .inl ⟨rfl, fun d hd => h.all d (List.mem_append_left _ hd),
      fun d hd => h.all d (List.mem_append_right _ hd)⟩
  | equals => exact absurd htext (hone _)
  | slash => exact absurd htext (hone _)
  | close => exact absurd htext (hone _)
  | @quoted inner _ h =>
    obtain ⟨rfl, hinner⟩ := List.cons.inj htext
    refine .inr (.inl ⟨rfl, count_quote_cons fun d hd => ?_⟩)
    change m ++ n = inner ++ ['"'] at hinner
    have hdrop : m ++ n.dropLast = inner := by
      rw [← List.dropLast_append_of_ne_nil hn, hinner, List.dropLast_concat]
    exact h d (hdrop ▸ List.mem_append_left _ hd)
  | @unclosed inner h =>
    obtain ⟨rfl, rfl⟩ := List.cons.inj htext
    refine .inr (.inr ⟨rfl, count_quote_cons fun d hd => h d (List.mem_append_left _ hd), ?_⟩)
    intro hmem
    cases h _ (List.mem_append_right _ hmem)

theorem not_outsideQuotes_append {front m : List Char} (hfront : OutsideQuotes front)
    (hm : m.count '"' = 1) : ¬ OutsideQuotes (front ++ m) := by
  unfold OutsideQuotes at hfront ⊢
  rw [List.count_append, hm]
  omega

/-- a text that starts with a character of a key is a key, if it is a token -/
theorem AttrToken.Shape.eq_key {k : AttrToken} {text rest : List Char} (h : k.Shape text rest)
    (hhead : ∃ c ∈ text.head?, isKeyChar c = true) : k = .key := by
  obtain ⟨c, hc, hkey⟩ := hhead
  cases h with
  | key _ => rfl
  | equals => cases hc; cases hkey
  | slash => cases hc; cases hkey
  | close => cases hc; cases hkey
  | quoted _ => cases hc; cases hkey
  | unclosed _ => cases hc; cases hkey

theorem mem_attr_iff {s : List Char} {t : Spanned AttrToken} :
    t ∈ (AttrToken.lexer.run s).spans ↔
      ∃ front rest, t.Between s front rest ∧ t.kind.Stands front t.text rest := by
  refine ⟨exists_stands_of_mem_attr, ?_⟩
  rintro ⟨front, rest, hbetween, hshape, houtside, hwhole⟩
  obtain ⟨c, text, htext⟩ := List.exists_cons_of_ne_nil hshape.ne_nil
  have hs : s = front ++ c :: (text ++ rest) := by
    rw [hbetween.split, htext, List.cons_append]
  have hblank : isBlank c = false := by
    have h := hshape.stops_blank []
    rwa [htext, List.cons_append, stops_cons] at h
  obtain ⟨u, hu, hcovers⟩ := (cuts_attr s).exists_covers hs hblank
  obtain ⟨front', rest', hbetween', hshape', houtside', _⟩ := exists_stands_of_mem_attr hu
  obtain ⟨m, n, rfl, htext', hn, hbehind⟩ := hbetween'.cut hs hcovers
  rw [← List.cons_append, ← htext] at hbehind
  by_cases hm : m = []
  · subst hm
    rw [List.append_nil] at hbetween
    rw [List.nil_append] at htext'
    obtain ⟨hkind, heq⟩ := hshape.unique hshape' (htext' ▸ hbehind)
    rwa [hbetween.eq hbetween' hkind heq]
  · -- the token would start within another one
    rw [htext'] at hshape'
    rcases hshape'.cut hm hn with ⟨_, hmkey, hnkey⟩ | ⟨_, hcount⟩ | ⟨_, hcount, _⟩
    · obtain ⟨d, n, rfl⟩ := List.exists_cons_of_ne_nil hn
      rw [htext] at hbehind
      obtain ⟨rfl, _⟩ := List.cons.inj hbehind
      have hkind := hshape.eq_key ⟨c, by rw [htext]; rfl, hnkey c (List.mem_cons_self ..)⟩
      have hlast := hwhole hkind (m.getLast hm) (by
        rw [List.getLast?_append_of_ne_nil _ hm, List.getLast?_eq_some_getLast hm]
        rfl)
      rw [hmkey _ (List.getLast_mem hm)] at hlast
      cases hlast
    · exact absurd houtside (not_outsideQuotes_append houtside' hcount)
    · exact absurd houtside (not_outsideQuotes_append houtside' hcount)

/-! ## failures -/

/-- lexing an attribute list fails at the quotes outside of values that no other quote follows -/
theorem exists_unclosed_iff {s front rest : List Char} (hs : s = front ++ '"' :: rest) :
    (∃ t ∈ (AttrToken.lexer.run s).spans, t.kind = .unclosed ∧ t.start = bytes front) ↔
      OutsideQuotes front ∧ '"' ∉ rest := by
  constructor
  · rintro ⟨t, ht, hkind, hstart⟩
    obtain ⟨front', rest', hbetween, hshape, houtside, _⟩ := exists_stands_of_mem_attr ht
    obtain ⟨rfl, htail⟩ := append_inj_of_bytes (hbetween.split.symm.trans hs)
      (hbetween.start.symm.trans hstart)
    refine ⟨houtside, fun hmem => ?_⟩
    generalize t.text = text at hshape htail
    rw [hkind] at hshape
    cases hshape with
    | unclosed hinner =>
      rw [List.append_nil] at htail
      obtain ⟨_, rfl⟩ := List.cons.inj htail
      cases hinner _ hmem
  · rintro ⟨houtside, hrest⟩
    refine ⟨⟨.unclosed, bytes front, bytes front + bytes ('"' :: rest), '"' :: rest⟩,
      mem_attr_iff.mpr ⟨front, [], ⟨?_, rfl, rfl⟩, .unclosed fun c hc => ?_, houtside, nofun⟩,
      rfl, rfl⟩
    · rw [hs, List.append_nil]
    · rw [notQuote, bne_iff_ne]
      rintro rfl
      exact hrest hc

/-- a quote stands outside of values just if it is not behind the first quote of one -/
theorem outsideQuotes_iff {s front rest : List Char} (hs : s = front ++ '"' :: rest) :
    OutsideQuotes front ↔ ∀ t ∈ (AttrToken.lexer.run s).spans, t.kind = .quoted →
      ¬ (t.start < bytes front ∧ bytes front < t.stop) := by
  constructor
  · rintro houtside t ht hkind ⟨hlt, hgt⟩
    obtain ⟨front', rest', hbetween, hshape, houtside', _⟩ := exists_stands_of_mem_attr ht
    obtain ⟨m, n, rfl, htext, hn, _⟩ := hbetween.cut hs ⟨Nat.le_of_lt hlt, hgt⟩
    have hm : m ≠ [] := by
      rintro rfl
      rw [List.append_nil, hbetween.start] at hlt
      exact Nat.lt_irrefl _ hlt
    rw [htext, hkind] at hshape
    rcases hshape.cut hm hn with ⟨hk, _⟩ | ⟨_, hcount⟩ | ⟨hk, _⟩
    · cases hk
    · exact not_outsideQuotes_append houtside' hcount houtside
    · cases hk
  · intro h
    obtain ⟨t, ht, hcovers⟩ := (cuts_attr s).exists_covers hs (by decide)
    obtain ⟨front', rest', hbetween, hshape, houtside, _⟩ := exists_stands_of_mem_attr ht
    obtain ⟨m, n, rfl, htext, hn, hbehind⟩ := hbetween.cut hs hcovers
    by_cases hm : m = []
    · rwa [hm, List.append_nil]
    · obtain ⟨c, n, rfl⟩ := List.exists_cons_of_ne_nil hn
      obtain ⟨rfl, _⟩ := List.cons.inj hbehind
      rw [htext] at hshape
      rcases hshape.cut hm hn with ⟨_, _, hkey⟩ | ⟨hkind, hcount⟩ | ⟨_, _, hquote⟩
      · cases hkey _ (List.mem_cons_self ..)
      · refine absurd ⟨?_, hcovers.2⟩ (h t ht hkind)
        have hpos : bytes m ≠ 0 := fun h => hm (bytes_eq_zero h)
        rw [hbetween.start, bytes_append]
        omega
      · exact absurd (List.mem_cons_self ..) hquote

/-- Nothing is lost by lexing.  Outside of tags all text between the tokens is free of `<`, each `<`
starts one token, and the tokens are those with the shape of one, wherever they stand; so lexing
never fails there.  In an attribute list only blanks stand between the tokens, which are the ones
that stand outside of quoted values; it fails just at a quote outside of values that no other quote
follows, and the failure takes the rest of the text. -/
theorem lexing_loses_nothing (s : List Char) :
    (Cuts notLessThan s (MarkupToken.lexer.run s).spans ∧
      (∀ front rest, s = front ++ '<' :: rest →
        ∃! t, t ∈ (MarkupToken.lexer.run s).spans ∧ t.start = bytes front) ∧
      ∀ t, t ∈ (MarkupToken.lexer.run s).spans ↔
        ∃ front rest, t.Between s front rest ∧ t.kind.Shape t.text rest) ∧
    Cuts isBlank s (AttrToken.lexer.run s).spans ∧
      (∀ t, t ∈ (AttrToken.lexer.run s).spans ↔
        ∃ front rest, t.Between s front rest ∧ t.kind.Stands front t.text rest) ∧
      ∀ front rest, s = front ++ '"' :: rest →
        ((∃ t ∈ (AttrToken.lexer.run s).spans, t.kind = .unclosed ∧ t.start = bytes front) ↔
          OutsideQuotes front ∧ '"' ∉ rest) ∧
        (OutsideQuotes front ↔ ∀ t ∈ (AttrToken.lexer.run s).spans, t.kind = .quoted →
          ¬ (t.start < bytes front ∧ bytes front < t.stop)) :=
  ⟨⟨cuts_markup s, fun _ _ => existsUnique_markup, fun _ => mem_markup_iff⟩, cuts_attr s,
    fun _ => mem_attr_iff, fun _ _ hs => ⟨exists_unclosed_iff hs, outsideQuotes_iff hs⟩⟩

end Stencil.Markup
