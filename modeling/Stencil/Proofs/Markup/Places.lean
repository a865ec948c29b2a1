import Stencil.Proofs.Markup.Offsets

/-!
# Tokens where they stand in a text

A lexer comes from one place of a text to the next, and the tokens that it finds stand one behind
the other.  Each character that it does not skip belongs to one of them.

* `Lexer.Reaches`            the places that a lexer comes to;
* `Spanned.Between`          a token where it stands in a text;
* `Lexer.exists_reaches`     tokens are what comes next at such a place;
* `Spanned.Between.cut`      a place within a token;
* `Cuts`, `Lexer.cuts`       tokens in order, and what may stand outside of them.
-/

namespace Stencil.Markup

open Stencil.Text

/-! ## places that a lexer comes to -/

section
variable {κ : Type} {x : Lexer κ} {s front rest : List Char}

/-- a lexer that reads `s` comes to the text `rest` behind `front` -/
inductive Lexer.Reaches (x : Lexer κ) (s : List Char) : List Char → List Char → Prop
  | start : x.Reaches s [] s
  | next {front rest r : List Char} {l : Lexeme κ} (h : x.Reaches s front rest)
      (hnext : x.next? rest = some (l, r)) : x.Reaches s (front ++ l.render) r

theorem Lexer.Reaches.split (h : x.Reaches s front rest) : s = front ++ rest := by
  induction h with
  | start => rfl
  | next _ hnext ih => rw [ih, List.append_assoc, x.lossless hnext]

/-- what holds of a text without a token, and of a text from what holds behind its first one -/
theorem Lexer.run_induction {P : List Char → Lexed κ → Prop}
    (hnone : ∀ s, x.next? s = none → P s ⟨[], s⟩)
    (hsome : ∀ s l r, x.next? s = some (l, r) → P r (x.run r) →
      P s ⟨l :: (x.run r).lexemes, (x.run r).rest⟩) (s : List Char) : P s (x.run s) := by
  induction hn : s.length using Nat.strongRecOn generalizing s with
  | _ n ih =>
    cases h : x.next? s with
    | none =>
      rw [x.run_of_none h]
      exact hnone s h
    | some p =>
      obtain ⟨l, r⟩ := p
      rw [x.run_of_some h]
      exact hsome s l r h (ih r.length (hn ▸ x.length_rest_lt h) r rfl)

/-- `t` is a token of `s` between `front` and `rest`, and its offsets are those of its text -/
structure Spanned.Between (t : Spanned κ) (s front rest : List Char) : Prop where
  split : s = front ++ (t.text ++ rest)
  start : t.start = bytes front
  stop : t.stop = t.start + bytes t.text

/-- the byte offset belongs to the token -/
def Spanned.Covers (t : Spanned κ) (offset : Nat) : Prop := t.start ≤ offset ∧ offset < t.stop

theorem spansFrom_cons (offset : Nat) (l : Lexeme κ) (ls : List (Lexeme κ)) :
    spansFrom offset (l :: ls) = ⟨l.kind, offset + bytes l.gap, offset + bytes l.render, l.text⟩ ::
      spansFrom (offset + bytes l.render) ls := by
  rw [spansFrom, Lexeme.render, bytes_append, Nat.add_assoc]

theorem le_start_of_mem_spansFrom {offset : Nat} {ls : List (Lexeme κ)} {t : Spanned κ}
    (h : t ∈ spansFrom offset ls) : offset ≤ t.start := by
  induction ls generalizing offset with
  | nil => cases h
  | cons l ls ih =>
    rw [spansFrom_cons] at h
    rcases List.mem_cons.mp h with rfl | h
    · exact Nat.le_add_right ..
    · exact Nat.le_trans (Nat.le_add_right ..) (ih h)

theorem pairwise_spansFrom (offset : Nat) (ls : List (Lexeme κ)) :
    (spansFrom offset ls).Pairwise fun t u => t.stop ≤ u.start := by
  induction ls generalizing offset with
  | nil => exact .nil
  | cons l ls ih =>
    rw [spansFrom_cons]
    exact .cons (fun u hu => le_start_of_mem_spansFrom hu) (ih _)

/-- a token is what comes next at a place that the lexer comes to -/
theorem Lexer.Reaches.of_mem_spans {t : Spanned κ} (h : x.Reaches s front rest)
    (ht : t ∈ spansFrom (bytes front) (x.run rest).lexemes) :
    ∃ before gap after, x.Reaches s before (gap ++ (t.text ++ after)) ∧
      x.next? (gap ++ (t.text ++ after)) = some (⟨gap, t.kind, t.text⟩, after) ∧
      t.Between s (before ++ gap) after := by
  revert h ht
  refine x.run_induction (P := fun rest y => ∀ front, x.Reaches s front rest →
    t ∈ spansFrom (bytes front) y.lexemes → _) ?_ ?_ rest front
  · intro rest _ front _ ht
    cases ht
  · intro rest l r hnext ih front h ht
    rw [spansFrom_cons, ← bytes_append front l.render] at ht
    rcases List.mem_cons.mp ht with rfl | ht
    · have hsplit : rest = l.gap ++ (l.text ++ r) := by
        rw [← List.append_assoc]
        exact (x.lossless hnext).symm
      refine ⟨front, l.gap, r, hsplit ▸ h, hsplit ▸ hnext, ?_, ?_, ?_⟩
      · rw [h.split, hsplit, List.append_assoc]
      · exact (bytes_append ..).symm
      · show bytes (front ++ (l.gap ++ l.text)) = bytes front + bytes l.gap + bytes l.text
        rw [bytes_append, bytes_append, Nat.add_assoc]
    · exact ih _ (h.next hnext) ht

theorem Lexer.exists_reaches {t : Spanned κ} (ht : t ∈ (x.run s).spans) :
    ∃ front gap rest, x.Reaches s front (gap ++ (t.text ++ rest)) ∧
      x.next? (gap ++ (t.text ++ rest)) = some (⟨gap, t.kind, t.text⟩, rest) ∧
      t.Between s (front ++ gap) rest :=
  Lexer.Reaches.start.of_mem_spans ht

/-- a character of two texts one behind the other is one of the second or of the first -/
theorem append_eq_append_cons {u v before after : List Char} {c : Char}
    (h : u ++ v = before ++ c :: after) :
    (∃ m, before = u ++ m ∧ v = m ++ c :: after) ∨ ∃ m, u = before ++ c :: m ∧ after = m ++ v := by
  rcases List.append_eq_append_iff.mp h with ⟨m, hm, hv⟩ | ⟨m, hm, hv⟩
  · exact .inl ⟨m, hm, hv⟩
  · cases m with
    | nil => exact .inl ⟨[], by rw [hm, List.append_nil, List.append_nil], hv.symm⟩
    | cons d m =>
      obtain ⟨rfl, rfl⟩ := List.cons.inj hv
      exact .inr ⟨m, hm, rfl⟩

/-- a character of a text is skipped, or it belongs to a token -/
theorem Lexer.skipped_or_covered {p : Char → Bool} {c : Char} {before after : List Char}
    (hgap : ∀ s l r, x.next? s = some (l, r) → ∀ c ∈ l.gap, p c = true)
    (hrest : ∀ s, x.next? s = none → ∀ c ∈ s, p c = true) (offset : Nat)
    (h : s = before ++ c :: after) :
    p c = true ∨ ∃ t ∈ spansFrom offset (x.run s).lexemes, t.Covers (offset + bytes before) := by
  revert offset h
  refine x.run_induction (P := fun s y => ∀ before offset, s = before ++ c :: after →
    p c = true ∨ ∃ t ∈ spansFrom offset y.lexemes, t.Covers (offset + bytes before)) ?_ ?_ s before
  · intro s hnone before _ h
    exact .inl (hrest s hnone c (h ▸ List.mem_append_right _ (List.mem_cons_self ..)))
  · intro s l r hnext ih before offset h
    rw [spansFrom_cons]
    rcases append_eq_append_cons ((x.lossless hnext).trans h) with ⟨m, rfl, hr⟩ | ⟨m, hl, _⟩
    · rcases ih m (offset + bytes l.render) hr with hp | ⟨t, ht, hcovers⟩
      · exact .inl hp
      · refine .inr ⟨t, List.mem_cons_of_mem _ ht, ?_⟩
        rwa [bytes_append, ← Nat.add_assoc]
    · rcases append_eq_append_cons hl with ⟨k, rfl, htext⟩ | ⟨k, hskipped, _⟩
      · have hc := c.utf8Size_pos
        refine .inr ⟨_, List.mem_cons_self .., ?_, ?_⟩
        · simp only [bytes_append]
          omega
        · simp only [hl, bytes_append, bytes_cons]
          omega
      · refine .inl (hgap s l r hnext c ?_)
        rw [hskipped]
        exact List.mem_append_right _ (List.mem_cons_self ..)

/-! ## tokens in a text -/

/-- a place that belongs to a token cuts the token, perhaps at its start -/
theorem Spanned.Between.cut {t : Spanned κ} {before behind : List Char}
    (h : t.Between s front rest) (hs : s = before ++ behind) (hcovers : t.Covers (bytes before)) :
    ∃ m n, before = front ++ m ∧ t.text = m ++ n ∧ n ≠ [] ∧ behind = n ++ rest := by
  obtain ⟨hle, hlt⟩ := hcovers
  rw [h.stop] at hlt
  rw [h.start] at hle hlt
  obtain ⟨m, rfl, hm⟩ := exists_append_of_bytes_le (h.split.symm.trans hs) hle
  rw [bytes_append] at hlt
  obtain ⟨n, htext, hn⟩ := exists_append_of_bytes_le hm.symm (by omega)
  refine ⟨m, n, rfl, htext, ?_, hn⟩
  rintro rfl
  rw [htext, List.append_nil] at hlt
  omega

theorem Spanned.Between.eq {t u : Spanned κ} {rest' : List Char} (ht : t.Between s front rest)
    (hu : u.Between s front rest') (hkind : t.kind = u.kind) (htext : t.text = u.text) :
    t = u := by
  have hstart : t.start = u.start := ht.start.trans hu.start.symm
  have hstop : t.stop = u.stop := by rw [ht.stop, hu.stop, hstart, htext]
  cases t
  cases u
  simp_all

/-- Tokens of a text, each behind the one before it.  What belongs to none of them is skipped, and
only characters that have `p` are. -/
structure Cuts (p : Char → Bool) (s : List Char) (ts : List (Spanned κ)) : Prop where
  ordered : ts.Pairwise fun t u => t.stop ≤ u.start
  skipped : ∀ front c rest, s = front ++ c :: rest → (∀ t ∈ ts, ¬ t.Covers (bytes front)) →
    p c = true

theorem Lexer.cuts {p : Char → Bool}
    (hgap : ∀ s l r, x.next? s = some (l, r) → ∀ c ∈ l.gap, p c = true)
    (hrest : ∀ s, x.next? s = none → ∀ c ∈ s, p c = true) (s : List Char) :
    Cuts p s (x.run s).spans := by
  refine ⟨pairwise_spansFrom 0 _, fun front c rest hs hnone => ?_⟩
  rcases x.skipped_or_covered hgap hrest 0 hs with hp | ⟨t, ht, hcovers⟩
  · exact hp
  · rw [Nat.zero_add] at hcovers
    exact absurd hcovers (hnone t ht)

/-- a character that is not skipped belongs to a token -/
theorem Cuts.exists_covers {p : Char → Bool} {ts : List (Spanned κ)} (h : Cuts p s ts) {c : Char}
    (hs : s = front ++ c :: rest) (hc : p c = false) : ∃ t ∈ ts, t.Covers (bytes front) := by
  by_contra hnone
  have hp := h.skipped front c rest hs fun t ht hcovers => hnone ⟨t, ht, hcovers⟩
  rw [hc] at hp
  cases hp

end

end Stencil.Markup
