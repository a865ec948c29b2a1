import Stencil.Text.Bytes

/-!
# Lexemes

A lexer cuts a text into lexemes: a token together with the text it skips before it.

* `Lexer`        one step of a lexer, which loses nothing and always moves on;
* `Lexer.run`    all lexemes of a text and the skipped text after the last one;
* `render_run`   the lexemes and that rest, written one after the other, are the text;
* `Lexed.spans`  the tokens with their byte offsets.
-/

namespace Stencil.Markup

open Stencil.Text

/-- a token of kind `κ` with the skipped text in front of it -/
structure Lexeme (κ : Type) where
  gap : List Char
  kind : κ
  text : List Char
  deriving DecidableEq, Repr

def Lexeme.render {κ : Type} (l : Lexeme κ) : List Char := l.gap ++ l.text

/-- one step of a lexer: the first lexeme and the text after it, if there is one -/
structure Lexer (κ : Type) where
  next? : List Char → Option (Lexeme κ × List Char)
  lossless : ∀ {s l r}, next? s = some (l, r) → l.render ++ r = s
  progress : ∀ {s l r}, next? s = some (l, r) → l.text ≠ []

/-- the lexemes of a text, and what is skipped after the last of them -/
structure Lexed (κ : Type) where
  lexemes : List (Lexeme κ)
  rest : List Char

def Lexed.render {κ : Type} (x : Lexed κ) : List Char := x.lexemes.flatMap Lexeme.render ++ x.rest

namespace Lexer

variable {κ : Type} (x : Lexer κ)

theorem length_rest_lt {s : List Char} {l : Lexeme κ} {r : List Char}
    (h : x.next? s = some (l, r)) : r.length < s.length := by
  have hs := x.lossless h
  have ht := List.length_pos_iff.mpr (x.progress h)
  rw [← hs, Lexeme.render, List.length_append, List.length_append]
  omega

def run (s : List Char) : Lexed κ :=
  match h : x.next? s with
  | none => ⟨[], s⟩
  | some (l, r) =>
    have := x.length_rest_lt h
    let t := run r
    ⟨l :: t.lexemes, t.rest⟩
termination_by s.length

theorem run_of_none {s : List Char} (h : x.next? s = none) : x.run s = ⟨[], s⟩ := by
  unfold run
  split
  · rfl
  · rename_i l r h'
    rw [h] at h'
    exact absurd h' (by simp)

theorem run_of_some {s : List Char} {l : Lexeme κ} {r : List Char} (h : x.next? s = some (l, r)) :
    x.run s = ⟨l :: (x.run r).lexemes, (x.run r).rest⟩ := by
  rw [run]
  split
  · rename_i h'
    rw [h] at h'
    exact absurd h' (by simp)
  · rename_i l' r' h'
    rw [h] at h'
    obtain ⟨rfl, rfl⟩ := Prod.mk.inj (Option.some.inj h')
    rfl

theorem render_run (s : List Char) : (x.run s).render = s := by
  induction hn : s.length using Nat.strongRecOn generalizing s with
  | _ n ih =>
    cases h : x.next? s with
    | none => rw [run_of_none x h]; rfl
    | some p =>
      obtain ⟨l, r⟩ := p
      have hr := ih r.length (hn ▸ x.length_rest_lt h) r rfl
      rw [run_of_some x h]
      simp only [Lexed.render, List.flatMap_cons, List.append_assoc] at hr ⊢
      rw [hr]
      exact x.lossless h

end Lexer

/-! ## offsets -/

/-- a token with the byte offsets of its start and end -/
structure Spanned (κ : Type) where
  kind : κ
  start : Nat
  stop : Nat
  text : List Char

/-- the tokens of lexemes that begin at byte `offset` -/
def spansFrom {κ : Type} (offset : Nat) : List (Lexeme κ) → List (Spanned κ)
  | [] => []
  | l :: r =>
    let start := offset + bytes l.gap
    let stop := start + bytes l.text
    ⟨l.kind, start, stop, l.text⟩ :: spansFrom stop r

def Lexed.spans {κ : Type} (x : Lexed κ) : List (Spanned κ) := spansFrom 0 x.lexemes

end Stencil.Markup
