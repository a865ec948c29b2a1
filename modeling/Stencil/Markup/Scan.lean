import Stencil.Markup.Token
import Stencil.Markup.Piece
import Stencil.Markup.ScanError

/-!
# Scanning a template

`pieces` cuts a template into its pieces and `scan` reports the opening tags among them.  No tree
is built: closing tags are plain text, and a tag may stay open.

* `valueText`       an optional `=` and value behind a key;
* `attributeList`   attributes up to the `/` or `>` that ends them;
* `pieces`          the whole template;
* `scan`            its opening tags with byte offsets, or the error for the first fault.
-/

namespace Stencil.Markup

open Stencil.Text

/-! ## attribute lists -/

/-- why an attribute list is not complete -/
inductive ListFault where
  /-- the text ends where an attribute or the end of the list is expected -/
  | ended
  | malformed (kind : Malformation) (rest : List Char)
  deriving DecidableEq, Repr

/-- the value behind `=` and the blanks `before` it -/
def valueAfter (before s : List Char) : Except ListFault (ValueText × List Char) :=
  match AttrToken.lexer.next? s with
  | none => .error (.malformed .missingValue [])
  | some (l, r) =>
    match l.kind with
    | .quoted => .ok (⟨before, l.gap, l.text⟩, r)
    | .unclosed => .error (.malformed .unclosedValue (l.text ++ r))
    | _ => .error (.malformed .missingValue (l.text ++ r))

/-- the value behind a key, if an `=` comes next, and the text after it -/
def valueText (s : List Char) : Except ListFault (Option ValueText × List Char) :=
  match AttrToken.lexer.next? s with
  | some (⟨before, .equals, _⟩, r) => (valueAfter before r).map fun p => (some p.1, p.2)
  | _ => .ok (none, s)

theorem valueAfter_length {before s r : List Char} {v : ValueText}
    (h : valueAfter before s = .ok (v, r)) : r.length ≤ s.length := by
  unfold valueAfter at h
  cases hs : AttrToken.lexer.next? s with
  | none =>
    rw [hs] at h
    cases h
  | some p =>
    obtain ⟨⟨gap, k, text⟩, t⟩ := p
    have hlt := AttrToken.lexer.length_rest_lt hs
    rw [hs] at h
    cases k with
    | quoted =>
      cases h
      exact Nat.le_of_lt hlt
    | _ => cases h

theorem valueText_length {s r : List Char} {v : Option ValueText}
    (h : valueText s = .ok (v, r)) : r.length ≤ s.length := by
  unfold valueText at h
  split at h
  · rename_i before text t hs
    have hlt := AttrToken.lexer.length_rest_lt hs
    cases hv : valueAfter before t with
    | error e =>
      rw [hv] at h
      cases h
    | ok p =>
      obtain ⟨value, u⟩ := p
      rw [hv] at h
      cases h
      exact Nat.le_trans (valueAfter_length hv) (Nat.le_of_lt hlt)
  · cases h
    exact Nat.le_refl _

/-- an attribute list, and the text behind the character that ends it -/
structure AttributeList where
  attributes : List AttributeText
  trail : List Char
  closer : Closer
  rest : List Char
  deriving DecidableEq, Repr

def attributeList (s : List Char) : Except ListFault AttributeList :=
  match h : AttrToken.lexer.next? s with
  | none => .error .ended
  | some (l, r) =>
    match l.kind with
    | .slash => .ok ⟨[], l.gap, .slash, r⟩
    | .close => .ok ⟨[], l.gap, .angle, r⟩
    | .equals => .error (.malformed .missingKey (l.text ++ r))
    | .quoted => .error (.malformed .bareValue (l.text ++ r))
    | .unclosed => .error (.malformed .strayQuote (l.text ++ r))
    | .key =>
      match hv : valueText r with
      | .error e => .error e
      | .ok (v, t) =>
        have := AttrToken.lexer.length_rest_lt h
        have := valueText_length hv
        match attributeList t with
        | .error e => .error e
        | .ok x => .ok { x with attributes := ⟨l.gap, l.text, v⟩ :: x.attributes }
termination_by s.length

/-! ## templates -/

/-- a run of text as a piece, unless it is empty -/
def textPiece (run : List Char) : List Piece := if run.isEmpty then [] else [.text run]

/-- what follows `<name`: a complete tag, or nothing but the `<` of the next piece -/
inductive Opening where
  | broken
  | tag (list : AttributeList)
  deriving DecidableEq, Repr

def opening (s : List Char) : Except ListFault Opening :=
  match s with
  | [] => .error .ended
  | '<' :: _ => .ok .broken
  | '/' :: r => .ok (.tag ⟨[], [], .slash, r⟩)
  | '>' :: r => .ok (.tag ⟨[], [], .angle, r⟩)
  | _ :: _ => (attributeList s).map .tag

theorem attributeList_length {s : List Char} {x : AttributeList}
    (h : attributeList s = .ok x) : x.rest.length < s.length := by
  induction hn : s.length using Nat.strongRecOn generalizing s x with
  | _ n ih =>
    subst hn
    rw [attributeList] at h
    split at h
    · cases h
    · rename_i l r hl
      have hlt := AttrToken.lexer.length_rest_lt hl
      split at h
      · cases h; exact hlt
      · cases h; exact hlt
      · cases h
      · cases h
      · cases h
      · split at h
        · cases h
        · rename_i v t hv
          have hle := valueText_length hv
          split at h
          · cases h
          · rename_i y hy
            have hrest : y.rest.length < t.length := ih t.length (by omega) hy rfl
            cases h
            show y.rest.length < s.length
            omega

theorem opening_length {s : List Char} {x : AttributeList} (h : opening s = .ok (.tag x)) :
    x.rest.length < s.length := by
  unfold opening at h
  split at h
  · cases h
  · cases h
  · cases h
    exact Nat.lt_succ_self _
  · cases h
    exact Nat.lt_succ_self _
  · rename_i c r _ _ _
    cases hx : attributeList (c :: r) with
    | error e =>
      rw [hx] at h
      cases h
    | ok y =>
      rw [hx] at h
      cases h
      exact attributeList_length hx

/-- the fault of a tag whose attribute list is not complete -/
def ListFault.toFault (name s : List Char) : ListFault → Fault
  | .ended => .unterminated name ('<' :: (name ++ s))
  | .malformed kind rest => .malformed kind rest

/-- all pieces of a template -/
def pieces (s : List Char) : Except Fault (List Piece) :=
  match h : MarkupToken.lexer.next? s with
  | none => .ok (textPiece s)
  | some (l, r) =>
    have := MarkupToken.lexer.length_rest_lt h
    match l.kind with
    | .lessThan => (pieces r).map fun ps => textPiece l.gap ++ .lone :: ps
    | .tagOpen =>
      let name := l.text.tail
      match ho : opening r with
      | .error e => .error (e.toFault name r)
      | .ok .broken => (pieces r).map fun ps => textPiece l.gap ++ .broken name :: ps
      | .ok (.tag x) =>
        have := opening_length ho
        (pieces x.rest).map fun ps =>
          textPiece l.gap ++ .tag ⟨name, x.attributes, x.trail, x.closer⟩ :: ps
termination_by s.length

/-- the pieces of a template, or the error for its first fault -/
def parse (template : String) : Except ScanError (List Piece) :=
  (pieces template.toList).mapError (Fault.toError template.toList)

/-- the opening tags of a template in order, or the error for its first fault -/
def scan (template : String) : Except ScanError (List ScannedTag) :=
  (parse template).map (tagsFrom 0)

end Stencil.Markup
