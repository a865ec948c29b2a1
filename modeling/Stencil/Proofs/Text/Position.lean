import Stencil.Text.Bytes
import Stencil.Text.Line

/-!
# Positions in a text

The position of an offset is its line and its column, both counted from 1.

* `position?`             the position of the character at an offset, or of the end of the text;
* `isSome_position?_iff`  the offsets up to the length of a text have one;
* `position?_inj`         no two offsets have the same;
* `map_lineAt`            the line that `lineAt` finds is the line of the position;
* `bytes_eq_length_iff`   bytes and characters are counted alike if each character is one byte.
-/

namespace Stencil.Text

@[ext]
structure Position where
  line : Nat
  /-- the place of the character within its line -/
  column : Nat
  deriving DecidableEq, Repr

/-- the position in some lines, of which the first has the number `line` -/
def positionFrom (line : Nat) : List (List Char) → Nat → Option Position
  | [], _ => none
  | [t], k => if k ≤ t.length then some ⟨line, k + 1⟩ else none
  | t :: u :: r, k =>
    if k < t.length then some ⟨line, k + 1⟩ else positionFrom (line + 1) (u :: r) (k - t.length)

/-- the line and column of the character at an offset, or of the end of a text that is not empty -/
def position? (s : List Char) (offset : Nat) : Option Position :=
  positionFrom 1 (splitLines s) offset

/-! ## which offsets have a position -/

theorem isSome_positionFrom_iff {ls : List (List Char)} {line k : Nat} (hls : ls ≠ []) :
    (positionFrom line ls k).isSome ↔ k ≤ ls.flatten.length := by
  induction ls generalizing line k with
  | nil => exact absurd rfl hls
  | cons t r ih =>
    rw [List.flatten_cons, List.length_append]
    cases r with
    | nil => simp [positionFrom]
    | cons u r =>
      rw [positionFrom]
      by_cases hlt : k < t.length
      · rw [if_pos hlt]
        exact iff_of_true rfl (by omega)
      · rw [if_neg hlt, ih (List.cons_ne_nil _ _)]
        omega

theorem splitLines_ne_nil {s : List Char} (h : s ≠ []) : splitLines s ≠ [] := by
  intro hls
  have hs := flatten_splitLines s
  rw [hls] at hs
  exact h hs.symm

theorem isSome_position?_iff {s : List Char} {k : Nat} (hs : s ≠ []) :
    (position? s k).isSome ↔ k ≤ s.length := by
  rw [position?, isSome_positionFrom_iff (splitLines_ne_nil hs), flatten_splitLines]

/-! ## different offsets have different positions -/

theorem line_le_of_positionFrom {ls : List (List Char)} {k line : Nat} {p : Position}
    (h : positionFrom line ls k = some p) : line ≤ p.line := by
  induction ls generalizing line k with
  | nil => cases h
  | cons t r ih =>
    cases r with
    | nil =>
      obtain ⟨-, hp⟩ := Option.ite_none_right_eq_some.mp h
      cases hp
      exact Nat.le_refl line
    | cons u r =>
      rw [positionFrom] at h
      split at h
      · cases h
        exact Nat.le_refl line
      · exact Nat.le_of_succ_le (ih h)

theorem positionFrom_inj {ls : List (List Char)} {j k line : Nat} {p : Position}
    (hj : positionFrom line ls j = some p) (hk : positionFrom line ls k = some p) : j = k := by
  induction ls generalizing line j k with
  | nil => cases hj
  | cons t r ih =>
    cases r with
    | nil =>
      obtain ⟨-, hp⟩ := Option.ite_none_right_eq_some.mp hj
      obtain ⟨-, hq⟩ := Option.ite_none_right_eq_some.mp hk
      cases hp
      injection hq with hq
      injection hq with _ hcolumn
      exact (Nat.add_right_cancel hcolumn).symm
    | cons u r =>
      rw [positionFrom] at hj hk
      split at hj <;> split at hk
      · cases hj
        injection hk with hk
        injection hk with _ hcolumn
        exact (Nat.add_right_cancel hcolumn).symm
      · -- one is on this line and the other is on a later one
        cases hj
        exact absurd (line_le_of_positionFrom hk) (Nat.not_succ_le_self line)
      · cases hk
        exact absurd (line_le_of_positionFrom hj) (Nat.not_succ_le_self line)
      · have := ih hj hk
        omega

theorem position?_inj {s : List Char} {j k : Nat} {p : Position} (hj : position? s j = some p)
    (hk : position? s k = some p) : j = k :=
  positionFrom_inj hj hk

/-! ## the line of a position -/

/-- the position of an offset that is on the line `l` -/
def Line.position (l : Line) (offset : Nat) : Position := ⟨l.index + 1, offset - l.start + 1⟩

theorem start_le_of_mem_numberFrom {ls : List (List Char)} {index start : Nat} {l : Line}
    (h : l ∈ numberFrom index start ls) : start ≤ l.start := by
  induction ls generalizing index start with
  | nil => cases h
  | cons t r ih =>
    rcases List.mem_cons.mp h with rfl | h
    · exact Nat.le_refl start
    · exact Nat.le_trans (Nat.le_add_right ..) (ih h)

/-- the lines that start at or before an offset -/
def linesUpTo (offset : Nat) (ls : List Line) : List Line :=
  ls.filter fun l => decide (l.start ≤ offset)

theorem linesUpTo_eq_nil {ls : List (List Char)} {index start offset : Nat} (h : offset < start) :
    linesUpTo offset (numberFrom index start ls) = [] := by
  refine List.filter_eq_nil_iff.mpr fun l hl => ?_
  have := start_le_of_mem_numberFrom hl
  rw [decide_eq_true_iff]
  omega

theorem linesUpTo_numberFrom {t : List Char} {ls : List (List Char)} {index start offset : Nat}
    (h : start ≤ offset) :
    linesUpTo offset (numberFrom index start (t :: ls)) =
      ⟨index, start, t⟩ :: linesUpTo offset (numberFrom (index + 1) (start + t.length) ls) :=
  List.filter_cons_of_pos (decide_eq_true h)

theorem map_getLast?_linesUpTo {ls : List (List Char)} {k : Nat} (index start : Nat)
    (hk : k ≤ ls.flatten.length) :
    (linesUpTo (start + k) (numberFrom index start ls)).getLast?.map
        (fun l => l.position (start + k)) = positionFrom (index + 1) ls k := by
  induction ls generalizing index start k with
  | nil => rfl
  | cons t r ih =>
    rw [List.flatten_cons, List.length_append] at hk
    rw [linesUpTo_numberFrom (Nat.le_add_right ..)]
    cases r with
    | nil =>
      have hcolumn : start + k - start + 1 = k + 1 := by omega
      have hk : k ≤ t.length := hk
      rw [positionFrom, if_pos hk, ← hcolumn]
      rfl
    | cons u r =>
      rw [positionFrom]
      by_cases hlt : k < t.length
      · -- the next line starts behind the offset
        have hcolumn : start + k - start + 1 = k + 1 := by omega
        rw [if_pos hlt, linesUpTo_eq_nil (by omega), ← hcolumn]
        rfl
      · -- the next line starts at or before the offset, so this one is not the last
        have hoffset : start + t.length + (k - t.length) = start + k := by omega
        have ih := ih (k := k - t.length) (index + 1) (start + t.length) (by omega)
        rw [hoffset] at ih
        rw [if_neg hlt, ← ih, linesUpTo_numberFrom (by omega), List.getLast?_cons_cons]

theorem map_lineAt {s : List Char} (hs : s ≠ []) (k : Nat) :
    (lineAt s k).map (fun l => l.position k) = position? s k := by
  by_cases hk : k ≤ s.length
  · have hflat : k ≤ (splitLines s).flatten.length := by rwa [flatten_splitLines]
    have h := map_getLast?_linesUpTo 0 0 hflat
    rw [Nat.zero_add] at h
    rw [lineAt, if_pos hk]
    exact h
  · have hnone := Option.not_isSome_iff_eq_none.mp (mt (isSome_position?_iff hs).mp hk)
    rw [lineAt, if_neg hk, hnone]
    rfl

theorem isSome_lineAt_iff {s : List Char} {k : Nat} (hs : s ≠ []) :
    (lineAt s k).isSome ↔ k ≤ s.length := by
  rw [← isSome_position?_iff hs, ← map_lineAt hs, Option.isSome_map]

/-! ## bytes and characters -/

theorem length_le_bytes (s : List Char) : s.length ≤ bytes s := by
  induction s with
  | nil => exact Nat.le_refl 0
  | cons c r ih =>
    have hc := c.utf8Size_pos
    rw [List.length_cons, bytes_cons]
    omega

theorem bytes_eq_length_iff {s : List Char} :
    bytes s = s.length ↔ ∀ c ∈ s, c.utf8Size = 1 := by
  induction s with
  | nil => simp
  | cons c r ih =>
    have hc := c.utf8Size_pos
    have hr := length_le_bytes r
    rw [List.forall_mem_cons, ← ih, bytes_cons, List.length_cons]
    omega

end Stencil.Text
