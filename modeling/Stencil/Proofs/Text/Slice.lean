import Stencil.Text.Bytes

/-!
# Slices of a text

Offsets into a text count bytes, and a text can be cut only between two characters.

* `append_inj_of_bytes`  a text is cut in one way at a byte offset;
* `cut?`                 the two parts of a text at an offset;
* `slice?`               the text from one offset to another;
* `cut?_eq_some_iff`     a text is cut where the bytes of a first part end;
* `slice?_eq_some_iff`   a slice is what stands between two such parts;
* `exists_slice?`        there is a slice between any two places to cut at.
-/

namespace Stencil.Text

/-! ## beginnings of one text -/

theorem bytes_eq_zero {s : List Char} (h : bytes s = 0) : s = [] := by
  cases s with
  | nil => rfl
  | cons c r =>
    have hc := c.utf8Size_pos
    rw [bytes_cons] at h
    omega

/-- of two beginnings of a text the one with fewer bytes begins the other -/
theorem exists_append_of_bytes_le {a b s t : List Char} (h : a ++ s = b ++ t)
    (hb : bytes a ≤ bytes b) : ∃ m, b = a ++ m ∧ s = m ++ t := by
  rcases List.append_eq_append_iff.mp h with ⟨m, hm, hs⟩ | ⟨m, rfl, hs⟩
  · exact ⟨m, hm, hs⟩
  · rw [bytes_append] at hb
    have hm : m = [] := bytes_eq_zero (by omega)
    rw [hm, List.nil_append] at hs
    exact ⟨[], by rw [hm, List.append_nil, List.append_nil], hs.symm⟩

theorem append_inj_of_bytes {a b s t : List Char} (h : a ++ s = b ++ t) (hb : bytes a = bytes b) :
    a = b ∧ s = t := by
  obtain ⟨m, rfl, rfl⟩ := exists_append_of_bytes_le h (Nat.le_of_eq hb)
  rw [bytes_append] at hb
  rw [bytes_eq_zero (by omega : bytes m = 0)]
  exact ⟨(List.append_nil a).symm, rfl⟩

/-! ## cuts -/

/-- the parts of a text in front of an offset and behind it, if no character stands across it -/
def cut? : List Char → Nat → Option (List Char × List Char)
  | s, 0 => some ([], s)
  | [], _ + 1 => none
  | c :: r, n + 1 =>
    if c.utf8Size ≤ n + 1 then (cut? r (n + 1 - c.utf8Size)).map fun p => (c :: p.1, p.2) else none

/-- the text from `start` to `stop`, if it can be cut at both and they are in this order -/
def slice? (s : List Char) (start stop : Nat) : Option (List Char) :=
  if start ≤ stop then
    (cut? s start).bind fun p => (cut? p.2 (stop - start)).map Prod.fst
  else none

theorem cut?_append (front rest : List Char) :
    cut? (front ++ rest) (bytes front) = some (front, rest) := by
  induction front with
  | nil => rw [List.nil_append, bytes_nil, cut?]
  | cons c front ih =>
    have hc := c.utf8Size_pos
    obtain ⟨n, hn⟩ : ∃ n, bytes (c :: front) = n + 1 :=
      Nat.exists_eq_add_one_of_ne_zero (by rw [bytes_cons]; omega)
    rw [bytes_cons] at hn
    have hle : c.utf8Size ≤ n + 1 := by omega
    have hrest : n + 1 - c.utf8Size = bytes front := by omega
    rw [bytes_cons, hn, List.cons_append, cut?, if_pos hle, hrest, ih]
    rfl

theorem cut?_zero (s : List Char) : cut? s 0 = some ([], s) := cut?_append [] s

theorem cut?_eq_some_iff {s front rest : List Char} {n : Nat} :
    cut? s n = some (front, rest) ↔ s = front ++ rest ∧ n = bytes front := by
  constructor
  · intro h
    induction s generalizing n front with
    | nil =>
      cases n with
      | zero =>
        cases h
        exact ⟨rfl, rfl⟩
      | succ n => cases h
    | cons c s ih =>
      cases n with
      | zero =>
        cases h
        exact ⟨rfl, rfl⟩
      | succ n =>
        rw [cut?] at h
        by_cases hle : c.utf8Size ≤ n + 1
        · rw [if_pos hle] at h
          obtain ⟨⟨front', rest'⟩, hcut, heq⟩ := Option.map_eq_some_iff.mp h
          cases heq
          obtain ⟨rfl, hn⟩ := ih hcut
          refine ⟨rfl, ?_⟩
          show n + 1 = c.utf8Size + bytes front'
          omega
        · rw [if_neg hle] at h
          cases h
  · intro h
    obtain ⟨rfl, rfl⟩ := h
    exact cut?_append front rest

theorem slice?_eq_some_iff {s text : List Char} {start stop : Nat} :
    slice? s start stop = some text ↔
      ∃ front rest, s = front ++ (text ++ rest) ∧ start = bytes front ∧
        stop = start + bytes text := by
  constructor
  · intro h
    unfold slice? at h
    by_cases hle : start ≤ stop
    · rw [if_pos hle] at h
      obtain ⟨⟨front, more⟩, hfront, h⟩ := Option.bind_eq_some_iff.mp h
      obtain ⟨⟨text', rest⟩, htext, heq⟩ := Option.map_eq_some_iff.mp h
      obtain rfl : text' = text := heq
      obtain ⟨rfl, hstart⟩ := cut?_eq_some_iff.mp hfront
      obtain ⟨rfl, hstop⟩ := cut?_eq_some_iff.mp htext
      exact ⟨front, rest, rfl, hstart, by omega⟩
    · rw [if_neg hle] at h
      cases h
  · intro h
    obtain ⟨front, rest, rfl, rfl, rfl⟩ := h
    have hsize : bytes front + bytes text - bytes front = bytes text := by omega
    rw [slice?, if_pos (Nat.le_add_right ..), cut?_append, Option.bind_some, hsize, cut?_append]
    rfl

/-- there is a slice between any two places to cut at -/
theorem exists_slice? {s : List Char} {start stop : Nat} (hle : start ≤ stop)
    (hstart : (cut? s start).isSome) (hstop : (cut? s stop).isSome) :
    ∃ text, slice? s start stop = some text := by
  obtain ⟨⟨a, b⟩, hab⟩ := Option.isSome_iff_exists.mp hstart
  obtain ⟨⟨x, y⟩, hxy⟩ := Option.isSome_iff_exists.mp hstop
  obtain ⟨rfl, rfl⟩ := cut?_eq_some_iff.mp hab
  obtain ⟨hsplit, rfl⟩ := cut?_eq_some_iff.mp hxy
  obtain ⟨m, rfl, rfl⟩ := exists_append_of_bytes_le hsplit hle
  exact ⟨m, slice?_eq_some_iff.mpr ⟨a, y, rfl, rfl, bytes_append a m⟩⟩

end Stencil.Text
