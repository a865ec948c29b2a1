import Stencil.Proofs.Markup.Concat
import Stencil.Proofs.Text.Slice

/-!
# The first fault of a template

A template that does not scan is a sequence of pieces, a `<` with a name, and an attribute list that
begins well and then cannot go on.  The error points at the place where it cannot.

* `FitBefore`            pieces in front of a text;
* `BreaksOff`            where a template breaks off within an attribute list;
* `FirstLine`            the first line of a text;
* `ScanError.PointsAt`   the error for a template that breaks off;
* `scan_first_fault`     the errors of all templates that do not scan.
-/

namespace Stencil.Markup

open Stencil.Text

/-! ## pieces in front of a text -/

/-- pieces that a text starts with, in front of the `rest` of it -/
def FitBefore (rest : List Char) : List Piece → Prop
  | [] => True
  | p :: ps => p.Fits (render ps ++ rest) ∧ FitBefore rest ps

/-- a template with a fault is cut into pieces up to the tag that has it -/
theorem pieces_error_cases {s : List Char} {f : Fault} (h : pieces s = .error f) :
    ∃ ps name r e, s = render ps ++ '<' :: (name ++ r) ∧ FitBefore ('<' :: (name ++ r)) ps ∧
      MaximalRun isNameChar name r ∧ opening r = .error e ∧ f = e.toFault name r := by
  induction hn : s.length using Nat.strongRecOn generalizing s with
  | _ n ih =>
    rcases first_piece_cases s with rfl | ⟨p, t, rfl, hp, hlt⟩ | ⟨name, r, e, rfl, hname, ho⟩
    · rw [pieces_nil] at h
      cases h
    · rw [pieces_piece hp, map_error_iff] at h
      obtain ⟨ps, name, r, e, rfl, hps, hrest⟩ := ih t.length (hn ▸ hlt) h rfl
      refine ⟨p :: ps, name, r, e, ?_, ⟨hp, hps⟩, hrest⟩
      rw [render_cons, List.append_assoc]
    · rw [pieces_name hname, ho] at h
      cases h
      exact ⟨[], name, r, e, rfl, trivial, hname, ho, rfl⟩

theorem attributeList_error_of_opening {s : List Char} {e : ListFault} (hs : Stops isNameChar s)
    (h : opening s = .error e) : attributeList s = .error e ∧ Stops isKeyChar s := by
  have hhead : s.head? ≠ some '<' := by
    intro hhead
    rw [opening_broken_iff.mpr hhead] at h
    cases h
  rw [opening_of_head_ne hhead, map_error_iff] at h
  exact ⟨h, stops_isKeyChar_of_isNameChar hs hhead⟩

/-- A template that breaks off within the attribute list of a tag: pieces, `<` and a name, the
longest beginning of an attribute list, and a text that does not go on with what is expected. -/
structure BreaksOff (s : List Char) (ps : List Piece) (name begun rest : List Char)
    (x : Expected) : Prop where
  split : s = render ps ++ '<' :: (name ++ (begun ++ rest))
  front : FitBefore ('<' :: (name ++ (begun ++ rest))) ps
  name : MaximalRun isNameChar name (begun ++ rest)
  begins : Begins false begun x
  longest : ∀ q y, Begins false q y → q <+: begun ++ rest → q <+: begun

/-- a beginning of a list does not go beyond its fault -/
theorem Begins.not_beyond {q begun rest : List Char} {x y : Expected} {e : ListFault}
    (h : Begins false q y) (hq : q <+: begun ++ rest) (hat : e.At x rest)
    (he : attributeList (begun ++ rest) = .error e) : q <+: begun := by
  obtain ⟨r, hr⟩ := hq
  rw [← hr] at he
  have hend := h.endOf he
  have hrest : rest <:+ r := by
    cases e with
    | ended =>
      rw [hat.2]
      exact List.nil_suffix
    | malformed kind place => exact hat.1 ▸ hend
  obtain ⟨between, rfl⟩ := hrest
  rw [← List.append_assoc, List.append_cancel_right_eq] at hr
  exact ⟨between, hr⟩

theorem pieces_error_breaksOff {s : List Char} {f : Fault} (h : pieces s = .error f) :
    ∃ ps name begun rest x, BreaksOff s ps name begun rest x ∧
      ∃ e : ListFault, e.At x rest ∧ f = e.toFault name (begun ++ rest) := by
  obtain ⟨ps, name, r, e, hs, hps, hname, ho, rfl⟩ := pieces_error_cases h
  obtain ⟨hlist, hstops⟩ := attributeList_error_of_opening hname.stops ho
  obtain ⟨begun, rest, x, rfl, hbegins, hat⟩ := attributeList_error_begins hlist fun _ => hstops
  exact ⟨ps, name, begun, rest, x, ⟨hs, hps, hname, hbegins,
    fun q y hq hle => hq.not_beyond hle hat hlist⟩, e, hat, rfl⟩

/-! ## the line of a fault -/

/-- `line` is the text `s` up to its first line break -/
inductive FirstLine : List Char → List Char → Prop
  | last {line : List Char} (h : ∀ c ∈ line, notNewline c = true) : FirstLine line line
  | newline {line r : List Char} (h : ∀ c ∈ line, notNewline c = true)
      (hlast : line.getLast? ≠ some '\r') : FirstLine line (line ++ '\n' :: r)
  | carriageReturn {line r : List Char} (h : ∀ c ∈ line, notNewline c = true) :
      FirstLine line (line ++ '\r' :: '\n' :: r)

theorem firstLine_spec (s : List Char) : FirstLine (firstLine s) s := by
  have hline : ∀ c ∈ s.takeWhile notNewline, notNewline c = true :=
    fun c hc => List.mem_takeWhile_imp hc
  have hs : s.takeWhile notNewline ++ s.dropWhile notNewline = s := List.takeWhile_append_dropWhile
  have hbreak := stops_dropWhile notNewline s
  unfold firstLine
  cases hrest : s.dropWhile notNewline with
  | nil =>
    rw [hrest, List.append_nil] at hs
    rw [if_neg (by simp), hs]
    exact .last (hs ▸ hline)
  | cons c r =>
    rw [hrest, stops_cons] at hbreak
    obtain rfl : c = '\n' := by simpa [notNewline] using hbreak
    rw [hrest] at hs
    by_cases hlast : (s.takeWhile notNewline).getLast? = some '\r'
    · rw [if_pos ⟨hlast, by simp⟩]
      obtain ⟨line, hconcat⟩ := List.getLast?_eq_some_iff.mp hlast
      rw [hconcat, List.dropLast_concat]
      rw [hconcat] at hs hline
      rw [← hs, List.append_assoc]
      exact .carriageReturn fun c hc => hline c (List.mem_append_left _ hc)
    · rw [if_neg (fun h => hlast h.1)]
      have hnewline := FirstLine.newline (r := r) hline hlast
      rwa [hs] at hnewline

/-- The error for a template that breaks off.  Where it ends in front of an attribute or of the end
of the list, the error is about the tag, from its `<` on.  Else it is about the `rest`, and quotes
the first line of it. -/
inductive ScanError.PointsAt (s : List Char) (ps : List Piece) (name begun : List Char) :
    List Char → Expected → ScanError → Prop
  | unterminated {offset : Nat} (hcut : cut? s offset = some (render ps, '<' :: (name ++ begun))) :
      PointsAt s ps name begun [] .attribute (.unterminatedTag offset (String.ofList name))
  | malformed {rest line : List Char} {x : Expected} {kind : Malformation} {offset : Nat}
      (hbreaks : Breaks x rest kind) (hline : FirstLine line rest)
      (hcut : cut? s offset = some (render ps ++ '<' :: (name ++ begun), rest)) :
      PointsAt s ps name begun rest x
        (.malformedAttribute offset kind.reason (String.ofList line))

theorem cut?_bytes_sub {s front behind : List Char} (h : s = front ++ behind) :
    cut? s (bytes s - bytes behind) = some (front, behind) := by
  rw [h, bytes_append, Nat.add_sub_cancel, cut?_append]

/-- the error for a fault at the place where a template breaks off -/
theorem BreaksOff.pointsAt {s : List Char} {ps : List Piece} {name begun rest : List Char}
    {x : Expected} (h : BreaksOff s ps name begun rest x) {e : ListFault} (he : e.At x rest) :
    ScanError.PointsAt s ps name begun rest x ((e.toFault name (begun ++ rest)).toError s) := by
  cases e with
  | ended =>
    obtain ⟨rfl, rfl⟩ := he
    have hsplit := h.split
    rw [List.append_nil] at hsplit ⊢
    exact .unterminated (cut?_bytes_sub hsplit)
  | malformed kind place =>
    obtain ⟨rfl, hbreaks⟩ := he
    refine .malformed hbreaks (firstLine_spec place) (cut?_bytes_sub ?_)
    rw [h.split]
    simp only [List.append_assoc, List.cons_append]

end Stencil.Markup

namespace Stencil

open Stencil.Markup

/-- a template that does not scan breaks off in the attribute list of a tag, and the error points at
the place where it does -/
theorem scan_first_fault (template : String) (e : ScanError) (h : scan template = .error e) :
    ∃ ps name begun rest x, BreaksOff template.toList ps name begun rest x ∧
      e.PointsAt template.toList ps name begun rest x := by
  obtain ⟨f, hf, rfl⟩ := parse_error_iff.mp (scan_error_iff.mp h)
  obtain ⟨ps, name, begun, rest, x, hbreaks, fault, hat, rfl⟩ := pieces_error_breaksOff hf
  exact ⟨ps, name, begun, rest, x, hbreaks, hbreaks.pointsAt hat⟩

/-- blanks on both sides of `=` and a word where the value is expected -/
theorem scan_first_fault_bare_word :
    scan "é<a>b < c<d<ñ k = \"v\"ü \n= x\r\ny>" =
      .error (.malformedAttribute 29 "expected '\"' to open attribute value" "x") ∧
    ∃ ps name begun rest x,
      BreaksOff "é<a>b < c<d<ñ k = \"v\"ü \n= x\r\ny>".toList ps name begun rest x ∧
      ScanError.PointsAt "é<a>b < c<d<ñ k = \"v\"ü \n= x\r\ny>".toList ps name begun rest x
        (.malformedAttribute 29 "expected '\"' to open attribute value" "x") := by
  have hscan : scan "é<a>b < c<d<ñ k = \"v\"ü \n= x\r\ny>" =
      .error (.malformedAttribute 29 "expected '\"' to open attribute value" "x") := by
    decide +kernel
  exact ⟨hscan, scan_first_fault _ _ hscan⟩

end Stencil
