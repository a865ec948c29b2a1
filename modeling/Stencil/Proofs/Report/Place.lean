import Stencil.Proofs.Markup.FirstFault
import Stencil.Proofs.Text.Position
import Stencil.Report

/-!
# The place that a report shows

The header of a report names a line and a column.  They are those of the error if only characters of
one byte are in front of it, because the mark of the report counts bytes and its lines count
characters.

* `Report.placeRow`       the header for a position;
* `Report.Shows`          the header of a report is the one for a position;
* `Report.shows_iff`      the header is for the position of the mark, if the mark is in the source;
* `report_place_iff`      when a report shows the place of the error.
-/

namespace Stencil

open Stencil.Text Stencil.Markup

/-! ## headers -/

theorem isDigit_toDigits (n : Nat) : ∀ c ∈ Nat.toDigits 10 n, c.isDigit = true :=
  fun _ hc => Nat.isDigit_of_mem_toDigits (by decide) (by decide) hc

/-- a number ends where its digits end -/
theorem toDigits_append_inj {m n : Nat} {s t : List Char} (hs : Stops Char.isDigit s)
    (ht : Stops Char.isDigit t) (h : Nat.toDigits 10 m ++ s = Nat.toDigits 10 n ++ t) :
    m = n ∧ s = t := by
  obtain ⟨hdigits, hrest⟩ :=
    append_inj_of_stops (isDigit_toDigits m) (isDigit_toDigits n) hs ht h
  have hvalue := congrArg (fun digits => Nat.ofDigitChars 10 digits 0) hdigits
  simp only [Nat.ofDigitChars_ten_toDigits] at hvalue
  exact ⟨hvalue, hrest⟩

namespace Report

/-- the header of a report: a position in the file, in brackets -/
def placeRow (r : Report) (width : Nat) (p : Position) : String :=
  String.join [spaces (width + 2), paint .frame "╭", paint .frame "─", paint .frame "[",
    String.join [r.fileName, ":", toString p.line, ":", toString p.column], paint .frame "]"]

/-- what stands between the indentation and the place -/
def corner : String := String.join [paint .frame "╭", paint .frame "─", paint .frame "["]

theorem toList_placeRow (r : Report) (width : Nat) (p : Position) :
    (r.placeRow width p).toList = List.replicate (width + 2) ' ' ++ (corner.toList ++
      (r.fileName.toList ++ ':' :: (Nat.toDigits 10 p.line ++ ':' :: (Nat.toDigits 10 p.column ++
        (paint .frame "]").toList)))) := by
  have hcolon : ":".toList = [':'] := rfl
  simp only [placeRow, corner, spaces, String.toList_join, List.flatMap_cons, List.flatMap_nil,
    String.toList_ofList, Nat.toString_eq_repr, Nat.toList_repr, hcolon, List.append_assoc,
    List.append_nil, List.cons_append, List.nil_append]

/-- the header says which position it is for -/
theorem placeRow_inj {r : Report} {v w : Nat} {p q : Position}
    (h : r.placeRow v p = r.placeRow w q) : p = q := by
  have h := congrArg String.toList h
  rw [toList_placeRow, toList_placeRow] at h
  have hspaces : ∀ n, ∀ c ∈ List.replicate n ' ', (c == ' ') = true := fun n c hc =>
    beq_iff_eq.mpr (List.eq_of_mem_replicate hc)
  have hcorner : ∀ s, Stops (fun c => c == ' ') (corner.toList ++ s) :=
    fun s => (stops_append (by decide) s).mpr (stops_cons.mpr (by decide))
  have hcolon : ∀ s, Stops Char.isDigit (':' :: s) := fun s => stops_cons.mpr (by decide)
  have hbracket : Stops Char.isDigit (paint .frame "]").toList := stops_cons.mpr (by decide)
  -- the indentations end at the corner, and the numbers at what is no digit
  obtain ⟨-, h⟩ := append_inj_of_stops (hspaces _) (hspaces _) (hcorner _) (hcorner _) h
  have h := (List.cons.inj (List.append_cancel_left (List.append_cancel_left h))).2
  obtain ⟨hline, h⟩ := toDigits_append_inj (hcolon _) (hcolon _) h
  obtain ⟨hcolumn, -⟩ := toDigits_append_inj hbracket hbracket (List.cons.inj h).2
  exact Position.ext hline hcolumn

/-! ## the place of the mark -/

/-- the row below the title is the header for a position -/
def Shows (r : Report) (p : Position) : Prop := ∃ width, r.rows[1]? = some (r.placeRow width p)

theorem row_eq_none {r : Report} (h : lineAt r.source r.mark.last = none) :
    r.rows[1]? = none := by
  rw [rows, h]
  cases lineAt r.source r.mark.start <;> rfl

theorem row_eq_placeRow {r : Report} {first last : Line}
    (hfirst : lineAt r.source r.mark.start = some first)
    (hlast : lineAt r.source r.mark.last = some last) :
    r.rows[1]? = some (r.placeRow (toString (last.index + 1)).length
      (first.position r.mark.start)) := by
  rw [rows, hfirst, hlast]
  rfl

/-- the header is for the position at which the mark starts, and there is none for a mark that is
not within the source -/
theorem shows_iff {r : Report} (hs : r.source ≠ []) (p : Position) :
    r.Shows p ↔ r.mark.last ≤ r.source.length ∧ position? r.source r.mark.start = some p := by
  have hstart : r.mark.start ≤ r.mark.last := Nat.le_max_right ..
  rw [← isSome_lineAt_iff hs, ← map_lineAt hs]
  cases hlast : lineAt r.source r.mark.last with
  | none =>
    rw [Shows, row_eq_none hlast]
    simp
  | some last =>
    have hle := (isSome_lineAt_iff hs).mp (Option.isSome_of_eq_some hlast)
    obtain ⟨first, hfirst⟩ := Option.isSome_iff_exists.mp
      ((isSome_lineAt_iff hs).mpr (Nat.le_trans hstart hle))
    rw [Shows, row_eq_placeRow hfirst hlast, hfirst]
    constructor
    · rintro ⟨width, hrow⟩
      exact ⟨rfl, congrArg some (placeRow_inj (Option.some.inj hrow))⟩
    · rintro ⟨-, hp⟩
      obtain rfl : first.position r.mark.start = p := Option.some.inj hp
      exact ⟨_, rfl⟩

end Report

/-! ## the place of the error -/

theorem Markup.ScanError.PointsAt.exists_cut {s : List Char} {ps : List Piece}
    {name begun rest : List Char} {x : Expected} {e : ScanError}
    (h : e.PointsAt s ps name begun rest x) :
    ∃ front behind, cut? s e.offset = some (front, behind) := by
  cases h with
  | unterminated hcut => exact ⟨_, _, hcut⟩
  | malformed _ _ hcut => exact ⟨_, _, hcut⟩

theorem exists_cut_of_scan_error {template : String} {e : ScanError}
    (h : scan template = .error e) :
    template.toList ≠ [] ∧ ∃ front rest, cut? template.toList e.offset = some (front, rest) := by
  obtain ⟨f, hf, rfl⟩ := parse_error_iff.mp (scan_error_iff.mp h)
  obtain ⟨ps, name, begun, rest, x, hbreaks, fault, hat, rfl⟩ := pieces_error_breaksOff hf
  refine ⟨?_, (hbreaks.pointsAt hat).exists_cut⟩
  rw [hbreaks.split]
  exact List.append_ne_nil_of_right_ne_nil _ (List.cons_ne_nil _ _)

theorem mark_ofError (e : ScanError) (source fileName : String) :
    (Report.ofError e source fileName).mark = Mark.ofError source.toList e := by
  cases e <;> rfl

theorem source_ofError (e : ScanError) (source fileName : String) :
    (Report.ofError e source fileName).source = source.toList := by
  cases e <;> rfl

theorem start_ofError {s front rest : List Char} {e : ScanError}
    (h : cut? s e.offset = some (front, rest)) : (Mark.ofError s e).start = bytes front := by
  obtain ⟨rfl, hoffset⟩ := cut?_eq_some_iff.mp h
  show min e.offset (bytes (front ++ rest)) = bytes front
  rw [hoffset, bytes_append]
  exact Nat.min_eq_left (Nat.le_add_right ..)

/-- the report for a scan error shows the position that is as many characters into the template as
the error is bytes, so it shows the place of the error if all characters in front of it are one byte
long; a report whose mark ends behind the last character, counted so, shows no place -/
theorem report_place_iff (template fileName : String) (e : ScanError)
    (h : scan template = .error e) :
    ∃ front rest p, cut? template.toList e.offset = some (front, rest) ∧
      position? template.toList front.length = some p ∧
      (∀ q, (Report.ofError e template fileName).Shows q ↔
        (Mark.ofError template.toList e).last ≤ template.toList.length ∧
          position? template.toList e.offset = some q) ∧
      ((Report.ofError e template fileName).Shows p ↔
        (Mark.ofError template.toList e).last ≤ template.toList.length ∧
          ∀ c ∈ front, c.utf8Size = 1) := by
  obtain ⟨hs, front, rest, hcut⟩ := exists_cut_of_scan_error h
  obtain ⟨hsplit, hoffset⟩ := cut?_eq_some_iff.mp hcut
  have hlength : front.length ≤ template.toList.length := by
    rw [hsplit, List.length_append]
    exact Nat.le_add_right ..
  obtain ⟨p, hp⟩ := Option.isSome_iff_exists.mp ((isSome_position?_iff hs).mpr hlength)
  have hshows : ∀ q, (Report.ofError e template fileName).Shows q ↔
      (Mark.ofError template.toList e).last ≤ template.toList.length ∧
        position? template.toList e.offset = some q := by
    intro q
    have hsource := source_ofError e template fileName
    rw [Report.shows_iff (hsource ▸ hs), hsource, mark_ofError, start_ofError hcut, hoffset]
  refine ⟨front, rest, p, hcut, hp, hshows, ?_⟩
  rw [hshows p, ← bytes_eq_length_iff, ← hoffset]
  constructor
  · rintro ⟨hlast, hposition⟩
    exact ⟨hlast, position?_inj hposition hp⟩
  · rintro ⟨hlast, hsame⟩
    exact ⟨hlast, hsame ▸ hp⟩

/-- an error on the second line, behind characters of one byte -/
theorem report_place_second_line :
    scan "<p>\n<a =>" =
      .error (.malformedAttribute 7 "expected attribute name before '='" "=>") ∧
    (Report.ofError (.malformedAttribute 7 "expected attribute name before '='" "=>")
      "<p>\n<a =>" "page.html").Shows ⟨2, 4⟩ := by
  have hscan : scan "<p>\n<a =>" =
      .error (.malformedAttribute 7 "expected attribute name before '='" "=>") := by
    decide +kernel
  obtain ⟨front, rest, p, hcut, hp, -, hshows⟩ := report_place_iff _ "page.html" _ hscan
  have hfront : cut? "<p>\n<a =>".toList 7 = some ("<p>\n<a ".toList, "=>".toList) := by
    decide +kernel
  obtain ⟨rfl, rfl⟩ := Prod.mk.inj (Option.some.inj (hcut.symm.trans hfront))
  have hposition : position? "<p>\n<a =>".toList 7 = some ⟨2, 4⟩ := by decide +kernel
  obtain rfl := Option.some.inj (hp.symm.trans hposition)
  exact ⟨hscan, hshows.mpr ⟨by decide +kernel, bytes_eq_length_iff.mp (by decide +kernel)⟩⟩

/-- a character of two bytes in front of the error moves the place that is shown -/
theorem not_report_place :
    scan "é\n<a =>" = .error (.malformedAttribute 6 "expected attribute name before '='" "=>") ∧
    cut? "é\n<a =>".toList 6 = some ("é\n<a ".toList, "=>".toList) ∧
    position? "é\n<a =>".toList "é\n<a ".toList.length = some ⟨2, 4⟩ ∧
    (Report.ofError (.malformedAttribute 6 "expected attribute name before '='" "=>")
      "é\n<a =>" "page.html").Shows ⟨2, 5⟩ ∧
    ¬(Report.ofError (.malformedAttribute 6 "expected attribute name before '='" "=>")
      "é\n<a =>" "page.html").Shows ⟨2, 4⟩ := by
  have hscan : scan "é\n<a =>" =
      .error (.malformedAttribute 6 "expected attribute name before '='" "=>") := by
    decide +kernel
  have hcut : cut? "é\n<a =>".toList 6 = some ("é\n<a ".toList, "=>".toList) := by
    decide +kernel
  have hplace : position? "é\n<a =>".toList "é\n<a ".toList.length = some ⟨2, 4⟩ := by
    decide +kernel
  have hmoved : position? "é\n<a =>".toList 6 = some ⟨2, 5⟩ := by decide +kernel
  refine ⟨hscan, hcut, hplace, ?_, fun h => ?_⟩
  · exact (Report.shows_iff (List.cons_ne_nil _ _) _).mpr ⟨by decide +kernel, hmoved⟩
  · have hshown := ((Report.shows_iff (List.cons_ne_nil _ _) _).mp h).2
    cases hmoved.symm.trans hshown

end Stencil
