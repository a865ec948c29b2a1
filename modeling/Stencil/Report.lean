import Stencil.Text.Line
import Stencil.Text.Width
import Stencil.Markup.ScanError

/-!
# Error reports

A report shows a scan error in its source: a title, the place as `file:line:column`, the lines
around it with the faulty text in red, and a label under them.

* `Mark.ofError`    the marked text, as offsets into the source;
* `Report.ofError`  what is shown: title, marked text and label;
* `Report.render`   the text of a report.

The offsets of a mark are the byte offsets of the error, but lines and columns are found by
counting characters.  In a source with longer characters before the error, the mark is further
right for each of them.
-/

namespace Stencil

open Stencil.Text Stencil.Markup

/-! ## what is shown -/

/-- the marked text: from `start` up to, but not including, `stop` -/
structure Mark where
  start : Nat
  stop : Nat
  deriving DecidableEq, Repr

namespace Mark

def covers (m : Mark) (offset : Nat) : Bool :=
  decide (m.start ≤ offset) && decide (offset < m.stop)

/-- the offset of the last marked character, or of the mark itself if it is empty -/
def last (m : Mark) : Nat := max (m.stop - 1) m.start

end Mark

/-- the character that starts at a byte offset -/
def charAt : List Char → Nat → Option Char
  | [], _ => none
  | c :: _, 0 => some c
  | c :: r, n + 1 => if c.utf8Size ≤ n + 1 then charAt r (n + 1 - c.utf8Size) else none

/-- the faulty character, or the `<` and the name of a tag that is never closed -/
def Mark.ofError (source : List Char) (e : ScanError) : Mark :=
  let size := bytes source
  let start := min e.offset size
  let length :=
    match e with
    | .malformedAttribute _ _ _ => ((charAt source start).map Char.utf8Size).getD 0
    | .unterminatedTag _ tag => bytes tag.toList + 1
  ⟨start, min (start + length) size⟩

structure Report where
  title : String
  label : String
  mark : Mark
  source : List Char
  fileName : String

def Report.ofError (e : ScanError) (source fileName : String) : Report :=
  let mark := Mark.ofError source.toList e
  match e with
  | .malformedAttribute _ reason _ =>
    ⟨"malformed attribute", reason, mark, source.toList, fileName⟩
  | .unterminatedTag _ tag =>
    ⟨s!"unterminated tag <{tag}>", "tag opened here is never closed with '>'", mark,
      source.toList, fileName⟩

/-! ## colours -/

/-- the colours of a report -/
inductive Colour where
  | red
  /-- frame and line numbers -/
  | frame
  /-- margins without a number -/
  | margin
  /-- source text that is not marked -/
  | source

def Colour.code : Colour → String
  | red => "31"
  | frame => "38;5;246"
  | margin => "38;5;240"
  | source => "38;5;249"

def paint (colour : Colour) (text : String) : String :=
  String.join ["\x1b[", colour.code, "m", text, "\x1b[0m"]

/-- `n` pieces of the same text, each with its own colour -/
def paints (n : Nat) (colour : Colour) (text : String) : String :=
  String.join (List.replicate n (paint colour text))

def spaces (n : Nat) : String := String.ofList (List.replicate n ' ')

/-! ## lines -/

/-- the width of column `i` of a line; a tab ends at the next multiple of four -/
def columnWidth (line : Line) (i : Nat) : Nat :=
  match line.trimmed[i]? with
  | none => 1
  | some c => if c = '\t' then 4 - i % 4 else if isBlank c then 1 else columns c

/-- what is written for the character at column `i` of a line, in cells -/
def cells (i : Nat) (c : Char) : List String :=
  if c = '\t' then List.replicate (4 - i % 4) " "
  else if isBlank c then [" "]
  else [String.ofList [c]]

def lineText (mark : Mark) (line : Line) : String :=
  String.join (line.trimmed.zipIdx.flatMap fun p =>
    let colour := if mark.covers (line.start + p.2) then Colour.red else Colour.source
    (cells p.2 p.1).map (paint colour))

/-- columns `0` to `n - 1` of a line, each written with its number and width -/
def acrossColumns (line : Line) (n : Nat) (write : Nat → Nat → String) : String :=
  String.join ((List.range n).map fun i => write i (columnWidth line i))

/-- one cell of a kind at the start of a column, and another kind in the rest of it -/
def headed (width : Nat) (first rest : String) : String :=
  match width with
  | 0 => ""
  | n + 1 => paint .red first ++ paints n .red rest

namespace Report

/-- the margin of a line: its number, with `width` digits at most in the report -/
def numbered (width : Nat) (line : Line) : String :=
  let number := toString (line.index + 1)
  String.join [" ", paint .frame (spaces (width - number.length) ++ number ++ " │"), " "]

/-- a margin without a number -/
def blankMargin (width : Nat) (bar : String) : String :=
  String.join [" ", paint .margin (spaces (width + 1) ++ bar), " "]

/-- the mark within one line: the line, the marked columns, and the label -/
def inlineRows (r : Report) (width : Nat) (line : Line) : List String :=
  let mark := r.mark
  if line.start ≤ mark.start ∧ mark.stop ≤ line.stop then
    let anchor := (mark.start + mark.stop) / 2 - line.start
    let n := mark.stop - line.start + 2
    let margin := blankMargin width "│"
    let underline := acrossColumns line n fun i w =>
      let marked := mark.covers (line.start + i)
      if i = anchor then if marked then headed w "┬" "─" else headed w "│" " "
      else if marked then paints w .red "─" else spaces w
    let pointer := acrossColumns line n fun i w =>
      if i < anchor then spaces w
      else if i = anchor then headed w "╰" "─"
      else paints w .red "─"
    [numbered width line ++ lineText mark line, margin ++ underline,
      String.join [margin, pointer, " ", r.label]]
  else [blankMargin width "│"]

/-- a line that the mark enters or leaves -/
def arrowRow (r : Report) (width : Nat) (corner : String) (line : Line) : String :=
  String.join [numbered width line, paint .red corner, paint .red "─", paint .red "▶",
    paint .red " ", lineText r.mark line]

/-- the last line of a mark over several lines, and the label -/
def lastRows (r : Report) (width : Nat) (line : Line) : List String :=
  let n := line.text.length + 2
  let margin := blankMargin width "│"
  [arrowRow r width "├" line,
    String.join [margin, paint .red "│", spaces 3, acrossColumns line n fun _ w => spaces w],
    String.join [margin, paint .red "╰", paints 3 .red "─",
      acrossColumns line n fun _ w => paints w .red "─", " ", r.label]]

/-- the mark over several lines; of the lines between its ends one row is left -/
def spanningRows (r : Report) (width : Nat) (first last : Line) : List String :=
  let ended := last.start ≤ r.mark.stop - 1 ∧ r.mark.stop - 1 < last.stop
  let between := last.index - first.index - (if ended then 1 else 0)
  let skipped := String.join [blankMargin width "┆", paint .red "┆", spaces 3]
  [arrowRow r width "╭" first] ++ (if 0 < between then [skipped] else []) ++
    (if ended then lastRows r width last else [])

/-- the rows below the title -/
def body (r : Report) (first last : Line) : List String :=
  let width := (toString (last.index + 1)).length
  let line := toString (first.index + 1)
  let column := toString (r.mark.start - first.start + 1)
  let indent := spaces (width + 2)
  let place := String.join [r.fileName, ":", line, ":", column]
  [String.join [indent, paint .frame "╭", paint .frame "─", paint .frame "[", place,
      paint .frame "]"],
    indent ++ paint .frame "│"] ++
  (if first.index = last.index then inlineRows r width first
    else spanningRows r width first last) ++
  [paint .frame (String.join (List.replicate (width + 2) "─") ++ "╯")]

/-- the title, and the rows for the marked text if its place is in the source -/
def rows (r : Report) : List String :=
  let title := String.join [paint .red "Error:", " ", r.title]
  match lineAt r.source r.mark.start, lineAt r.source r.mark.last with
  | some first, some last => title :: r.body first last
  | _, _ => [title]

def render (r : Report) : String := String.join (r.rows.map fun row => row ++ "\n")

end Report

end Stencil
