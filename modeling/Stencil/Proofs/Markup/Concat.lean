import Stencil.Proofs.Markup.Beginning
import Stencil.Proofs.Markup.Split

/-!
# Templates one after the other

Behind a template that scans and does not end with `<`, a text is cut into the same pieces as alone.
Only where text meets text are two pieces made one.

* `Piece.before`, `join`   a piece in front of others, and pieces one after the other;
* `pieces_append`          the pieces of a text behind such a template, or its fault;
* `pieces_error`           the place of the fault of a text is a place in it;
* `ScannedTag.shift`, `ScanError.shift`   tags and errors some bytes further on;
* `parse_append`, `scan_append`           both texts as one template.
-/

namespace Stencil.Markup

open Stencil.Text

/-! ## a piece in front of others -/

/-- a piece in front of others; a run of text goes into the piece behind it, if that is text -/
def Piece.before : Piece → List Piece → List Piece
  | .text run, .text more :: ps => .text (run ++ more) :: ps
  | p, ps => p :: ps

/-- pieces one after the other -/
def join (ps qs : List Piece) : List Piece := ps.foldr Piece.before qs

theorem join_nil (qs : List Piece) : join [] qs = qs := rfl
theorem join_cons (p : Piece) (ps qs : List Piece) :
    join (p :: ps) qs = p.before (join ps qs) := rfl

/-- two pieces become one only where both are text -/
theorem Piece.before_cases (p : Piece) (ps : List Piece) : p.before ps = p :: ps ∨
    ∃ run more rest, p = .text run ∧ ps = .text more :: rest ∧
      p.before ps = .text (run ++ more) :: rest := by
  unfold Piece.before
  split
  · exact .inr ⟨_, _, _, rfl, rfl, rfl⟩
  · exact .inl rfl

theorem tagsFrom_before (offset : Nat) (p : Piece) (ps : List Piece) :
    tagsFrom offset (p.before ps) = tagsFrom offset (p :: ps) := by
  rcases p.before_cases ps with h | ⟨run, more, rest, rfl, rfl, h⟩
  · rw [h]
  · rw [h]
    show tagsFrom (offset + bytes (run ++ more)) rest =
      tagsFrom (offset + bytes run + bytes more) rest
    rw [bytes_append, Nat.add_assoc]

theorem tagsFrom_cons (offset : Nat) (p : Piece) (ps : List Piece) :
    tagsFrom offset (p :: ps) = tagsFrom offset [p] ++ tagsFrom (offset + bytes p.render) ps := by
  cases p <;> rfl

theorem tagsFrom_join (offset : Nat) (ps qs : List Piece) :
    tagsFrom offset (join ps qs) =
      tagsFrom offset ps ++ tagsFrom (offset + bytes (render ps)) qs := by
  induction ps generalizing offset with
  | nil => rfl
  | cons p ps ih =>
    rw [join_cons, tagsFrom_before, tagsFrom_cons, ih, tagsFrom_cons offset p ps,
      List.append_assoc, render_cons, bytes_append, Nat.add_assoc]

/-! ## cutting -/

/-- what a piece has to be in front of a text; a run of text may go on there -/
def Piece.Starts (rest : List Char) : Piece → Prop
  | .text run => run ≠ [] ∧ ∀ c ∈ run, notLessThan c = true
  | p => p.Fits rest

theorem map_congr_except {ε α γ : Type} {x : Except ε α} {f g : α → γ}
    (h : ∀ a, x = .ok a → f a = g a) : x.map f = x.map g := by
  cases x with
  | error e => rfl
  | ok a => exact congrArg Except.ok (h a rfl)

/-- a text that starts with `<` does not begin with a piece of text -/
theorem before_of_stops {run s : List Char} {ps : List Piece} (hs : Stops notLessThan s)
    (hps : pieces s = .ok ps) : (Piece.text run).before ps = .text run :: ps := by
  obtain ⟨hwell, rfl⟩ := pieces_ok_iff.mp hps
  rcases (Piece.text run).before_cases ps with h | ⟨_, more, rest, _, rfl, _⟩
  · exact h
  · obtain ⟨hne, hall, _⟩ := hwell.1
    obtain ⟨c, r, rfl⟩ := List.exists_cons_of_ne_nil hne
    have hc := hall c (List.mem_cons_self ..)
    rw [stops_cons.mp hs] at hc
    cases hc

theorem pieces_run {run s : List Char} (hne : run ≠ []) (hall : ∀ c ∈ run, notLessThan c = true) :
    pieces (run ++ s) = (pieces s).map (Piece.text run).before := by
  by_cases hs : Stops notLessThan s
  · rw [pieces_text ⟨hne, hall, hs⟩]
    exact map_congr_except fun ps hps => (before_of_stops hs hps).symm
  · -- the run goes on in `s` up to the first `<`
    have hsplit : s.takeWhile notLessThan ++ s.dropWhile notLessThan = s :=
      List.takeWhile_append_dropWhile
    have hmore : MaximalRun notLessThan (s.takeWhile notLessThan) (s.dropWhile notLessThan) :=
      ⟨fun h => hs (stops_iff_takeWhile.mpr h), fun c hc => List.mem_takeWhile_imp hc,
        stops_dropWhile _ _⟩
    have hlong : MaximalRun notLessThan (run ++ s.takeWhile notLessThan)
        (s.dropWhile notLessThan) := by
      refine ⟨by simp [hne], fun c hc => ?_, hmore.stops⟩
      rcases List.mem_append.mp hc with hc | hc
      · exact hall c hc
      · exact hmore.all c hc
    have htext := pieces_text hmore
    have hboth := pieces_text hlong
    rw [hsplit] at htext
    rw [List.append_assoc, hsplit] at hboth
    rw [hboth, htext]
    cases pieces (s.dropWhile notLessThan) <;> rfl

/-- a piece in front of a text -/
theorem pieces_before {p : Piece} {s : List Char} (h : p.Starts s) :
    pieces (p.render ++ s) = (pieces s).map p.before := by
  cases p with
  | text run => exact pieces_run h.1 h.2
  | lone => exact pieces_piece h
  | broken name => exact pieces_piece h
  | tag t => exact pieces_piece h

/-- A piece of a template fits in front of more text as well.  The last one does unless it has to
know what follows, as a `<` has. -/
theorem WellFormed.starts {p : Piece} {ps : List Piece} (h : WellFormed (p :: ps))
    (hend : (render (p :: ps)).getLast? ≠ some '<') (s : List Char) :
    p.Starts (render ps ++ s) := by
  have hmore : render ps ≠ [] → p.Fits (render ps ++ s) := by
    intro hne
    refine (Piece.fits_congr ?_).mp h.1
    obtain ⟨c, r, hcr⟩ := List.exists_cons_of_ne_nil hne
    rw [hcr]
    rfl
  cases p with
  | text run => exact ⟨h.1.ne, h.1.all⟩
  | lone =>
    refine hmore fun hnil => hend ?_
    rw [render_cons, hnil]
    rfl
  | broken name =>
    refine hmore fun hnil => ?_
    have hhead := h.1.2
    rw [hnil] at hhead
    cases hhead
  | tag t => exact h.1

/-- a text behind a template that does not end with `<` is cut as it is alone -/
theorem pieces_append {ps : List Piece} (h : WellFormed ps)
    (hend : (render ps).getLast? ≠ some '<') (s : List Char) :
    pieces (render ps ++ s) = (pieces s).map (join ps) := by
  induction ps with
  | nil => exact (id_map (pieces s)).symm
  | cons p ps ih =>
    have hend' : (render ps).getLast? ≠ some '<' := by
      intro hlast
      refine hend ?_
      rw [render_cons, List.getLast?_append, hlast]
      rfl
    rw [render_cons, List.append_assoc, pieces_before (h.starts hend s), ih h.2 hend']
    exact Functor.map_map _ _ (pieces s)

/-! ## faults -/

theorem opening_error {s : List Char} {e : ListFault} (h : opening s = .error e) : e.EndOf s := by
  by_cases hhead : s.head? = some '<'
  · rw [opening_broken_iff.mpr hhead] at h
    cases h
  · rw [opening_of_head_ne hhead] at h
    cases hl : attributeList s with
    | ok x => rw [hl] at h; cases h
    | error e' =>
      rw [hl] at h
      cases h
      exact attributeList_error hl

theorem ListFault.EndOf.toFault {e : ListFault} {s : List Char} (h : e.EndOf s)
    (name : List Char) : (e.toFault name s).rest <:+ '<' :: (name ++ s) := by
  cases e with
  | ended => exact List.suffix_rfl
  | malformed kind rest =>
    have hs : s <:+ '<' :: (name ++ s) := List.suffix_append ('<' :: name) s
    exact List.IsSuffix.trans h hs

/-- the place of the fault of a text is a place in it -/
theorem pieces_error {s : List Char} {f : Fault} (h : pieces s = .error f) : f.rest <:+ s := by
  induction hn : s.length using Nat.strongRecOn generalizing s with
  | _ n ih =>
    rcases first_piece_cases s with rfl | ⟨p, r, rfl, hp, hlt⟩ | ⟨name, r, e, rfl, hname, ho⟩
    · rw [pieces_nil] at h
      cases h
    · rw [pieces_piece hp, map_error_iff] at h
      exact (ih r.length (hn ▸ hlt) h rfl).trans (List.suffix_append p.render r)
    · rw [pieces_name hname, ho] at h
      cases h
      exact (opening_error ho).toFault name

/-! ## scans -/

def SpannedAttribute.shift (n : Nat) (a : SpannedAttribute) : SpannedAttribute :=
  { a with start := n + a.start, stop := n + a.stop }

/-- a tag that stands `n` bytes further on -/
def ScannedTag.shift (n : Nat) (t : ScannedTag) : ScannedTag :=
  { t with insertAt := n + t.insertAt, attributes := t.attributes.map (SpannedAttribute.shift n) }

/-- an error at a place `n` bytes further on -/
def ScanError.shift (n : Nat) : ScanError → ScanError
  | .malformedAttribute offset reason context => .malformedAttribute (n + offset) reason context
  | .unterminatedTag offset tag => .unterminatedTag (n + offset) tag

theorem spannedFrom_add (n offset : Nat) (l : List AttributeText) :
    spannedFrom (n + offset) l = (spannedFrom offset l).map (SpannedAttribute.shift n) := by
  induction l generalizing offset with
  | nil => rfl
  | cons a l ih =>
    rw [spannedFrom, spannedFrom, List.map_cons, Nat.add_assoc, ih]
    rfl

theorem scanned_add (n offset : Nat) (t : OpeningTag) :
    t.scanned (n + offset) = (t.scanned offset).shift n := by
  have hplace : n + offset + 1 + bytes t.name = n + (offset + 1 + bytes t.name) := by omega
  show ScannedTag.mk t.tagName (n + offset + 1 + bytes t.name)
    (spannedFrom (n + offset + 1 + bytes t.name) t.attributes) = _
  rw [hplace, spannedFrom_add]
  rfl

theorem tagsFrom_add (n offset : Nat) (ps : List Piece) :
    tagsFrom (n + offset) ps = (tagsFrom offset ps).map (ScannedTag.shift n) := by
  induction ps generalizing offset with
  | nil => rfl
  | cons p ps ih =>
    rw [tagsFrom_cons, tagsFrom_cons offset p ps, List.map_append, Nat.add_assoc, ih]
    cases p with
    | tag t => rw [tagsFrom, tagsFrom, scanned_add]; rfl
    | text run => rfl
    | lone => rfl
    | broken name => rfl

/-- a fault in the second of two texts is found at a place behind the first one -/
theorem Fault.toError_append {f : Fault} {s : List Char} (h : f.rest <:+ s) (front : List Char) :
    f.toError (front ++ s) = (f.toError s).shift (bytes front) := by
  obtain ⟨before, rfl⟩ := h
  have hoffset : bytes (front ++ (before ++ f.rest)) - bytes f.rest =
      bytes front + (bytes (before ++ f.rest) - bytes f.rest) := by
    rw [bytes_append, bytes_append]
    omega
  cases f with
  | malformed kind rest => exact congrArg (ScanError.malformedAttribute · _ _) hoffset
  | unterminated name rest => exact congrArg (ScanError.unterminatedTag · _) hoffset

theorem parse_append {a b : String} {ps : List Piece} (hps : parse a = .ok ps)
    (hend : a.toList.getLast? ≠ some '<') :
    parse (a ++ b) =
      ((parse b).map (join ps)).mapError (ScanError.shift (bytes a.toList)) := by
  obtain ⟨hwell, hrender⟩ := parse_ok_iff.mp hps
  rw [← hrender] at hend
  have hpieces := pieces_append hwell hend b.toList
  rw [hrender] at hpieces
  rw [parse, String.toList_append, hpieces, parse]
  cases hb : pieces b.toList with
  | ok qs => rfl
  | error f => exact congrArg Except.error (Fault.toError_append (pieces_error hb) a.toList)

theorem scan_append {a b : String} {found : List ScannedTag} (ha : scan a = .ok found)
    (hend : a.toList.getLast? ≠ some '<') :
    scan (a ++ b) = ((scan b).map fun more =>
      found ++ more.map (ScannedTag.shift (bytes a.toList))).mapError
        (ScanError.shift (bytes a.toList)) := by
  obtain ⟨ps, hps, rfl⟩ := scan_ok_iff.mp ha
  have htags : ∀ qs, tagsFrom 0 (join ps qs) =
      tagsFrom 0 ps ++ (tagsFrom 0 qs).map (ScannedTag.shift (bytes a.toList)) := by
    intro qs
    rw [tagsFrom_join, hps.2, Nat.add_comm, tagsFrom_add]
  rw [scan, parse_append (parse_ok_iff.mpr hps) hend, scan]
  cases parse b with
  | error e => rfl
  | ok qs => exact congrArg Except.ok (htags qs)

end Stencil.Markup
