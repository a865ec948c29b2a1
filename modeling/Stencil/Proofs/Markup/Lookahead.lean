import Stencil.Proofs.Markup.Checked
import Stencil.Proofs.Markup.Split

/-!
# No check of a scan fails

The scan with its checks reads the attribute lists and tags that `scan` finds, and no check fails on
the way.

* `readAttributes_eq`   attribute lists, which are read like `attributeList`;
* `tagsAt`              the tags of a text behind another one;
* `readTag_cases`       one tag, or the fault of its list;
* `scan_checked`        the scan of every template.
-/

namespace Stencil.Markup

open Stencil.Text

section
variable {s front rest : List Char}

/-! ## attribute lists -/

/-- the error for a list of the tag `name` that is not complete -/
def ListFault.toError (s : List Char) (name : String) (tagStart : Nat) : ListFault → ScanError
  | .ended => .unterminatedTag tagStart name
  | .malformed kind rest => (Fault.malformed kind rest).toError s

/-- a list behind `front` as the attributes that are reported, and the place behind it -/
def AttributeList.reported (front : List Char) (x : AttributeList) :
    List SpannedAttribute × Place :=
  (spannedFrom (bytes front) x.attributes,
    ⟨bytes (front ++ (renderAll x.attributes ++ (x.trail ++ [x.closer.char]))), x.rest⟩)

theorem attributeList_of_none (h : AttrToken.lexer.next? rest = none) :
    attributeList rest = .error .ended := by
  rw [attributeList]
  split
  · rfl
  · rename_i hsome
    cases hsome.symm.trans h

theorem attributeList_of_closer {gap r : List Char} {k : Closer}
    (h : AttrToken.lexer.next? rest = some (⟨gap, k.token, [k.char]⟩, r)) :
    attributeList rest = .ok ⟨[], gap, k, r⟩ :=
  attributeList_ok_iff_step.mpr (.inl ⟨gap, k, r, rfl, h⟩)

/-- what is wrong with a token that starts no attribute and ends no list -/
def AttrToken.fault? : AttrToken → Option Malformation
  | .equals => some .missingKey
  | .quoted => some .bareValue
  | .unclosed => some .strayQuote
  | _ => none

theorem attributeList_of_fault {gap text r : List Char} {k : AttrToken} {kind : Malformation}
    (h : AttrToken.lexer.next? rest = some (⟨gap, k, text⟩, r)) (hk : k.fault? = some kind) :
    attributeList rest = .error (.malformed kind (text ++ r)) := by
  rw [attributeList]
  split
  · rename_i hnone
    cases hnone.symm.trans h
  · rename_i hsome
    cases hsome.symm.trans h
    cases k <;> cases hk <;> rfl

theorem readAttributes_of_fault {p q : Place} {t : Spanned AttrToken} {kind : Malformation}
    (h : AttrToken.lexer.token? p = some (t, q)) (hk : t.kind.fault? = some kind) (name : String)
    (tagStart start : Nat) :
    readAttributes s name tagStart start p = malformedAt s t.start kind := by
  obtain ⟨k, tokenStart, stop, text⟩ := t
  rw [readAttributes]
  split
  · rename_i hnone
    cases hnone.symm.trans h
  · rename_i hsome
    cases hsome.symm.trans h
    cases k <;> cases hk <;> rfl

theorem readAttributes_of_closer {p q : Place} {t : Spanned AttrToken} {k : Closer}
    (h : AttrToken.lexer.token? p = some (t, q)) (hk : t.kind = k.token) (name : String)
    (tagStart start : Nat) :
    readAttributes s name tagStart start p = .of (.ok ([], q)) := by
  obtain ⟨kind, tokenStart, stop, text⟩ := t
  obtain rfl : kind = k.token := hk
  rw [readAttributes]
  split
  · rename_i hnone
    cases hnone.symm.trans h
  · rename_i hsome
    cases hsome.symm.trans h
    cases k <;> rfl

/-- behind a key the attribute is read, and then the others -/
theorem readAttributes_of_key {p q : Place} {t : Spanned AttrToken}
    (h : AttrToken.lexer.token? p = some (t, q)) (hk : t.kind = .key) (name : String)
    (tagStart start : Nat) :
    readAttributes s name tagStart start p = (do
      let n ← readKey s start t q
      if n.2.rest.length ≤ q.rest.length then do
        let more ← readAttributes s name tagStart n.1.stop n.2
        pure (n.1 :: more.1, more.2)
      else failed) := by
  obtain ⟨kind, tokenStart, stop, text⟩ := t
  obtain rfl : kind = .key := hk
  rw [readAttributes]
  split
  · rename_i hnone
    cases hnone.symm.trans h
  · rename_i hsome
    cases hsome.symm.trans h
    rfl

theorem AttributeList.reported_cons (a : AttributeText) (x : AttributeList) :
    { x with attributes := a :: x.attributes }.reported front =
      (⟨a.attr, bytes front, bytes (front ++ a.render)⟩ :: (x.reported (front ++ a.render)).1,
        (x.reported (front ++ a.render)).2) := by
  simp only [AttributeList.reported, renderAll_cons, List.append_assoc, bytes_append front a.render]
  rfl

theorem token?_key {gap key r : List Char} (front : List Char)
    (h : AttrToken.lexer.next? rest = some (⟨gap, .key, key⟩, r)) :
    AttrToken.lexer.token? ⟨bytes front, rest⟩ =
      some (keyAt (front ++ gap) key, ⟨bytes (front ++ gap ++ key), r⟩) := by
  rw [token?_eq front h, ← List.append_assoc]
  rfl

/-- an attribute is read, and then the others behind it -/
theorem readAttributes_of_attribute {a : AttributeText} {r u : List Char} (hs : s = front ++ rest)
    (h : AttrToken.lexer.next? rest = some (⟨a.lead, .key, a.key⟩, r))
    (hv : valueText r = .ok (a.value, u)) (name : String) (tagStart : Nat) :
    readAttributes s name tagStart (bytes front) ⟨bytes front, rest⟩ = (do
      let more ← readAttributes s name tagStart (bytes (front ++ a.render))
        ⟨bytes (front ++ a.render), u⟩
      pure (⟨a.attr, bytes front, bytes (front ++ a.render)⟩ :: more.1, more.2)) := by
  have hplace : s = (front ++ a.lead) ++ (a.key ++ r) := by
    rw [hs, (AttrToken.next?_iff.mp h).1, List.append_assoc]
  have hread := readKey_of_ok hplace hv (bytes front)
  have hbehind : front ++ a.lead ++ (a.key ++ a.valueChars) = front ++ a.render :=
    List.append_assoc ..
  rw [hbehind] at hread
  rw [readAttributes_of_key (token?_key front h) rfl, hread, Checked.of_ok_bind,
    if_pos (valueText_length hv)]

/-- the attributes that are read are those of the list, without a failed check -/
theorem readAttributes_eq (name : String) (tagStart : Nat) (hs : s = front ++ rest) :
    readAttributes s name tagStart (bytes front) ⟨bytes front, rest⟩ =
      .of (((attributeList rest).map (AttributeList.reported front)).mapError
        (ListFault.toError s name tagStart)) := by
  induction hn : rest.length using Nat.strongRecOn generalizing front rest with
  | _ n ih =>
    cases hnext : AttrToken.lexer.next? rest with
    | none =>
      rw [attributeList_of_none hnext, readAttributes]
      split
      · rfl
      · rename_i hsome
        rw [token?_none hnext] at hsome
        cases hsome
    | some p =>
      obtain ⟨⟨gap, k, text⟩, r⟩ := p
      have htoken := token?_eq front hnext
      obtain ⟨hrest, _, hshape⟩ := AttrToken.next?_iff.mp hnext
      have hplace : s = (front ++ gap) ++ (text ++ r) := by rw [hs, hrest, List.append_assoc]
      cases hfault : k.fault? with
      | some kind =>
        rw [attributeList_of_fault hnext hfault, readAttributes_of_fault htoken hfault]
        exact malformedAt_eq hplace kind
      | none =>
        cases hshape with
        | equals => cases hfault
        | quoted _ => cases hfault
        | unclosed _ => cases hfault
        | slash =>
          rw [attributeList_of_closer (k := .slash) hnext,
            readAttributes_of_closer (k := .slash) htoken rfl]
          rfl
        | close =>
          rw [attributeList_of_closer (k := .angle) hnext,
            readAttributes_of_closer (k := .angle) htoken rfl]
          rfl
        | key hkey =>
          rw [attributeList_of_key hnext]
          cases hv : valueText r with
          | error e =>
            obtain ⟨kind, place, rfl, hread⟩ := readKey_of_error hplace hv (bytes front)
            rw [readAttributes_of_key (token?_key front hnext) rfl, hread]
            rfl
          | ok p =>
            obtain ⟨v, u⟩ := p
            obtain ⟨_, hsplit, _⟩ := sound_of_key hnext hv
            have hle : u.length ≤ r.length := valueText_length hv
            have hlt := AttrToken.lexer.length_rest_lt hnext
            have hrest : s = (front ++ (AttributeText.mk gap text v).render) ++ u := by
              rw [hs, hsplit, List.append_assoc]
            have ih := ih u.length (by omega) hrest rfl
            rw [readAttributes_of_attribute (a := ⟨gap, text, v⟩) hs hnext hv, ih]
            show _ = Checked.of (((attributeList u).map _).map _ |>.mapError _)
            cases attributeList u with
            | error e => rfl
            | ok x =>
              show _ = Checked.of (.ok (AttributeList.reported front _))
              rw [AttributeList.reported_cons]
              rfl

/-! ## tags -/

theorem tagsFrom_textPiece (offset : Nat) (gap : List Char) (ps : List Piece) :
    tagsFrom offset (textPiece gap ++ ps) = tagsFrom (offset + bytes gap) ps := by
  cases gap with
  | nil => rfl
  | cons c gap => rfl

/-- text without a `<` moves the tags behind it and changes nothing else -/
theorem tags_skip {gap : List Char} (hgap : ∀ c ∈ gap, notLessThan c = true) (offset : Nat) :
    (pieces (gap ++ rest)).map (tagsFrom offset) =
      (pieces rest).map (tagsFrom (offset + bytes gap)) := by
  cases hnext : MarkupToken.lexer.next? rest with
  | none =>
    have hall : ∀ c ∈ gap ++ rest, notLessThan c = true := by
      intro c hc
      exact (List.mem_append.mp hc).elim (hgap c) (MarkupToken.next?_none_iff.mp hnext c)
    rw [pieces_of_none hnext, pieces_of_none (MarkupToken.next?_none_iff.mpr hall)]
    show Except.ok (tagsFrom _ (textPiece _)) = Except.ok (tagsFrom _ (textPiece _))
    rw [← List.append_nil (textPiece (gap ++ rest)), ← List.append_nil (textPiece rest),
      tagsFrom_textPiece, tagsFrom_textPiece]
    rfl
  | some p =>
    obtain ⟨⟨skipped, k, text⟩, r⟩ := p
    obtain ⟨hrest, hskipped, hshape⟩ := MarkupToken.next?_iff.mp hnext
    have hrun : MarkupToken.lexer.next? (gap ++ rest) = some (⟨gap ++ skipped, k, text⟩, r) := by
      refine MarkupToken.next?_iff.mpr ⟨by rw [hrest, List.append_assoc], fun c hc => ?_, hshape⟩
      exact (List.mem_append.mp hc).elim (hgap c) (hskipped c)
    have htags : ∀ ps, tagsFrom offset (textPiece (gap ++ skipped) ++ ps) =
        tagsFrom (offset + bytes gap) (textPiece skipped ++ ps) := by
      intro ps
      rw [tagsFrom_textPiece, tagsFrom_textPiece, bytes_append, Nat.add_assoc]
    have hmap : ∀ (x : Except Fault (List Piece)) (f : List Piece → List Piece),
        (x.map fun ps => textPiece (gap ++ skipped) ++ f ps).map (tagsFrom offset) =
          (x.map fun ps => textPiece skipped ++ f ps).map (tagsFrom (offset + bytes gap)) := by
      intro x f
      cases x with
      | error e => rfl
      | ok ps => exact congrArg Except.ok (htags (f ps))
    cases hshape with
    | lessThan _ =>
      rw [pieces_of_lessThan hrun, pieces_of_lessThan hnext]
      exact hmap _ _
    | tagOpen _ =>
      rw [pieces_of_tagOpen hrun, pieces_of_tagOpen hnext]
      cases opening r with
      | error e => rfl
      | ok o =>
        cases o with
        | broken => exact hmap _ _
        | tag x => exact hmap _ _

theorem scanFrom_of_lessThan {p q : Place} {t : Spanned MarkupToken}
    (h : MarkupToken.lexer.token? p = some (t, q)) (hk : t.kind = .lessThan) :
    scanFrom s p = scanFrom s q := by
  obtain ⟨kind, start, stop, text⟩ := t
  obtain rfl : kind = .lessThan := hk
  rw [scanFrom]
  split
  · rename_i hnone
    cases hnone.symm.trans h
  · rename_i hsome
    cases hsome.symm.trans h
    rfl

/-- behind a name there may be a tag, and then come the others -/
theorem scanFrom_of_tagOpen {gap name r : List Char} (hs : s = front ++ rest)
    (h : MarkupToken.lexer.next? rest = some (⟨gap, .tagOpen, '<' :: name⟩, r)) :
    scanFrom s ⟨bytes front, rest⟩ = (do
      let n ← readTag s (String.ofList name) (bytes (front ++ gap))
        ⟨bytes (front ++ gap ++ '<' :: name), r⟩
      if n.2.rest.length ≤ r.length then do
        let more ← scanFrom s n.2
        pure (n.1.toList ++ more)
      else failed) := by
  have htoken := token?_eq front h
  have hslice : slice? s (bytes (front ++ gap) + 1) (bytes (front ++ gap ++ '<' :: name)) =
      some name := by
    have hsplit : s = (front ++ gap ++ ['<']) ++ (name ++ r) := by
      simp [hs, (MarkupToken.next?_iff.mp h).1]
    have hbetween := slice?_between hsplit
    rwa [bytes_append (front ++ gap), List.append_assoc] at hbetween
  rw [scanFrom]
  split
  · rename_i hnone
    cases hnone.symm.trans htoken
  · rename_i hsome
    cases hsome.symm.trans htoken
    simp only [← List.append_assoc]
    rw [hslice]
    rfl

/-- the tags of a text with the offsets in the template `s`, or the error for its first fault -/
def tagsAt (s front rest : List Char) : Except ScanError (List ScannedTag) :=
  ((pieces rest).map (tagsFrom (bytes front))).mapError (Fault.toError s)

theorem tagsAt_skip {gap : List Char} (hgap : ∀ c ∈ gap, notLessThan c = true) :
    tagsAt s front (gap ++ rest) = tagsAt s (front ++ gap) rest := by
  rw [tagsAt, tagsAt, tags_skip hgap, bytes_append]

theorem tagsAt_piece (s front : List Char) {p : Piece} (hp : p.tag? = none) (hfits : p.Fits rest) :
    tagsAt s front (p.render ++ rest) = tagsAt s (front ++ p.render) rest := by
  have htags : ∀ ps,
      tagsFrom (bytes front) (p :: ps) = tagsFrom (bytes (front ++ p.render)) ps := by
    intro ps
    rw [bytes_append]
    cases p with
    | tag t => cases hp
    | text run => rfl
    | lone => rfl
    | broken name => rfl
  rw [tagsAt, tagsAt, pieces_piece hfits]
  cases pieces rest with
  | error e => rfl
  | ok ps => exact congrArg Except.ok (htags ps)

theorem tagsAt_tag (s front rest : List Char) {t : OpeningTag} (hfits : t.Fits) :
    tagsAt s front (t.render ++ rest) =
      (tagsAt s (front ++ t.render) rest).map (t.scanned (bytes front) :: ·) := by
  have hpiece : pieces (t.render ++ rest) = (pieces rest).map (.tag t :: ·) :=
    pieces_piece (p := .tag t) hfits
  rw [tagsAt, tagsAt, hpiece, bytes_append]
  cases pieces rest with
  | error e => rfl
  | ok ps => rfl

/-- behind a name with a list that is not complete -/
theorem tagsAt_error {name : List Char} {e : ListFault} (hs : s = front ++ '<' :: (name ++ rest))
    (hname : MaximalRun isNameChar name rest) (h : opening rest = .error e) :
    tagsAt s front ('<' :: (name ++ rest)) =
      .error (e.toError s (String.ofList name) (bytes front)) := by
  rw [tagsAt, pieces_name hname, h]
  cases e with
  | malformed kind place => rfl
  | ended =>
    have hoffset : bytes s - bytes ('<' :: (name ++ rest)) = bytes front := by
      rw [hs, bytes_append, Nat.add_sub_cancel]
    show Except.error (Fault.toError s (.unterminated name ('<' :: (name ++ rest)))) = _
    rw [Fault.toError, hoffset]
    rfl

theorem bytes_opened (front name : List Char) :
    bytes (front ++ '<' :: name) = bytes front + 1 + bytes name := by
  have hlt : bytes ('<' :: name) = 1 + bytes name := rfl
  rw [bytes_append, hlt, Nat.add_assoc]

theorem scanned_eq (front : List Char) (t : OpeningTag) : t.scanned (bytes front) =
    ⟨t.tagName, bytes (front ++ '<' :: t.name),
      spannedFrom (bytes (front ++ '<' :: t.name)) t.attributes⟩ := by
  rw [bytes_opened]
  rfl

/-- behind a name that the end of the list follows directly -/
theorem tagsAt_bare {name : List Char} {k : Closer}
    (hname : MaximalRun isNameChar name (k.char :: rest)) :
    tagsAt s front ('<' :: (name ++ k.char :: rest)) =
      (tagsAt s (front ++ '<' :: name) (k.char :: rest)).map
        (⟨String.ofList name, bytes (front ++ '<' :: name), []⟩ :: ·) := by
  have hfits : (OpeningTag.mk name [] [] k).Fits :=
    ⟨⟨hname.ne, hname.all, stops_cons.mpr (stops_cons.mp hname.stops)⟩, trivial, by simp⟩
  have hskip : ∀ c ∈ [k.char], notLessThan c = true := by
    cases k <;> simp [Closer.char, notLessThan]
  have hrender : (OpeningTag.mk name [] [] k).render = '<' :: name ++ [k.char] := rfl
  have htag := tagsAt_tag s front rest hfits
  rw [scanned_eq, hrender, ← List.append_assoc, ← tagsAt_skip hskip, List.append_assoc] at htag
  exact htag

/-- a name and the list behind it are a tag -/
theorem tag_of_attributeList {name : List Char} {x : AttributeList}
    (hname : MaximalRun isNameChar name rest) (h : opening rest = .ok (.tag x)) :
    (OpeningTag.mk name x.attributes x.trail x.closer).Fits ∧
      '<' :: (name ++ rest) =
        (OpeningTag.mk name x.attributes x.trail x.closer).render ++ x.rest ∧
      x.rest.length ≤ rest.length := by
  obtain ⟨hrest, htrail, hfit⟩ := (opening_tag_iff hname.stops).mp h
  refine ⟨⟨⟨hname.ne, hname.all, hfit.stops_isNameChar htrail⟩, hfit, htrail⟩, ?_, ?_⟩
  · rw [hrest, render_tag_append]
  · rw [hrest]
    simp only [List.length_append, List.length_cons]
    omega

/-- Behind a name the list is not complete, and the error says so, or else there may be a tag, and
the tags behind the place to go on from follow. -/
theorem readTag_cases {name : List Char} (hs : s = front ++ '<' :: (name ++ rest))
    (hname : MaximalRun isNameChar name rest) :
    (∃ e, readTag s (String.ofList name) (bytes front) ⟨bytes (front ++ '<' :: name), rest⟩ =
        .of (.error e) ∧ tagsAt s front ('<' :: (name ++ rest)) = .error e) ∨
      ∃ tag? front' rest', s = front' ++ rest' ∧ rest'.length ≤ rest.length ∧
        readTag s (String.ofList name) (bytes front) ⟨bytes (front ++ '<' :: name), rest⟩ =
          .of (.ok (tag?, ⟨bytes front', rest'⟩)) ∧
        tagsAt s front ('<' :: (name ++ rest)) =
          (tagsAt s front' rest').map (Option.toList tag? ++ ·) := by
  have hopened : s = (front ++ '<' :: name) ++ rest := by rw [hs, List.append_assoc]; rfl
  cases rest with
  | nil => exact .inl ⟨_, rfl, tagsAt_error hs hname rfl⟩
  | cons c r =>
    by_cases hlt : c = '<'
    · subst hlt
      refine .inr ⟨none, _, _, hopened, Nat.le_refl _, rfl, ?_⟩
      have hbroken := tagsAt_piece s front (p := .broken name) rfl ⟨hname, rfl⟩
      refine hbroken.trans ?_
      show tagsAt s (front ++ '<' :: name) ('<' :: r) = _
      cases tagsAt s (front ++ '<' :: name) ('<' :: r) <;> rfl
    by_cases hcloser : c = '/' ∨ c = '>'
    · obtain ⟨k, rfl⟩ : ∃ k : Closer, k.char = c := by
        rcases hcloser with rfl | rfl
        · exact ⟨.slash, rfl⟩
        · exact ⟨.angle, rfl⟩
      refine .inr ⟨some _, _, _, hopened, Nat.le_refl _, ?_, tagsAt_bare hname⟩
      simp only [readTag, List.head?_cons, if_neg hlt, if_pos hcloser]
      rfl
    · have hblank : isBlank c = true := by
        by_contra hb
        have hstops := stops_cons.mp hname.stops
        rw [isNameChar_iff.mpr ⟨by simpa using hb, fun h => hcloser (.inl h), hlt,
          fun h => hcloser (.inr h)⟩] at hstops
        cases hstops
      have hopening : opening (c :: r) = (attributeList (c :: r)).map .tag :=
        opening_of_head_ne (by simpa using hlt)
      simp only [readTag, List.head?_cons, if_neg hlt, if_neg hcloser, hblank, check_true,
        Checked.of_ok_bind, readAttributes_eq _ _ hopened]
      cases hx : attributeList (c :: r) with
      | error e =>
        rw [hx] at hopening
        exact .inl ⟨_, rfl, tagsAt_error hs hname hopening⟩
      | ok x =>
        rw [hx] at hopening
        obtain ⟨hfits, hrender, hle⟩ := tag_of_attributeList hname hopening
        have hlist : front ++ '<' :: name ++
            (renderAll x.attributes ++ (x.trail ++ [x.closer.char])) =
              front ++ (OpeningTag.mk name x.attributes x.trail x.closer).render :=
          List.append_assoc ..
        refine .inr ⟨some ((OpeningTag.mk name x.attributes x.trail x.closer).scanned
          (bytes front)), front ++ (OpeningTag.mk name x.attributes x.trail x.closer).render,
          x.rest, ?_, hle, ?_, ?_⟩
        · rw [hs, hrender, ← List.append_assoc]
        · rw [← hlist, scanned_eq]
          rfl
        · rw [hrender, tagsAt_tag _ _ _ hfits]
          rfl

theorem scanFrom_eq (hs : s = front ++ rest) :
    scanFrom s ⟨bytes front, rest⟩ = .of (tagsAt s front rest) := by
  induction hn : rest.length using Nat.strongRecOn generalizing front rest with
  | _ n ih =>
    cases hnext : MarkupToken.lexer.next? rest with
    | none =>
      rw [scanFrom, tagsAt, pieces_of_none hnext]
      split
      · rw [← List.append_nil (textPiece rest)]
        show _ = Checked.of (.ok (tagsFrom _ _))
        rw [tagsFrom_textPiece]
        rfl
      · rename_i hsome
        rw [token?_none hnext] at hsome
        cases hsome
    | some p =>
      obtain ⟨⟨gap, k, text⟩, r⟩ := p
      obtain ⟨rfl, hgap, hshape⟩ := MarkupToken.next?_iff.mp hnext
      have hlt := MarkupToken.lexer.length_rest_lt hnext
      rw [tagsAt_skip hgap]
      cases hshape with
      | lessThan hstops =>
        rw [scanFrom_of_lessThan (token?_eq _ hnext) rfl, ← List.append_assoc,
          ih r.length (by omega) (by simp [hs]) rfl]
        exact congrArg Checked.of (tagsAt_piece _ _ (p := .lone) rfl hstops).symm
      | @tagOpen name _ hname =>
        have hopen : s = (front ++ gap) ++ '<' :: (name ++ r) := by
          rw [hs, List.append_assoc]
          rfl
        rw [scanFrom_of_tagOpen hs hnext]
        rcases readTag_cases hopen hname with ⟨e, hread, htags⟩ |
          ⟨tag?, front', rest', hsplit, hle, hread, htags⟩
        · rw [hread]
          exact congrArg Checked.of htags.symm
        · have hmore := ih rest'.length (by omega) hsplit rfl
          rw [hread, Checked.of_ok_bind, if_pos hle, hmore]
          refine Eq.trans ?_ (congrArg Checked.of htags.symm)
          cases tagsAt s front' rest' <;> rfl

end

end Stencil.Markup

namespace Stencil

open Stencil.Markup Stencil.Text

/-- No check of a scan ever fails, and the scan with its checks finds what `scan` finds.  In any
text an `=` is the first character behind blanks just if the next token is an `=`; and behind a name
comes the end of the text, `/`, `>`, `<` or a blank. -/
theorem scan_checked (template : String) :
    scanFrom template.toList ⟨0, template.toList⟩ = .of (scan template) ∧
    (∀ s : List Char, (trimStart s).head? = some '=' ↔
      ∃ gap r, AttrToken.lexer.next? s = some (⟨gap, .equals, ['=']⟩, r)) ∧
    ∀ (s gap text r : List Char), MarkupToken.lexer.next? s = some (⟨gap, .tagOpen, text⟩, r) →
      ∀ c ∈ r.head?, c = '/' ∨ c = '>' ∨ c = '<' ∨ isBlank c = true := by
  refine ⟨?_, starts_equals_iff, fun s gap text r hnext c hc => ?_⟩
  · have htags : tagsAt template.toList [] template.toList = scan template := by
      rw [tagsAt, scan, parse]
      cases pieces template.toList <;> rfl
    rw [← htags]
    exact scanFrom_eq (List.nil_append template.toList).symm
  · have hshape := (MarkupToken.next?_iff.mp hnext).2.2
    cases hshape with
    | tagOpen hname =>
      by_contra hnone
      have hstops := hname.stops c hc
      simp only [not_or, Bool.not_eq_true] at hnone
      rw [isNameChar_iff.mpr ⟨hnone.2.2.2, hnone.1, hnone.2.2.1, hnone.2.1⟩] at hstops
      cases hstops

end Stencil
