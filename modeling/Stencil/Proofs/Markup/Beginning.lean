import Stencil.Proofs.Markup.Grammar

/-!
# Beginnings of attribute lists

An attribute list that is not complete begins well up to its fault, and no other beginning of it is
longer.

* `Begins`, `Breaks`              beginnings of attribute lists, and what cannot come behind them;
* `attributeList_error_step`      what keeps a list from being complete, one attribute at a time;
* `attributeList_error_begins`    such a list begins well up to its fault;
* `Begins.endOf`                  no fault stands within a beginning.
-/

namespace Stencil.Markup

open Stencil.Text

/-! ## beginnings of attribute lists -/

/-- what has to come next in an attribute list -/
inductive Expected where
  /-- an attribute, or the character that ends the list -/
  | attribute
  /-- the value behind an `=` -/
  | value
  deriving DecidableEq

/-- The beginnings of attribute lists: attributes, and then blanks or else a key with an `=` and
blanks.  Blanks come in front of each attribute, unless it is `glued` to a value in front of it. -/
inductive Begins : Bool → List Char → Expected → Prop
  | blanks {glued : Bool} {gap : List Char} (h : ∀ c ∈ gap, isBlank c = true) :
      Begins glued gap .attribute
  | equals {glued : Bool} {a : AttributeText} {before after : List Char} (ha : a.Sound)
      (hnone : a.value = none) (hne : glued = false → a.lead ≠ [])
      (hbefore : ∀ c ∈ before, isBlank c = true) (hafter : ∀ c ∈ after, isBlank c = true) :
      Begins glued (a.render ++ (before ++ '=' :: after)) .value
  | next {glued : Bool} {a : AttributeText} {more : List Char} {x : Expected} (ha : a.Sound)
      (hne : glued = false → a.lead ≠ []) (hmore : Begins a.value.isSome more x) :
      Begins glued (a.render ++ more) x

/-- a text that cannot come next, and what is wrong with it -/
inductive Breaks : Expected → List Char → Malformation → Prop
  | missingKey {r : List Char} : Breaks .attribute ('=' :: r) .missingKey
  | bareValue {inner r : List Char} (h : ∀ c ∈ inner, notQuote c = true) :
      Breaks .attribute ('"' :: (inner ++ '"' :: r)) .bareValue
  | strayQuote {inner : List Char} (h : ∀ c ∈ inner, notQuote c = true) :
      Breaks .attribute ('"' :: inner) .strayQuote
  | ended : Breaks .value [] .missingValue
  | missingValue {c : Char} {r : List Char} (hblank : isBlank c = false) (hquote : c ≠ '"') :
      Breaks .value (c :: r) .missingValue
  | unclosedValue {inner : List Char} (h : ∀ c ∈ inner, notQuote c = true) :
      Breaks .value ('"' :: inner) .unclosedValue

/-- the fault of a list that goes no further than to `rest` -/
def ListFault.At (x : Expected) (rest : List Char) : ListFault → Prop
  | .ended => x = .attribute ∧ rest = []
  | .malformed kind place => place = rest ∧ Breaks x rest kind

/-- the text from the place of a fault on is an end of `s` -/
def ListFault.EndOf (s : List Char) : ListFault → Prop
  | .ended => True
  | .malformed _ rest => rest <:+ s

theorem ListFault.EndOf.trans {e : ListFault} {s t : List Char} (h : e.EndOf t) (hts : t <:+ s) :
    e.EndOf s := by
  cases e with
  | ended => trivial
  | malformed kind rest => exact List.IsSuffix.trans h hts

/-! ## blanks and tokens -/

/-- what stands behind blanks and is none itself stands behind all blanks of a text -/
theorem suffix_of_blanks {gap skipped s t : List Char} (hgap : ∀ c ∈ gap, isBlank c = true)
    (hskipped : ∀ c ∈ skipped, isBlank c = true) (ht : Stops isBlank t)
    (h : gap ++ s = skipped ++ t) : t <:+ s := by
  have hdrop := (takeWhile_append_of_stops hskipped ht).2
  rw [← h, List.dropWhile_append_of_pos hgap] at hdrop
  rw [← hdrop]
  exact List.dropWhile_suffix _

theorem Breaks.stops_isBlank {x : Expected} {rest : List Char} {kind : Malformation}
    (h : Breaks x rest kind) : Stops isBlank rest := by
  cases h with
  | ended => exact stops_nil _
  | missingValue hblank _ => exact stops_cons.mpr hblank
  | missingKey => exact stops_cons.mpr (by decide)
  | bareValue _ => exact stops_cons.mpr (by decide)
  | strayQuote _ => exact stops_cons.mpr (by decide)
  | unclosedValue _ => exact stops_cons.mpr (by decide)

theorem ListFault.At.stops_isBlank {x : Expected} {rest : List Char} {e : ListFault}
    (h : e.At x rest) : Stops isBlank rest := by
  cases e with
  | ended =>
    rw [h.2]
    exact stops_nil _
  | malformed kind place => exact h.2.stops_isBlank

theorem ListFault.At.endOf {x : Expected} {rest : List Char} {e : ListFault} (h : e.At x rest) :
    e.EndOf rest := by
  cases e with
  | ended => trivial
  | malformed kind place =>
    obtain ⟨rfl, _⟩ := h
    exact List.suffix_rfl

namespace AttrToken

theorem first?_ne_none (c : Char) (r : List Char) : first? (c :: r) ≠ none := by
  intro h
  rw [first?] at h
  split at h
  · cases h
  split at h
  · cases h
  split at h
  · cases h
  split at h
  · split at h <;> cases h
  · cases h

theorem next?_none {s : List Char} (h : lexer.next? s = none) : ∀ c ∈ s, isBlank c = true := by
  rw [← List.dropWhile_eq_nil_iff]
  show trimStart s = []
  cases htrim : trimStart s with
  | nil => rfl
  | cons c r =>
    replace h : next? s = none := h
    unfold next? at h
    rw [htrim] at h
    split at h
    · rename_i hnone
      exact absurd hnone (first?_ne_none c r)
    · cases h

end AttrToken

/-- a key goes on in the text behind it as far as it can -/
theorem AttributeText.Sound.next?_eq {a : AttributeText} (h : a.Sound) (s : List Char) :
    AttrToken.lexer.next? (a.lead ++ (a.key ++ s)) =
      some (⟨a.lead, .key, a.key ++ s.takeWhile isKeyChar⟩, s.dropWhile isKeyChar) := by
  refine AttrToken.next?_iff.mpr ⟨?_, h.lead, .key ⟨?_, fun c hc => ?_, stops_dropWhile _ s⟩⟩
  · rw [List.append_assoc, List.takeWhile_append_dropWhile]
  · exact List.append_ne_nil_of_left_ne_nil h.key_ne _
  · rcases List.mem_append.mp hc with hc | hc
    · exact h.key c hc
    · exact List.mem_takeWhile_imp hc

/-! ## readers that fail -/

theorem AttributeText.Sound.next?_of_stops {a : AttributeText} (h : a.Sound) {s : List Char}
    (hs : Stops isKeyChar s) :
    AttrToken.lexer.next? (a.lead ++ (a.key ++ s)) = some (⟨a.lead, .key, a.key⟩, s) :=
  AttrToken.next?_iff.mpr ⟨rfl, h.lead, .key ⟨h.key_ne, h.key, hs⟩⟩

theorem valueAfter_error_breaks {before s : List Char} {e : ListFault}
    (h : valueAfter before s = .error e) :
    ∃ after rest, s = after ++ rest ∧ (∀ c ∈ after, isBlank c = true) ∧ e.At .value rest := by
  unfold valueAfter at h
  split at h
  · rename_i hnone
    cases h
    exact ⟨s, [], (List.append_nil s).symm, AttrToken.next?_none hnone, rfl, .ended⟩
  · rename_i l r hnext
    obtain ⟨gap, k, text⟩ := l
    obtain ⟨hs, hgap, hshape⟩ := AttrToken.next?_iff.mp hnext
    refine ⟨gap, text ++ r, hs, hgap, ?_⟩
    cases hshape with
    | quoted _ => cases h
    | unclosed hinner =>
      cases h
      rw [List.append_nil]
      exact ⟨rfl, .unclosedValue hinner⟩
    | equals => cases h; exact ⟨rfl, .missingValue (by decide) (by decide)⟩
    | slash => cases h; exact ⟨rfl, .missingValue (by decide) (by decide)⟩
    | close => cases h; exact ⟨rfl, .missingValue (by decide) (by decide)⟩
    | key hkey =>
      cases h
      obtain ⟨c, t, rfl⟩ := List.exists_cons_of_ne_nil hkey.ne
      have hc := isKeyChar_iff.mp (hkey.all c (List.mem_cons_self ..))
      exact ⟨rfl, .missingValue hc.1 hc.2.2.2.2⟩

theorem valueText_equals {before : List Char} (h : ∀ c ∈ before, isBlank c = true)
    (s : List Char) :
    valueText (before ++ '=' :: s) = (valueAfter before s).map fun p => (some p.1, p.2) := by
  have hnext : AttrToken.lexer.next? (before ++ '=' :: s) = some (⟨before, .equals, ['=']⟩, s) :=
    next?_equals_iff.mpr ⟨rfl, rfl, h⟩
  simp only [valueText, hnext]

theorem valueText_error_breaks {s : List Char} {e : ListFault} (h : valueText s = .error e) :
    ∃ before after rest, s = before ++ '=' :: (after ++ rest) ∧
      (∀ c ∈ before, isBlank c = true) ∧ (∀ c ∈ after, isBlank c = true) ∧ e.At .value rest := by
  unfold valueText at h
  split at h
  · rename_i before text r hnext
    obtain ⟨_, rfl, hbefore⟩ := next?_equals_iff.mp hnext
    obtain ⟨after, rest, rfl, hafter, hat⟩ := valueAfter_error_breaks (map_error_iff.mp h)
    exact ⟨before, after, rest, rfl, hbefore, hafter, hat⟩
  · cases h

/-- the list behind a key is not complete: its value is not, or the list behind this value -/
inductive FaultBehindKey (t : List Char) (e : ListFault) : Prop
  | value (h : valueText t = .error e)
  | more {v : Option ValueText} {u : List Char} (hv : valueText t = .ok (v, u))
      (hu : attributeList u = .error e)

theorem attributeList_of_key {s gap key t : List Char}
    (h : AttrToken.lexer.next? s = some (⟨gap, .key, key⟩, t)) :
    attributeList s = (valueText t).bind fun p =>
      (attributeList p.2).map fun x =>
        { x with attributes := ⟨gap, key, p.1⟩ :: x.attributes } := by
  rw [attributeList]
  split
  · rename_i hnone
    cases hnone.symm.trans h
  · rename_i hsome
    cases hsome.symm.trans h
    simp only
    split
    · rename_i hv
      rw [hv]
      rfl
    · rename_i v u hv
      rw [hv]
      show _ = Except.map _ (attributeList u)
      cases attributeList u <;> rfl

theorem attributeList_error_of_key {s gap key t : List Char} {e : ListFault}
    (hnext : AttrToken.lexer.next? s = some (⟨gap, .key, key⟩, t))
    (h : attributeList s = .error e) :
    FaultBehindKey t e := by
  rw [attributeList_of_key hnext] at h
  cases hv : valueText t with
  | error e' =>
    rw [hv] at h
    cases h
    exact .value hv
  | ok p =>
    rw [hv] at h
    exact .more hv (map_error_iff.mp h)

/-- what keeps a list from being complete: nothing comes next, or something that is neither a key
nor the end of the list, or there is a fault in the value of an attribute or behind it -/
theorem attributeList_error_step {s : List Char} {e : ListFault} (h : attributeList s = .error e) :
    (AttrToken.lexer.next? s = none ∧ e = .ended) ∨
    (∃ gap rest kind, s = gap ++ rest ∧ (∀ c ∈ gap, isBlank c = true) ∧
      Breaks .attribute rest kind ∧ e = .malformed kind rest) ∨
    (∃ gap key t, AttrToken.lexer.next? s = some (⟨gap, .key, key⟩, t) ∧ FaultBehindKey t e) := by
  have hread := h
  rw [attributeList] at h
  split at h
  · rename_i hnone
    cases h
    exact .inl ⟨hnone, rfl⟩
  · rename_i l t hnext
    obtain ⟨gap, k, text⟩ := l
    obtain ⟨hs, hgap, hshape⟩ := AttrToken.next?_iff.mp hnext
    cases k with
    | slash => cases h
    | close => cases h
    | equals =>
      cases hshape
      cases h
      exact .inr (.inl ⟨gap, _, _, hs, hgap, .missingKey, rfl⟩)
    | quoted =>
      cases hshape with
      | quoted hinner =>
        cases h
        refine .inr (.inl ⟨gap, _, _, hs, hgap, ?_, rfl⟩)
        rw [List.cons_append, List.append_assoc]
        exact .bareValue hinner
    | unclosed =>
      cases hshape with
      | unclosed hinner =>
        cases h
        refine .inr (.inl ⟨gap, _, _, hs, hgap, ?_, rfl⟩)
        rw [List.append_nil]
        exact .strayQuote hinner
    | key => exact .inr (.inr ⟨gap, text, t, hnext, attributeList_error_of_key hnext hread⟩)

/-! ## how far a list goes -/

/-- behind a name the key of an attribute has blanks in front -/
theorem gap_ne_nil_of_key {s gap key t : List Char} (hs : Stops isKeyChar s)
    (h : AttrToken.lexer.next? s = some (⟨gap, .key, key⟩, t)) : gap ≠ [] := by
  obtain ⟨rfl, _, hshape⟩ := AttrToken.next?_iff.mp h
  rintro rfl
  cases hshape with
  | key hkey =>
    rw [List.nil_append, stops_append hkey.ne] at hs
    obtain ⟨c, r, rfl⟩ := List.exists_cons_of_ne_nil hkey.ne
    rw [stops_cons, hkey.all c (List.mem_cons_self ..)] at hs
    cases hs

/-- an attribute that is read, and the text behind it -/
theorem sound_of_key {s gap key t u : List Char} {v : Option ValueText}
    (h : AttrToken.lexer.next? s = some (⟨gap, .key, key⟩, t)) (hv : valueText t = .ok (v, u)) :
    (AttributeText.mk gap key v).Sound ∧ s = (AttributeText.mk gap key v).render ++ u ∧
      (v.isSome = false → Stops isKeyChar u) := by
  obtain ⟨rfl, hgap, hshape⟩ := AttrToken.next?_iff.mp h
  cases hshape with
  | key hkey =>
    cases v with
    | none =>
      obtain ⟨rfl, _⟩ := valueText_none_iff.mp hv
      refine ⟨⟨hgap, hkey.ne, hkey.all, by simp⟩, ?_, fun _ => hkey.stops⟩
      rw [AttributeText.render_eq, AttributeText.valueChars, Option.elim_none, List.append_nil,
        List.append_assoc]
    | some v =>
      obtain ⟨rfl, hfits⟩ := valueText_some_iff.mp hv
      refine ⟨⟨hgap, hkey.ne, hkey.all, by simpa using hfits⟩, ?_, fun h => by cases h⟩
      rw [AttributeText.render_eq, AttributeText.valueChars, Option.elim_some]
      simp only [List.append_assoc]

/-- a list that is not complete begins well up to its fault -/
theorem attributeList_error_begins {glued : Bool} {s : List Char} {e : ListFault}
    (h : attributeList s = .error e) (hs : glued = false → Stops isKeyChar s) :
    ∃ begun rest x, s = begun ++ rest ∧ Begins glued begun x ∧ e.At x rest := by
  induction hn : s.length using Nat.strongRecOn generalizing s glued with
  | _ n ih =>
    rcases attributeList_error_step h with ⟨hnone, rfl⟩ |
      ⟨gap, rest, kind, rfl, hgap, hbreaks, rfl⟩ | ⟨gap, key, t, hnext, hv | @⟨v, u, hv, hu⟩⟩
    · exact ⟨s, [], .attribute, (List.append_nil s).symm, .blanks (AttrToken.next?_none hnone),
        rfl, rfl⟩
    · exact ⟨gap, rest, .attribute, rfl, .blanks hgap, rfl, hbreaks⟩
    · obtain ⟨before, after, rest, rfl, hbefore, hafter, hat⟩ := valueText_error_breaks hv
      obtain ⟨hsplit, hgap, hshape⟩ := AttrToken.next?_iff.mp hnext
      cases hshape with
      | key hkey =>
        refine ⟨_, rest, .value, ?_, .equals (a := ⟨gap, key, none⟩)
          ⟨hgap, hkey.ne, hkey.all, by simp⟩ rfl (fun hg => gap_ne_nil_of_key (hs hg) hnext)
          hbefore hafter, hat⟩
        rw [hsplit, AttributeText.render_eq, AttributeText.valueChars, Option.elim_none]
        simp only [List.append_assoc, List.append_nil, List.cons_append]
    · obtain ⟨ha, hsplit, hstops⟩ := sound_of_key hnext hv
      have hlt := AttrToken.lexer.length_rest_lt hnext
      have hle := valueText_length hv
      obtain ⟨more, rest, x, rfl, hmore, hat⟩ := ih u.length (by omega) hu hstops rfl
      refine ⟨_, rest, x, ?_, .next ha (fun hg => gap_ne_nil_of_key (hs hg) hnext) hmore, hat⟩
      rw [hsplit, List.append_assoc]

/-! ## no fault within a beginning -/

theorem valueText_error {s : List Char} {e : ListFault} (h : valueText s = .error e) :
    e.EndOf s := by
  obtain ⟨before, after, rest, rfl, _, _, hat⟩ := valueText_error_breaks h
  refine hat.endOf.trans ⟨before ++ '=' :: after, ?_⟩
  rw [List.append_assoc, List.cons_append]

theorem valueText_rest_suffix {s r : List Char} {v : Option ValueText}
    (h : valueText s = .ok (v, r)) : r <:+ s := by
  cases v with
  | none =>
    obtain ⟨rfl, _⟩ := valueText_none_iff.mp h
    exact List.suffix_rfl
  | some v => exact ⟨v.render, (valueText_some_iff.mp h).1.symm⟩

theorem attributeList_error {s : List Char} {e : ListFault} (h : attributeList s = .error e) :
    e.EndOf s := by
  induction hn : s.length using Nat.strongRecOn generalizing s with
  | _ n ih =>
    rcases attributeList_error_step h with ⟨_, rfl⟩ | ⟨gap, rest, kind, rfl, _, _, rfl⟩ |
      ⟨gap, key, t, hnext, hfault⟩
    · trivial
    · exact List.suffix_append gap rest
    · obtain ⟨hsplit, _, _⟩ := AttrToken.next?_iff.mp hnext
      have ht : t <:+ s := ⟨gap ++ key, by rw [hsplit, List.append_assoc]⟩
      cases hfault with
      | value hv => exact (valueText_error hv).trans ht
      | more hv hu =>
        have hlt := AttrToken.lexer.length_rest_lt hnext
        have hle := valueText_length hv
        exact (ih _ (by omega) hu rfl).trans ((valueText_rest_suffix hv).trans ht)

theorem FaultBehindKey.endOf {t : List Char} {e : ListFault} (h : FaultBehindKey t e) :
    e.EndOf t := by
  cases h with
  | value h => exact valueText_error h
  | more hv hu => exact (attributeList_error hu).trans (valueText_rest_suffix hv)

theorem attributeList_endOf_of_blanks {gap r : List Char} {e : ListFault}
    (hgap : ∀ c ∈ gap, isBlank c = true) (h : attributeList (gap ++ r) = .error e) : e.EndOf r := by
  rcases attributeList_error_step h with ⟨_, rfl⟩ |
    ⟨skipped, rest, kind, hsplit, hskipped, hbreaks, rfl⟩ | ⟨skipped, key, t, hnext, hfault⟩
  · trivial
  · exact suffix_of_blanks hgap hskipped hbreaks.stops_isBlank hsplit
  · obtain ⟨hsplit, hskipped, hshape⟩ := AttrToken.next?_iff.mp hnext
    have ht : t <:+ r := (List.suffix_append key t).trans
      (suffix_of_blanks hgap hskipped (hshape.stops_blank t) hsplit)
    exact hfault.endOf.trans ht

/-- behind a key and blanks there may be an `=`, but it stands behind the blanks -/
theorem FaultBehindKey.endOf_of_blanks {gap r : List Char} {e : ListFault}
    (hgap : ∀ c ∈ gap, isBlank c = true) (h : FaultBehindKey (gap ++ r) e) : e.EndOf r := by
  cases h with
  | value h =>
    obtain ⟨before, after, rest, hsplit, hbefore, _, hat⟩ := valueText_error_breaks h
    have hequals := suffix_of_blanks hgap hbefore (stops_cons.mpr (by decide)) hsplit
    have hrest : rest <:+ '=' :: (after ++ rest) := List.suffix_append ('=' :: after) rest
    exact hat.endOf.trans (hrest.trans hequals)
  | @more v u hv hu =>
    cases v with
    | none =>
      obtain ⟨rfl, _⟩ := valueText_none_iff.mp hv
      exact attributeList_endOf_of_blanks hgap hu
    | some v =>
      obtain ⟨hsplit, hfits⟩ := valueText_some_iff.mp hv
      rw [ValueText.render, List.append_assoc] at hsplit
      have hequals := suffix_of_blanks hgap hfits.before (stops_cons.mpr (by decide)) hsplit
      have hrest : u <:+ '=' :: (v.after ++ v.quoted) ++ u := List.suffix_append _ u
      exact (attributeList_error hu).trans (hrest.trans hequals)

theorem FaultBehindKey.endOf_of_equals {before after r : List Char} {e : ListFault}
    (hbefore : ∀ c ∈ before, isBlank c = true) (hafter : ∀ c ∈ after, isBlank c = true)
    (h : FaultBehindKey (before ++ '=' :: (after ++ r)) e) : e.EndOf r := by
  cases h with
  | value h =>
    rw [valueText_equals hbefore, map_error_iff] at h
    obtain ⟨skipped, rest, hsplit, hskipped, hat⟩ := valueAfter_error_breaks h
    exact hat.endOf.trans (suffix_of_blanks hafter hskipped hat.stops_isBlank hsplit)
  | @more v u hv hu =>
    rw [valueText_equals hbefore] at hv
    obtain ⟨⟨w, rest⟩, hw, heq⟩ := map_ok_iff.mp hv
    obtain rfl : rest = u := congrArg Prod.snd heq
    obtain ⟨_, hsplit, hskipped, inner, _, hquoted⟩ := valueAfter_ok_iff.mp hw
    have hstops : Stops isBlank (w.quoted ++ rest) := by
      rw [hquoted]
      exact stops_cons.mpr (by decide)
    have hend := suffix_of_blanks hafter hskipped hstops hsplit
    exact (attributeList_error hu).trans ((List.suffix_append _ rest).trans hend)

/-- a beginning that is not glued has blanks only, or blanks and an attribute -/
theorem Begins.front {q : List Char} {x : Expected} (h : Begins false q x) :
    (∀ c ∈ q, isBlank c = true) ∨
      ∃ (a : AttributeText) (s : List Char), q = a.lead ++ (a.key ++ s) ∧ a.Sound ∧
        a.lead ≠ [] := by
  generalize hg : false = glued at h
  cases h with
  | blanks h => exact .inl h
  | @equals _ a before after ha hnone hne hbefore hafter =>
    refine .inr ⟨a, a.valueChars ++ (before ++ '=' :: after), ?_, ha, hne hg.symm⟩
    rw [AttributeText.render_eq]
    simp only [List.append_assoc]
  | @next _ a more _ ha hne hmore =>
    refine .inr ⟨a, a.valueChars ++ more, ?_, ha, hne hg.symm⟩
    rw [AttributeText.render_eq]
    simp only [List.append_assoc]

theorem AttributeText.Sound.valueText_eq {a : AttributeText} (h : a.Sound) (s : List Char) :
    valueText (a.lead ++ (a.key ++ s)) = .ok (none, a.lead ++ (a.key ++ s)) :=
  valueText_none_iff.mpr ⟨rfl, h.stops_equals s⟩

/-- behind a key and blanks; without the blanks the key may go on -/
theorem attributeList_endOf_of_key {a : AttributeText} {gap r : List Char} {e : ListFault}
    (ha : a.Sound) (hgap : ∀ c ∈ gap, isBlank c = true)
    (h : attributeList (a.lead ++ (a.key ++ (gap ++ r))) = .error e) : e.EndOf r := by
  have hfault := attributeList_error_of_key (ha.next?_eq (gap ++ r)) h
  cases gap with
  | nil => exact hfault.endOf.trans (List.dropWhile_suffix _)
  | cons c gap =>
    have hc := not_isKeyChar_of_isBlank (hgap c (List.mem_cons_self ..))
    rw [List.cons_append, List.dropWhile_cons_of_neg (by simp [hc])] at hfault
    exact hfault.endOf_of_blanks hgap

/-- the fault of a list that begins well is behind this beginning -/
theorem Begins.endOf {glued : Bool} {q r : List Char} {x : Expected} {e : ListFault}
    (h : Begins glued q x) (he : attributeList (q ++ r) = .error e) : e.EndOf r := by
  induction h with
  | blanks h => exact attributeList_endOf_of_blanks h he
  | @equals _ a before after ha hnone _ hbefore hafter =>
    have hstops : Stops isKeyChar (before ++ '=' :: (after ++ r)) :=
      stops_gap_append not_isKeyChar_of_isBlank hbefore (stops_cons.mpr (by decide))
    have hsplit : a.render ++ (before ++ '=' :: after) ++ r =
        a.lead ++ (a.key ++ (before ++ '=' :: (after ++ r))) := by
      rw [AttributeText.render_eq, AttributeText.valueChars, hnone]
      simp
    rw [hsplit] at he
    exact (attributeList_error_of_key (ha.next?_of_stops hstops) he).endOf_of_equals hbefore hafter
  | @next _ a more _ ha _ hmore ih =>
    have hsplit : a.render ++ more ++ r = a.lead ++ (a.key ++ (a.valueChars ++ (more ++ r))) := by
      rw [AttributeText.render_eq]
      simp
    rw [hsplit] at he
    cases hvalue : a.value with
    | some v =>
      rw [AttributeText.valueChars, hvalue, Option.elim_some] at he
      have hfits := ha.value v hvalue
      have hnext := ha.next?_of_stops (hfits.stops_isKeyChar (more ++ r))
      rw [attributeList_of_key hnext, valueText_some_iff.mpr ⟨rfl, hfits⟩] at he
      exact ih (map_error_iff.mp he)
    | none =>
      rw [AttributeText.valueChars, hvalue, Option.elim_none, List.nil_append] at he
      rw [hvalue] at hmore
      -- what goes on behind a bare key has blanks in front, if it is more than blanks
      rcases hmore.front with hblank | ⟨b, s, rfl, hb, hlead⟩
      · exact attributeList_endOf_of_key ha hblank he
      · rw [List.append_assoc, List.append_assoc] at he ih
        have hstops : Stops isKeyChar (b.lead ++ (b.key ++ (s ++ r))) :=
          stops_lead_append not_isKeyChar_of_isBlank hb.lead hlead _
        rw [attributeList_of_key (ha.next?_of_stops hstops), hb.valueText_eq] at he
        exact ih (map_error_iff.mp he)

end Stencil.Markup
