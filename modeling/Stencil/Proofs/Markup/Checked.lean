import Stencil.Proofs.Markup.Beginning
import Stencil.Proofs.Text.Slice

/-!
# Scanning with checks

A template can be scanned by byte offsets: names, keys and values are slices of it, and a look at
the text behind a key tells whether an `=` comes next.  `scanFrom` does so, and checks at each place
that it comes to that the slice is there and that the look ahead and the next token agree.  It gives
up where a check fails.

* `Checked`                          what is found, or an error, unless a check has failed;
* `Place`, `Lexer.token?`            the token at a byte offset;
* `readValue`, `readKey`, `readAttributes`, `readTag`, `scanFrom`   the scan with its checks;
* `starts_equals_iff`                a look ahead at any text;
* `readKey_of_ok`, `readKey_of_error`   no check fails at a key and its value.
-/

namespace Stencil.Markup

open Stencil.Text

/-! ## checks -/

/-- a value or an error, or nothing if a check has failed -/
abbrev Checked (α : Type) := ExceptT ScanError Option α

section
variable {α γ : Type}

/-- a result after which no check has failed -/
def Checked.of (x : Except ScanError α) : Checked α := ExceptT.mk (some x)

/-- what has to be there -/
def require (x : Option α) : Checked α := ExceptT.mk (x.map Except.ok)

def check (b : Bool) : Checked Unit := require (if b then some () else none)

def failed : Checked α := require none

theorem Checked.of_ok_bind (a : α) (f : α → Checked γ) : Checked.of (.ok a) >>= f = f a := rfl
theorem require_some (a : α) : require (some a) = Checked.of (.ok a) := rfl
theorem check_true : check true = Checked.of (.ok ()) := rfl

end

/-! ## the scan with its checks -/

/-- a byte offset and the text behind it -/
structure Place where
  offset : Nat
  rest : List Char

/-- the next token at a place, and the place behind it -/
def Lexer.token? {κ : Type} (x : Lexer κ) (p : Place) : Option (Spanned κ × Place) :=
  (x.next? p.rest).map fun n =>
    let start := p.offset + bytes n.1.gap
    let stop := start + bytes n.1.text
    (⟨n.1.kind, start, stop, n.1.text⟩, ⟨stop, n.2⟩)

theorem Lexer.token?_length {κ : Type} {x : Lexer κ} {p q : Place} {t : Spanned κ}
    (h : x.token? p = some (t, q)) : q.rest.length < p.rest.length := by
  obtain ⟨⟨l, r⟩, hnext, heq⟩ := Option.map_eq_some_iff.mp h
  cases heq
  exact x.length_rest_lt hnext

/-- the error for a fault at an offset, with the first line of the text from there on -/
def malformedAt {α : Type} (s : List Char) (offset : Nat) (kind : Malformation) : Checked α := do
  let parts ← require (cut? s offset)
  throw (.malformedAttribute offset kind.reason (String.ofList (firstLine parts.2)))

/-- the value behind an `=` -/
def readValue (s : List Char) (p : Place) : Checked (Spanned AttrToken × Place) :=
  match AttrToken.lexer.token? p with
  | none => malformedAt s (bytes s) .missingValue
  | some (t, q) =>
    if t.kind = .quoted then pure (t, q)
    else do
      let parts ← require (cut? s t.start)
      malformedAt s t.start
        (if parts.2.head? = some '"' then .unclosedValue else .missingValue)

/-- The attribute of a key, from `start` on, and the place behind it.  The look ahead decides if
there is a value, and the next token has to be an `=` or not accordingly. -/
def readKey (s : List Char) (start : Nat) (key : Spanned AttrToken) (p : Place) :
    Checked (SpannedAttribute × Place) := do
  let name ← require (slice? s key.start key.stop)
  if (trimStart p.rest).head? = some '=' then
    let (equals, q) ← require (AttrToken.lexer.token? p)
    check (equals.kind == .equals)
    let (quoted, r) ← readValue s q
    let value ← require (slice? s quoted.start quoted.stop)
    pure (⟨⟨String.ofList name, some (String.ofList value)⟩, start, quoted.stop⟩, r)
  else
    check ((AttrToken.lexer.token? p).all fun n => n.1.kind != .equals)
    pure (⟨⟨String.ofList name, none⟩, start, key.stop⟩, p)

/-- the attributes of the tag `name` that starts at `tagStart`, the first of them from `start` on,
and the place behind the end of their list -/
def readAttributes (s : List Char) (name : String) (tagStart start : Nat) (p : Place) :
    Checked (List SpannedAttribute × Place) :=
  match h : AttrToken.lexer.token? p with
  | none => throw (.unterminatedTag tagStart name)
  | some (t, q) =>
    match t.kind with
    | .slash => pure ([], q)
    | .close => pure ([], q)
    | .equals => malformedAt s t.start .missingKey
    | .quoted => malformedAt s t.start .bareValue
    | .unclosed => malformedAt s t.start .strayQuote
    | .key => do
      let (a, r) ← readKey s start t q
      if _hr : r.rest.length ≤ q.rest.length then
        have := Lexer.token?_length h
        let (more, last) ← readAttributes s name tagStart a.stop r
        pure (a :: more, last)
      else failed
termination_by p.rest.length

/-- What stands behind the name of a tag that starts at `tagStart`: a tag or, where the name is cut
short, none, and the place to go on from.  An attribute list has to begin with a blank. -/
def readTag (s : List Char) (name : String) (tagStart : Nat) (p : Place) :
    Checked (Option ScannedTag × Place) :=
  match p.rest.head? with
  | none => throw (.unterminatedTag tagStart name)
  | some c =>
    if c = '<' then pure (none, p)
    else if c = '/' ∨ c = '>' then pure (some ⟨name, p.offset, []⟩, p)
    else do
      check (isBlank c)
      let (attributes, q) ← readAttributes s name tagStart p.offset p
      pure (some ⟨name, p.offset, attributes⟩, q)

/-- the tags from a place on -/
def scanFrom (s : List Char) (p : Place) : Checked (List ScannedTag) :=
  match h : MarkupToken.lexer.token? p with
  | none => pure []
  | some (t, q) =>
    have := Lexer.token?_length h
    match t.kind with
    | .lessThan => scanFrom s q
    | .tagOpen => do
      let name ← require (slice? s (t.start + 1) t.stop)
      let (tag?, r) ← readTag s (String.ofList name) t.start q
      if _hr : r.rest.length ≤ q.rest.length then
        let more ← scanFrom s r
        pure (tag?.toList ++ more)
      else failed
termination_by p.rest.length

/-! ## no check fails -/

theorem token?_eq {κ : Type} {x : Lexer κ} {rest gap text r : List Char} {k : κ}
    (front : List Char) (h : x.next? rest = some (⟨gap, k, text⟩, r)) :
    x.token? ⟨bytes front, rest⟩ =
      some (⟨k, bytes (front ++ gap), bytes (front ++ (gap ++ text)), text⟩,
        ⟨bytes (front ++ (gap ++ text)), r⟩) := by
  simp [Lexer.token?, h, Nat.add_assoc]

theorem token?_none {κ : Type} {x : Lexer κ} {rest : List Char} {offset : Nat}
    (h : x.next? rest = none) : x.token? ⟨offset, rest⟩ = none := by
  rw [Lexer.token?, h]
  rfl

section
variable {s front rest : List Char}

theorem slice?_between {text : List Char} (h : s = front ++ (text ++ rest)) :
    slice? s (bytes front) (bytes (front ++ text)) = some text :=
  slice?_eq_some_iff.mpr ⟨front, rest, h, rfl, bytes_append front text⟩

theorem malformedAt_eq {α : Type} (h : s = front ++ rest) (kind : Malformation) :
    (malformedAt s (bytes front) kind : Checked α) =
      .of (.error ((Fault.malformed kind rest).toError s)) := by
  have hcut : cut? s (bytes front) = some (front, rest) := cut?_eq_some_iff.mpr ⟨h, rfl⟩
  have hoffset : bytes s - bytes rest = bytes front := by
    rw [h, bytes_append, Nat.add_sub_cancel]
  rw [malformedAt, hcut, Fault.toError, hoffset]
  rfl

/-- a value is read where `valueAfter` finds one -/
theorem readValue_of_ok {before r : List Char} {v : ValueText}
    (h : valueAfter before rest = .ok (v, r)) :
    readValue s ⟨bytes front, rest⟩ = .of (.ok
      (⟨.quoted, bytes (front ++ v.after), bytes (front ++ (v.after ++ v.quoted)), v.quoted⟩,
        ⟨bytes (front ++ (v.after ++ v.quoted)), r⟩)) := by
  obtain ⟨_, hrest, hafter, inner, hinner, hquoted⟩ := valueAfter_ok_iff.mp h
  have hnext : AttrToken.lexer.next? rest = some (⟨v.after, .quoted, v.quoted⟩, r) :=
    AttrToken.next?_iff.mpr ⟨hrest, hafter, hquoted ▸ .quoted hinner⟩
  rw [readValue, token?_eq _ hnext]
  rfl

theorem readValue_of_ne_quoted {gap text r : List Char} {k : AttrToken} (hs : s = front ++ rest)
    (h : AttrToken.lexer.next? rest = some (⟨gap, k, text⟩, r)) (hk : k ≠ .quoted) :
    readValue s ⟨bytes front, rest⟩ = .of (.error ((Fault.malformed
      (if (text ++ r).head? = some '"' then .unclosedValue else .missingValue)
      (text ++ r)).toError s)) := by
  have hplace : s = (front ++ gap) ++ (text ++ r) := by
    rw [hs, (AttrToken.next?_iff.mp h).1, List.append_assoc]
  have hcut : cut? s (bytes (front ++ gap)) = some (front ++ gap, text ++ r) :=
    cut?_eq_some_iff.mpr ⟨hplace, rfl⟩
  rw [readValue, token?_eq _ h]
  simp only [hk, if_false, hcut, require_some, Checked.of_ok_bind]
  exact malformedAt_eq hplace _

/-- where it finds a fault, the error is for that fault -/
theorem readValue_of_error {before : List Char} {e : ListFault} (hs : s = front ++ rest)
    (h : valueAfter before rest = .error e) :
    ∃ kind place, e = .malformed kind place ∧
      readValue s ⟨bytes front, rest⟩ = .of (.error ((Fault.malformed kind place).toError s)) := by
  unfold valueAfter at h
  split at h
  · rename_i hnone
    cases h
    refine ⟨.missingValue, [], rfl, ?_⟩
    rw [readValue, token?_none hnone]
    exact malformedAt_eq (List.append_nil s).symm .missingValue
  · rename_i l r hnext
    obtain ⟨gap, k, text⟩ := l
    have hread := readValue_of_ne_quoted hs hnext
    have hshape := (AttrToken.next?_iff.mp hnext).2.2
    cases hshape with
    | quoted _ => cases h
    | unclosed _ => cases h; exact ⟨_, _, rfl, hread nofun⟩
    | equals => cases h; exact ⟨_, _, rfl, hread nofun⟩
    | slash => cases h; exact ⟨_, _, rfl, hread nofun⟩
    | close => cases h; exact ⟨_, _, rfl, hread nofun⟩
    | key hkey =>
      cases h
      have hhead : (text ++ r).head? ≠ some '"' := by
        intro hquote
        have hstops := hkey.stops_append (q := (· == '"'))
          (fun c hc => beq_eq_false_iff_ne.mpr (isKeyChar_iff.mp hc).2.2.2.2) r
        cases hstops _ hquote
      rw [if_neg hhead] at hread
      exact ⟨_, _, rfl, hread nofun⟩

/-! ## looking ahead -/

/-- the first character behind blanks is an `=` just if the next token is one -/
theorem starts_equals_iff (t : List Char) : (trimStart t).head? = some '=' ↔
    ∃ gap r, AttrToken.lexer.next? t = some (⟨gap, .equals, ['=']⟩, r) := by
  constructor
  · intro h
    by_contra hnone
    have hstops := stops_equals_iff.mpr fun gap r hnext => hnone ⟨gap, r, hnext⟩
    cases hstops '=' h
  · rintro ⟨gap, r, hnext⟩
    obtain ⟨_, rfl, hgap⟩ := next?_equals_iff.mp hnext
    rw [trimStart, (takeWhile_append_of_stops hgap (stops_cons.mpr (by decide))).2]
    rfl

/-- where the look ahead finds no `=`, the next token is none -/
theorem token?_ne_equals {offset : Nat} (h : (trimStart rest).head? ≠ some '=') :
    ((AttrToken.lexer.token? ⟨offset, rest⟩).all fun n => n.1.kind != .equals) = true := by
  rw [Option.all_eq_true]
  intro n hn
  obtain ⟨⟨⟨gap, k, text⟩, r⟩, hnext, rfl⟩ := Option.map_eq_some_iff.mp hn
  refine bne_iff_ne.mpr fun hk => h ((starts_equals_iff rest).mpr ⟨gap, r, ?_⟩)
  obtain rfl : k = .equals := hk
  rwa [(next?_equals_iff.mp hnext).1] at hnext

/-! ## attributes -/

/-- the key `key` of an attribute that stands behind `front` -/
def keyAt (front key : List Char) : Spanned AttrToken :=
  ⟨.key, bytes front, bytes (front ++ key), key⟩

theorem slice?_keyAt {key : List Char} (hs : s = front ++ (key ++ rest)) :
    slice? s (keyAt front key).start (keyAt front key).stop = some key := slice?_between hs

theorem readKey_of_none {key : List Char} (hs : s = front ++ (key ++ rest))
    (h : Stops (· == '=') (trimStart rest)) (start : Nat) :
    readKey s start (keyAt front key) ⟨bytes (front ++ key), rest⟩ =
      .of (.ok (⟨⟨String.ofList key, none⟩, start, bytes (front ++ key)⟩,
        ⟨bytes (front ++ key), rest⟩)) := by
  have hlook : (trimStart rest).head? ≠ some '=' := by
    intro hhead
    cases h _ hhead
  simp only [readKey, slice?_keyAt hs, require_some, Checked.of_ok_bind, if_neg hlook,
    token?_ne_equals hlook, check_true]
  rfl

/-- behind an `=` the value is read and cut out -/
theorem readKey_of_equals {key before behind : List Char}
    (hs : s = front ++ (key ++ (before ++ '=' :: behind)))
    (hbefore : ∀ c ∈ before, isBlank c = true) (start : Nat) :
    readKey s start (keyAt front key) ⟨bytes (front ++ key), before ++ '=' :: behind⟩ = (do
      let n ← readValue s ⟨bytes (front ++ key ++ (before ++ ['='])), behind⟩
      let value ← require (slice? s n.1.start n.1.stop)
      pure (⟨⟨String.ofList key, some (String.ofList value)⟩, start, n.1.stop⟩, n.2)) := by
  have hnext : AttrToken.lexer.next? (before ++ '=' :: behind) =
      some (⟨before, .equals, ['=']⟩, behind) := next?_equals_iff.mpr ⟨rfl, rfl, hbefore⟩
  have hlook : (trimStart (before ++ '=' :: behind)).head? = some '=' :=
    (starts_equals_iff _).mpr ⟨_, _, hnext⟩
  simp only [readKey, slice?_keyAt hs, require_some, Checked.of_ok_bind, if_pos hlook,
    token?_eq _ hnext]
  rfl

/-- an attribute is read as `valueText` finds it behind the key -/
theorem readKey_of_ok {a : AttributeText} {r : List Char} (hs : s = front ++ (a.key ++ rest))
    (h : valueText rest = .ok (a.value, r)) (start : Nat) :
    readKey s start (keyAt front a.key) ⟨bytes (front ++ a.key), rest⟩ =
      .of (.ok (⟨a.attr, start, bytes (front ++ (a.key ++ a.valueChars))⟩,
        ⟨bytes (front ++ (a.key ++ a.valueChars)), r⟩)) := by
  obtain ⟨lead, key, value⟩ := a
  cases value with
  | none =>
    obtain ⟨rfl, hstops⟩ := valueText_none_iff.mp h
    rw [readKey_of_none hs hstops, AttributeText.valueChars, Option.elim_none, List.append_nil]
    rfl
  | some v =>
    obtain ⟨hrest, hfits⟩ := valueText_some_iff.mp h
    obtain ⟨inner, hinner, hquoted⟩ := hfits.quoted
    have hequals : rest = v.before ++ '=' :: (v.after ++ (v.quoted ++ r)) := by
      simp [hrest, ValueText.render]
    have hafter : valueAfter v.before (v.after ++ (v.quoted ++ r)) = .ok (v, r) :=
      valueAfter_ok_iff.mpr ⟨rfl, rfl, hfits.after, inner, hinner, hquoted⟩
    subst hequals
    have hstop : front ++ (key ++ v.render) =
        front ++ key ++ (v.before ++ ['=']) ++ v.after ++ v.quoted := by simp [ValueText.render]
    have hsplit : s = (front ++ key ++ (v.before ++ ['=']) ++ v.after) ++ (v.quoted ++ r) := by
      simp [hs]
    have hvalue := slice?_between hsplit
    rw [readKey_of_equals hs hfits.before, readValue_of_ok hafter]
    simp only [AttributeText.valueChars, Option.elim_some, hstop, ← List.append_assoc,
      Checked.of_ok_bind]
    simp only [List.append_assoc] at hvalue ⊢
    rw [hvalue]
    rfl

theorem readKey_of_error {key : List Char} {e : ListFault} (hs : s = front ++ (key ++ rest))
    (h : valueText rest = .error e) (start : Nat) :
    ∃ kind place, e = .malformed kind place ∧
      readKey s start (keyAt front key) ⟨bytes (front ++ key), rest⟩ =
        .of (.error ((Fault.malformed kind place).toError s)) := by
  unfold valueText at h
  split at h
  · rename_i before text r hnext
    obtain ⟨_, rfl, hbefore⟩ := next?_equals_iff.mp hnext
    have hplace : s = (front ++ key ++ (before ++ ['='])) ++ r := by simp [hs]
    obtain ⟨kind, place, rfl, hread⟩ := readValue_of_error hplace (map_error_iff.mp h)
    refine ⟨kind, place, rfl, ?_⟩
    rw [readKey_of_equals hs hbefore, hread]
    rfl
  · cases h

end

end Stencil.Markup
