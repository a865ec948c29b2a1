import Mathlib
import Stencil.Manifest.Text
import Stencil.Proofs.Toml.Order

/-!
# Reading a manifest undoes writing it

A manifest is written as a table.  If the table reads back as it was printed, so does the manifest.

* `Value.NaNFree`                  values that are equal to themselves;
* `Manifest.Plain`                 no other key of a component has the name of a field;
* `Reference.ofValue?_of_readAs`, `Entry.ofValue?_of_readAs`   references and components;
* `Manifest.ofTable?_of_readAs`    manifests;
* `Manifest.ofText_toText`         the text of a manifest.
-/

namespace Stencil

open Stencil.Toml

/-! ## equality -/

namespace Toml

mutual

/-- whether no number in a value is a NaN -/
def Value.NaNFree : Value → Prop
  | .float x => x ≠ .nan
  | .array xs => NaNFreeItems xs
  | .table es => NaNFreeEntries es
  | _ => True

def NaNFreeItems : List Value → Prop
  | [] => True
  | x :: xs => x.NaNFree ∧ NaNFreeItems xs

def NaNFreeEntries : List (String × Value) → Prop
  | [] => True
  | (_, x) :: es => x.NaNFree ∧ NaNFreeEntries es

end

theorem same_self_of_ne_nan {x : Binary64} (h : x ≠ .nan) : x.same x = true := by
  unfold Binary64.same
  split
  · exact absurd rfl h
  · exact absurd rfl h
  · rfl
  · exact beq_self_eq_true x

mutual

theorem Value.same_self : (v : Value) → v.NaNFree → v.same v = true
  | .string s, _ => beq_self_eq_true s
  | .integer n, _ => beq_self_eq_true n
  | .float _, h => same_self_of_ne_nan h
  | .boolean b, _ => beq_self_eq_true b
  | .datetime _, _ => decide_eq_true rfl
  | .array xs, h => sameItems_self xs h
  | .table es, h => sameEntries_self es h

theorem sameItems_self : (xs : List Value) → NaNFreeItems xs → sameItems xs xs = true
  | [], _ => rfl
  | x :: xs, ⟨hx, hxs⟩ => by rw [sameItems, x.same_self hx, sameItems_self xs hxs, Bool.and_self]

theorem sameEntries_self : (es : List (String × Value)) → NaNFreeEntries es →
    sameEntries es es = true
  | [], _ => rfl
  | (k, x) :: es, ⟨hx, hes⟩ => by
    rw [sameEntries, x.same_self hx, sameEntries_self es hes, beq_self_eq_true, Bool.and_self,
      Bool.and_self]

end

end Toml

/-! ## manifests -/

/-- whether no other key of a component has the name of a field -/
def Entry.Plain (e : Entry) : Prop := ∀ k ∈ e.extra.entries.map Prod.fst, k ∉ Entry.fieldNames

namespace Manifest

def Plain (m : Manifest) : Prop := ∀ e ∈ m.components, e.Plain

/-- whether no number is a NaN -/
def NaNFree (m : Manifest) : Prop := ∀ e ∈ m.components, NaNFreeEntries e.extra.entries

end Manifest

theorem sameComponents_self {l : List Entry} (h : ∀ e ∈ l, NaNFreeEntries e.extra.entries) :
    sameComponents l l = true := by
  induction l with
  | nil => rfl
  | cons e l ih =>
    obtain ⟨he, hl⟩ := List.forall_mem_cons.mp h
    have hself : e.same e = true := by
      rw [Entry.same, sameEntries_self _ he]
      simp
    rw [sameComponents, hself, ih hl, Bool.and_self]

theorem Manifest.same_self {m : Manifest} (h : m.NaNFree) : m.same m = true := by
  rw [Manifest.same, sameComponents_self h]
  simp

/-! ## fields -/

section
variable {ws es : List (String × Value)}

/-- a text in a field that has to be there -/
theorem required?_text (h : EntriesReadAs ws es) (hes : (es.map Prod.fst).Nodup) {k s : String}
    (hs : (k, .string s) ∈ es) : required? ws k Value.text? = some s := by
  obtain ⟨w, hw, hread⟩ := h.lookup_of_mem hes hs
  rw [required?, hw, hread.string]
  rfl

theorem field?_text (h : EntriesReadAs ws es) (hes : (es.map Prod.fst).Nodup) {k s : String}
    (hs : (k, .string s) ∈ es) (default : String) : field? ws k default Value.text? = some s := by
  obtain ⟨w, hw, hread⟩ := h.lookup_of_mem hes hs
  rw [field?, hw, hread.string]
  rfl

theorem mapM_of_readAs {α : Type} {toValue : α → Value} {ofValue? : Value → Option α}
    {l : List α} {ws : List Value} (h : List.Forall₂ Value.ReadAs ws (l.map toValue))
    (hread : ∀ a ∈ l, ∀ w, w.ReadAs (toValue a) → ofValue? w = some a) :
    ws.mapM ofValue? = some l := by
  induction l generalizing ws with
  | nil => cases h; rfl
  | cons a l ih =>
    obtain ⟨ha, hl⟩ := List.forall_mem_cons.mp hread
    cases h with
    | cons hw hws =>
      rw [List.mapM_cons, ha _ hw, ih hws hl]
      rfl

theorem Reference.ofValue?_of_readAs {w : Value} {r : Reference} (h : w.ReadAs r.toValue) :
    Reference.ofValue? w = some r := by
  obtain ⟨ws, rfl, hws⟩ := h.table
  have hnodup : (["tag", "component"] : List String).Nodup := by decide
  have hfields : onlyFields Reference.fieldNames ws = true := hws.onlyFields_eq fun _ hk => hk
  have htag : required? ws "tag" Value.text? = some r.tag :=
    required?_text hws hnodup (List.mem_cons_self ..)
  have hcomponent : required? ws "component" Value.text? = some r.component :=
    required?_text hws hnodup (List.mem_cons_of_mem _ (List.mem_cons_self ..))
  simp [Reference.ofValue?, Value.fields?, hfields, htag, hcomponent]

/-- a list of references, which is left out if it is empty -/
theorem field?_references (h : EntriesReadAs ws es) (hes : (es.map Prod.fst).Nodup) {k : String}
    {l : List Reference} (hl : ∀ e ∈ referencesAt k l, e ∈ es)
    (hk : l = [] → k ∉ es.map Prod.fst) : field? ws k [] references? = some l := by
  cases l with
  | nil => rw [field?, h.lookup_eq_none (hk rfl)]
  | cons r l =>
    obtain ⟨w, hw, hread⟩ := h.lookup_of_mem hes (hl _ (List.mem_cons_self ..))
    obtain ⟨ws, rfl, hws⟩ := hread.array
    rw [field?, hw]
    exact mapM_of_readAs hws fun r _ w => Reference.ofValue?_of_readAs

end

theorem keys_referencesAt_sublist (k : String) (l : List Reference) :
    ((referencesAt k l).map Prod.fst).Sublist [k] := by
  cases l with
  | nil => exact List.nil_sublist _
  | cons r l => exact List.Sublist.refl _

/-! ## components -/

/-- the fields of a component as entries of its table -/
def Entry.fields (e : Entry) : Table :=
  [("name", .string e.name), ("template", .string e.template)] ++ referencesAt "children" e.children

theorem Entry.keys_fields_sublist (e : Entry) :
    (e.fields.map Prod.fst).Sublist Entry.fieldNames := by
  rw [Entry.fields, List.map_append]
  exact (keys_referencesAt_sublist "children" e.children).append_left ["name", "template"]

theorem Entry.nodup_keys {e : Entry} (hplain : e.Plain) :
    ((e.fields ++ e.extra.entries).map Prod.fst).Nodup := by
  have hnames : Entry.fieldNames.Nodup := by decide
  rw [List.map_append, List.nodup_append]
  refine ⟨e.keys_fields_sublist.nodup hnames, e.extra.ordered.nodup, fun k hk k' hk' heq => ?_⟩
  exact hplain k' hk' (heq ▸ e.keys_fields_sublist.subset hk)

theorem Entry.toValue_eq {e : Entry} (hplain : e.Plain) :
    e.toValue = .table (e.fields ++ e.extra.entries) :=
  congrArg Value.table (foldl_put_of_nodup (Entry.nodup_keys hplain))

theorem Entry.filter_extra {e : Entry} (hplain : e.Plain) :
    ((e.fields ++ e.extra.entries).filter fun p => !Entry.fieldNames.contains p.1) =
      e.extra.entries := by
  have hfields : (e.fields.filter fun p => !Entry.fieldNames.contains p.1) = [] := by
    refine List.filter_eq_nil_iff.mpr fun p hp => ?_
    rw [List.contains_iff_mem.mpr (e.keys_fields_sublist.subset (List.mem_map_of_mem hp))]
    simp
  have hextra : (e.extra.entries.filter fun p => !Entry.fieldNames.contains p.1) =
      e.extra.entries := by
    refine List.filter_eq_self.mpr fun p hp => ?_
    have hkey := hplain p.1 (List.mem_map_of_mem hp)
    rw [← List.contains_iff_mem] at hkey
    simp only [hkey, Bool.not_false]
  rw [List.filter_append, hfields, hextra, List.nil_append]

theorem Entry.ofValue?_of_readAs {w : Value} {e : Entry} (hplain : e.Plain)
    (h : w.ReadAs e.toValue) : Entry.ofValue? w = some e := by
  rw [Entry.toValue_eq hplain] at h
  obtain ⟨ws, rfl, hws⟩ := h.table
  have hnodup := Entry.nodup_keys hplain
  have hmem : ∀ p ∈ e.fields, p ∈ e.fields ++ e.extra.entries := fun p => List.mem_append_left _
  have hname : required? ws "name" Value.text? = some e.name :=
    required?_text hws hnodup (hmem _ (List.mem_cons_self ..))
  have htemplate : field? ws "template" "" Value.text? = some e.template :=
    field?_text hws hnodup (hmem _ (List.mem_cons_of_mem _ (List.mem_cons_self ..))) ""
  have hchildren : field? ws "children" [] references? = some e.children := by
    refine field?_references hws hnodup (fun p hp => hmem p (List.mem_append_right _ hp)) ?_
    intro hnil hk
    rw [List.map_append] at hk
    rcases List.mem_append.mp hk with hk | hk
    · have hnames : "children" ∉ ["name", "template"] := by decide
      rw [Entry.fields, hnil] at hk
      exact hnames hk
    · exact hplain _ hk (by decide)
  have hextra := hws.filter fun k => !Entry.fieldNames.contains k
  rw [Entry.filter_extra hplain] at hextra
  simp only [Entry.ofValue?, hname, htemplate, hchildren, hextra.read?_eq, Option.bind_eq_bind,
    Option.bind_some, Option.pure_def]

theorem Entry.plain_of_ofValue? {v : Value} {e : Entry} (h : Entry.ofValue? v = some e) :
    e.Plain := by
  intro k hk
  cases v with
  | table es =>
    obtain ⟨name, _, h⟩ := Option.bind_eq_some_iff.mp h
    obtain ⟨template, _, h⟩ := Option.bind_eq_some_iff.mp h
    obtain ⟨children, _, h⟩ := Option.bind_eq_some_iff.mp h
    obtain ⟨extra, hextra, h⟩ := Option.bind_eq_some_iff.mp h
    cases h
    obtain ⟨p, hp, rfl⟩ := List.mem_map.mp (mem_keys_of_read? hextra hk)
    have hother := (List.mem_filter.mp hp).2
    rw [Bool.not_eq_true', ← Bool.not_eq_true, List.contains_iff_mem] at hother
    exact hother
  | _ => cases h

/-! ## texts -/

namespace Manifest

theorem keys_toTable_sublist (m : Manifest) : (m.toTable.map Prod.fst).Sublist fieldNames := by
  rw [toTable, List.map_append]
  exact (keys_referencesAt_sublist "global" m.globals).append_left ["root", "component"]

theorem ofTable?_of_readAs {m : Manifest} {ws : Table} (hplain : m.Plain)
    (h : EntriesReadAs ws m.toTable) : ofTable? ws = some m := by
  have hnodup : (m.toTable.map Prod.fst).Nodup := m.keys_toTable_sublist.nodup (by decide)
  have hfields : onlyFields fieldNames ws = true :=
    h.onlyFields_eq fun k hk => m.keys_toTable_sublist.subset hk
  have hroot : required? ws "root" Value.text? = some m.root :=
    required?_text h hnodup (List.mem_cons_self ..)
  have hcomponents : (field? ws "component" [] fun v =>
      v.items?.bind fun vs => vs.mapM Entry.ofValue?) = some m.components := by
    obtain ⟨w, hw, hread⟩ :=
      h.lookup_of_mem hnodup (List.mem_cons_of_mem _ (List.mem_cons_self ..))
    obtain ⟨vs, rfl, hvs⟩ := hread.array
    rw [field?, hw]
    exact mapM_of_readAs hvs fun e he w => Entry.ofValue?_of_readAs (hplain e he)
  have hglobals : field? ws "global" [] references? = some m.globals := by
    refine field?_references h hnodup (fun p hp => List.mem_append_right _ hp) ?_
    intro hnil
    have hnames : "global" ∉ ["root", "component"] := by decide
    rw [toTable, hnil]
    exact hnames
  simp [ofTable?, hfields, hroot, hcomponents, hglobals]

theorem exists_of_mapM_eq_some {α γ : Type} {f : α → Option γ} {l : List α} {out : List γ}
    (h : l.mapM f = some out) : ∀ b ∈ out, ∃ a ∈ l, f a = some b := by
  induction l generalizing out with
  | nil => cases h; simp
  | cons a l ih =>
    rw [List.mapM_cons] at h
    obtain ⟨b, hb, h⟩ := Option.bind_eq_some_iff.mp h
    obtain ⟨bs, hbs, h⟩ := Option.bind_eq_some_iff.mp h
    cases h
    refine List.forall_mem_cons.mpr ⟨⟨a, List.mem_cons_self .., hb⟩, fun b' hb' => ?_⟩
    obtain ⟨a', ha', hab⟩ := ih hbs b' hb'
    exact ⟨a', List.mem_cons_of_mem _ ha', hab⟩

theorem plain_of_ofTable? {t : Table} {m : Manifest} (h : ofTable? t = some m) : m.Plain := by
  intro e he
  unfold ofTable? at h
  split at h
  · cases h
  · obtain ⟨root, _, h⟩ := Option.bind_eq_some_iff.mp h
    obtain ⟨components, hcomponents, h⟩ := Option.bind_eq_some_iff.mp h
    obtain ⟨globals, _, h⟩ := Option.bind_eq_some_iff.mp h
    cases h
    unfold field? at hcomponents
    split at hcomponents
    · cases hcomponents
      cases he
    · obtain ⟨vs, _, hvs⟩ := Option.bind_eq_some_iff.mp hcomponents
      obtain ⟨v, _, hv⟩ := exists_of_mapM_eq_some hvs e he
      exact Entry.plain_of_ofValue? hv

theorem plain_of_ofText {text : String} {m : Manifest} (h : ofText text = .ok m) : m.Plain := by
  unfold ofText at h
  split at h
  · rename_i n hread
    cases h
    obtain ⟨t, _, ht⟩ := Option.bind_eq_some_iff.mp hread
    exact plain_of_ofTable? ht
  · cases h

/-- A manifest reads back as it was written, with all its other keys, if none of these has the name
of a field and no number is a NaN.  No other key of a manifest that is read has such a name.  Of the
text it is only used that the table of the manifest reads back as it was printed. -/
theorem ofText_toText :
    (∀ m : Manifest, m.Plain → m.NaNFree → ReadsBack m.toTable →
      ofText m.toText = .ok m ∧ m.same m = true) ∧
    ∀ text m, ofText text = .ok m → m.Plain := by
  refine ⟨fun m hplain hnan hback => ⟨?_, same_self hnan⟩, fun _ _ => plain_of_ofText⟩
  obtain ⟨t, ht, hread⟩ := Option.bind_eq_some_iff.mp hback
  rw [ofText, toText, ht, Option.bind_some,
    ofTable?_of_readAs hplain (entriesReadAs_of_read? hread)]

/-- a component with children and with a table of its own -/
def kept : Manifest :=
  ⟨"a", [⟨"a", "<b/>", [⟨"b", "a"⟩],
    ⟨[("z", .table [("k", .array [.boolean true, .table [("n", .integer (-3))]])])],
      by simp [OrderedEntries, Value.Ordered, OrderedItems]⟩⟩], [⟨"b", "a"⟩]⟩

theorem toText_kept : kept.toText =
    "root = \"a\"\n\n[[component]]\nname = \"a\"\ntemplate = \"<b/>\"\n\n[[component.children]]\n" ++
    "tag = \"b\"\ncomponent = \"a\"\n\n[component.z]\nk = [true, \x7b n = -3 \x7d]\n\n[[global]]\n" ++
    "tag = \"b\"\ncomponent = \"a\"\n" := by
  decide +kernel

set_option maxRecDepth 20000 in
theorem readsBack_kept : ReadsBack kept.toTable := by
  have hparse : parse kept.toText = some kept.toTable := by
    rw [toText_kept]
    cbv
  have hsorted : sortedEntries? kept.toTable = some (orderedEntries kept.toTable) := rfl
  show (parse kept.toText).bind OrderedTable.read? = _
  rw [hparse, Option.bind_some]
  exact Option.pmap_eq_some_iff.mpr ⟨_, (OrderedTable.ofTable _).ordered, hsorted, rfl⟩

theorem ofText_toText_kept :
    kept.Plain ∧ kept.NaNFree ∧ ReadsBack kept.toTable ∧
    ofText kept.toText = .ok kept ∧ kept.same kept = true := by
  have hplain : kept.Plain := by
    intro e he
    rw [List.mem_singleton.mp he]
    intro k hk
    rw [List.mem_singleton.mp hk]
    decide
  have hnan : kept.NaNFree := by
    intro e he
    rw [List.mem_singleton.mp he]
    simp [NaNFreeEntries, Value.NaNFree, NaNFreeItems]
  exact ⟨hplain, hnan, readsBack_kept,
    ofText_toText.1 kept hplain hnan readsBack_kept⟩

end Manifest

end Stencil
