import Mathlib.Data.List.Nodup
import Mathlib.Data.List.Perm.Basic
import Stencil.Proofs.Dict
import Stencil.Toml.Document
import Stencil.Toml.OrderedTable
import Stencil.Toml.Printer
import Stencil.Toml.Record

/-!
# Tables as maps

The order of the entries of a table means nothing, so a table is known by what its keys stand for.

* `lookup_sortEntries`, `eq_of_lookup_eq`   sorting keeps what the keys stand for, and in order of
                                            distinct keys only one list of entries has it;
* `document?`, `ReadsBack`          tables as a host reads them, and whether one reads as printed;
* `Value.ReadAs`, `EntriesReadAs`   values and entries of a document that are read as given ones;
* `EntriesReadAs.lookup_of_mem`     the fields of a table that is read;
* `EntriesReadAs.read?_eq`          what a host keeps of it.
-/

namespace Stencil.Toml

/-! ## keys and values of ordered entries -/

theorem keys_orderedEntries (es : List (String × Value)) :
    (orderedEntries es).map Prod.fst = es.map Prod.fst := by
  induction es with
  | nil => rfl
  | cons e es ih => rw [orderedEntries, List.map_cons, List.map_cons, ih]

theorem mem_orderedEntries {es : List (String × Value)} {k : String} {v : Value}
    (h : (k, v) ∈ es) : (k, v.ordered) ∈ orderedEntries es := by
  induction es with
  | nil => cases h
  | cons e es ih =>
    rw [orderedEntries]
    rcases List.mem_cons.mp h with rfl | h
    · exact List.mem_cons_self ..
    · exact List.mem_cons_of_mem _ (ih h)

theorem OrderedEntries.pairwise {es : List (String × Value)} (h : OrderedEntries es) :
    es.Pairwise fun e f => e.1 < f.1 := by
  induction es with
  | nil => exact .nil
  | cons e es ih =>
    obtain ⟨hlt, _, hes⟩ := h
    exact .cons hlt (ih hes)

theorem OrderedEntries.values {es : List (String × Value)} (h : OrderedEntries es) :
    ∀ e ∈ es, e.2.Ordered := by
  induction es with
  | nil => exact fun _ he => absurd he List.not_mem_nil
  | cons e es ih =>
    obtain ⟨_, he, hes⟩ := h
    exact List.forall_mem_cons.mpr ⟨he, ih hes⟩

theorem nodup_of_pairwise_lt {α : Type} {es : List (String × α)}
    (h : es.Pairwise fun e f => e.1 < f.1) : (es.map Prod.fst).Nodup := by
  rw [List.Nodup, List.pairwise_map]
  exact h.imp fun {e f} hlt (heq : e.1 = f.1) => String.lt_irrefl f.1 (heq ▸ hlt)

theorem OrderedEntries.nodup {es : List (String × Value)} (h : OrderedEntries es) :
    (es.map Prod.fst).Nodup := nodup_of_pairwise_lt h.pairwise

/-! ## lookups -/

section
variable {α : Type}

theorem lookup_insertEntry (k : String) (a : α) (es : List (String × α)) (k' : String) :
    (insertEntry k a es).lookup k' = if k' = k then some a else es.lookup k' := by
  induction es with
  | nil => exact lookup_cons_eq k' (k, a) []
  | cons e es ih =>
    rw [insertEntry]
    by_cases hlt : k < e.1
    · rw [if_pos hlt, lookup_cons_eq]
    · rw [if_neg hlt]
      by_cases heq : k = e.1
      · rw [if_pos heq, lookup_cons_eq, lookup_cons_eq, heq]
        split <;> rfl
      · rw [if_neg heq, lookup_cons_eq, lookup_cons_eq, ih]
        by_cases hk : k' = e.1
        · rw [if_pos hk, if_pos hk, if_neg fun h => heq (h.symm.trans hk)]
        · rw [if_neg hk, if_neg hk]

theorem lookup_sortEntries (es : List (String × α)) (k : String) :
    (sortEntries es).lookup k = es.lookup k := by
  induction es with
  | nil => rfl
  | cons e es ih =>
    show (insertEntry e.1 e.2 (sortEntries es)).lookup k = _
    rw [lookup_insertEntry, lookup_cons_eq, ih]

theorem lookup_filter (p : String → Bool) (es : List (String × α)) (k : String) :
    (es.filter fun e => p e.1).lookup k = if p k then es.lookup k else none := by
  induction es with
  | nil => rw [List.filter_nil, List.lookup_nil, ite_self]
  | cons e es ih =>
    rw [lookup_cons_eq, List.filter_cons]
    by_cases hk : k = e.1
    · subst hk
      rw [if_pos rfl]
      by_cases hp : p e.1
      · rw [if_pos hp, if_pos hp, lookup_cons_eq, if_pos rfl]
      · rw [if_neg hp, if_neg hp, ih, if_neg hp]
    · rw [if_neg hk]
      by_cases hp : p e.1
      · rw [if_pos hp, lookup_cons_eq, if_neg hk, ih]
      · rw [if_neg hp, ih]

theorem lookup_eq_some_iff {es : List (String × α)} (h : (es.map Prod.fst).Nodup) {k : String}
    {a : α} : es.lookup k = some a ↔ (k, a) ∈ es := Dict.get?_eq_some_iff (d := ⟨es, h⟩)

/-- there is only one list in order of distinct keys that stand for given values -/
theorem eq_of_lookup_eq {es fs : List (String × α)} (hes : es.Pairwise fun e f => e.1 < f.1)
    (hfs : fs.Pairwise fun e f => e.1 < f.1) (h : ∀ k, es.lookup k = fs.lookup k) : es = fs := by
  have hnodup := nodup_of_pairwise_lt hes
  have hnodup' := nodup_of_pairwise_lt hfs
  have hperm : es.Perm fs := by
    rw [List.perm_ext_iff_of_nodup hnodup.of_map hnodup'.of_map]
    rintro ⟨k, a⟩
    rw [← lookup_eq_some_iff hnodup, h, lookup_eq_some_iff hnodup']
  exact hperm.eq_of_pairwise (fun e f _ _ hef hfe => absurd (String.lt_trans hef hfe)
    (String.lt_irrefl e.1)) hes hfs

end

theorem sortEntries_eq {es fs : List (String × Value)} (hfs : OrderedEntries fs)
    (hes : ∀ e ∈ es, e.2.Ordered) (h : ∀ k, es.lookup k = fs.lookup k) : sortEntries es = fs :=
  eq_of_lookup_eq (orderedEntries_sortEntries hes).pairwise hfs.pairwise fun k =>
    (lookup_sortEntries es k).trans (h k)

mutual

theorem Value.ordered_eq : (v : Value) → v.Ordered → v.ordered = v
  | .string _, _ => rfl
  | .integer _, _ => rfl
  | .float _, _ => rfl
  | .boolean _, _ => rfl
  | .datetime _, _ => rfl
  | .array xs, h => by rw [Value.ordered, orderedItems_eq xs h]
  | .table es, h => by
    rw [Value.ordered, orderedEntries_eq es h, sortEntries_eq h h.values fun _ => rfl]

theorem orderedItems_eq : (xs : List Value) → OrderedItems xs → orderedItems xs = xs
  | [], _ => rfl
  | x :: xs, ⟨hx, hxs⟩ => by rw [orderedItems, x.ordered_eq hx, orderedItems_eq xs hxs]

theorem orderedEntries_eq : (es : List (String × Value)) → OrderedEntries es → orderedEntries es = es
  | [], _ => rfl
  | (k, x) :: es, ⟨_, hx, hes⟩ => by rw [orderedEntries, x.ordered_eq hx, orderedEntries_eq es hes]

end

/-! ## reading -/

/-- the table that a host reads from a document -/
def document? (text : String) : Option OrderedTable := (parse text).bind OrderedTable.read?

/-- whether a table that is printed reads back as the same table -/
def ReadsBack (t : Table) : Prop := document? (print t) = some (.ofTable t)

theorem keys_sortedEntries? {es fs : List (String × Value)} (h : sortedEntries? es = some fs) :
    fs.map Prod.fst = es.map Prod.fst := by
  induction es generalizing fs with
  | nil => cases h; rfl
  | cons e es ih =>
    obtain ⟨y, gs, _, hgs, rfl⟩ := sortedEntries?_cons_eq_some h
    rw [List.map_cons, List.map_cons, ih hgs]

/-- a value that is read comes from the value of the document under the same key -/
theorem exists_of_lookup_sortedEntries? {es fs : List (String × Value)} {k : String} {v : Value}
    (h : sortedEntries? es = some fs) (hv : fs.lookup k = some v) :
    ∃ w, es.lookup k = some w ∧ w.sorted? = some v := by
  induction es generalizing fs with
  | nil => cases h; cases hv
  | cons e es ih =>
    obtain ⟨y, gs, hy, hgs, rfl⟩ := sortedEntries?_cons_eq_some h
    rw [lookup_cons_eq] at hv ⊢
    by_cases hk : k = e.1
    · rw [if_pos hk] at hv ⊢
      exact ⟨e.2, rfl, hy.trans hv⟩
    · rw [if_neg hk] at hv ⊢
      exact ih hgs hv

/-- some of the entries are read as they are among all of them -/
theorem sortedEntries?_filter (p : String → Bool) {es fs : List (String × Value)}
    (h : sortedEntries? es = some fs) :
    sortedEntries? (es.filter fun e => p e.1) = some (fs.filter fun e => p e.1) := by
  induction es generalizing fs with
  | nil => cases h; rfl
  | cons e es ih =>
    obtain ⟨y, gs, hy, hgs, rfl⟩ := sortedEntries?_cons_eq_some h
    rw [List.filter_cons, List.filter_cons]
    by_cases he : p e.1 = true
    · rw [if_pos he, if_pos he, sortedEntries?, hy, ih hgs]
      rfl
    · rw [if_neg he, if_neg he, ih hgs]

/-- what a host keeps has keys of the document only -/
theorem mem_keys_of_read? {es : List (String × Value)} {t : OrderedTable} {k : String}
    (h : OrderedTable.read? es = some t) (hk : k ∈ t.entries.map Prod.fst) :
    k ∈ es.map Prod.fst := by
  obtain ⟨fs, _, hfs, rfl⟩ := Option.pmap_eq_some_iff.mp h
  rw [← keys_sortedEntries? hfs]
  by_contra hnot
  rw [← lookup_eq_none_iff_not_mem, ← lookup_sortEntries, lookup_eq_none_iff_not_mem] at hnot
  exact hnot hk

/-! ## what is read as a given value -/

/-- whether a value of a document is read as `v` -/
def Value.ReadAs (w v : Value) : Prop := w.sorted? = some v.ordered

/-- whether the entries of a table of a document are read as `es`, in whatever order -/
def EntriesReadAs (ws es : List (String × Value)) : Prop :=
  ∃ fs, sortedEntries? ws = some fs ∧ ∀ k, fs.lookup k = (orderedEntries es).lookup k

theorem entriesReadAs_of_sort {ws es fs : List (String × Value)}
    (hws : sortedEntries? ws = some fs) (h : sortEntries fs = orderTable es) :
    EntriesReadAs ws es := by
  refine ⟨fs, hws, fun k => ?_⟩
  rw [← lookup_sortEntries fs, h, orderTable, lookup_sortEntries]

theorem entriesReadAs_of_read? {ws es : List (String × Value)}
    (h : OrderedTable.read? ws = some (.ofTable es)) : EntriesReadAs ws es := by
  obtain ⟨fs, _, hws, hfs⟩ := Option.pmap_eq_some_iff.mp h
  exact entriesReadAs_of_sort hws (congrArg OrderedTable.entries hfs).symm

theorem Value.ReadAs.string {w : Value} {s : String} (h : w.ReadAs (.string s)) :
    w = .string s := by
  replace h : w.sorted? = some (.string s) := h
  cases w with
  | array xs =>
    obtain ⟨ys, _, hys⟩ := Option.map_eq_some_iff.mp h
    cases hys
  | table es =>
    obtain ⟨fs, _, hfs⟩ := Option.bind_eq_some_iff.mp h
    rcases tableValue?_cases hfs with hv | ⟨d, hv⟩ <;> cases hv
  | _ => exact Option.some.inj h

theorem forall₂_readAs {xs ys vs : List Value} (h : sortedItems? xs = some ys)
    (hvs : ys = orderedItems vs) : List.Forall₂ Value.ReadAs xs vs := by
  induction xs generalizing ys vs with
  | nil =>
    cases h
    cases vs with
    | nil => exact .nil
    | cons v vs => cases hvs
  | cons x xs ih =>
    obtain ⟨y, zs, hy, hzs, rfl⟩ := sortedItems?_cons_eq_some h
    cases vs with
    | nil => cases hvs
    | cons v vs =>
      obtain ⟨rfl, hrest⟩ := List.cons.inj hvs
      exact .cons hy (ih hzs hrest)

theorem Value.ReadAs.array {w : Value} {vs : List Value} (h : w.ReadAs (.array vs)) :
    ∃ ws, w = .array ws ∧ List.Forall₂ Value.ReadAs ws vs := by
  replace h : w.sorted? = some (.array (orderedItems vs)) := h
  cases w with
  | array xs =>
    obtain ⟨ys, hys, heq⟩ := Option.map_eq_some_iff.mp h
    exact ⟨xs, rfl, forall₂_readAs hys (Value.array.inj heq)⟩
  | table es =>
    obtain ⟨fs, _, hfs⟩ := Option.bind_eq_some_iff.mp h
    rcases tableValue?_cases hfs with hv | ⟨d, hv⟩ <;> cases hv
  | _ => cases h

theorem Value.ReadAs.table {w : Value} {es : List (String × Value)} (h : w.ReadAs (.table es)) :
    ∃ ws, w = .table ws ∧ EntriesReadAs ws es := by
  replace h : w.sorted? = some (.table (orderTable es)) := h
  cases w with
  | array xs =>
    obtain ⟨ys, _, hys⟩ := Option.map_eq_some_iff.mp h
    cases hys
  | table ws =>
    obtain ⟨fs, hws, hfs⟩ := Option.bind_eq_some_iff.mp h
    rcases tableValue?_cases hfs with hv | ⟨d, hv⟩
    · exact ⟨ws, rfl, entriesReadAs_of_sort hws (Value.table.inj hv).symm⟩
    · cases hv
  | _ => cases h

namespace EntriesReadAs

variable {ws es : List (String × Value)}

/-- the field under a key -/
theorem lookup_of_mem (h : EntriesReadAs ws es) (hes : (es.map Prod.fst).Nodup) {k : String}
    {v : Value} (hv : (k, v) ∈ es) : ∃ w, ws.lookup k = some w ∧ w.ReadAs v := by
  obtain ⟨fs, hfs, hlookup⟩ := h
  refine exists_of_lookup_sortedEntries? hfs ?_
  rw [hlookup, lookup_eq_some_iff (keys_orderedEntries es ▸ hes)]
  exact mem_orderedEntries hv

theorem mem_keys_iff (h : EntriesReadAs ws es) (k : String) :
    k ∈ ws.map Prod.fst ↔ k ∈ es.map Prod.fst := by
  obtain ⟨fs, hfs, hlookup⟩ := h
  rw [← keys_sortedEntries? hfs, ← keys_orderedEntries es, ← not_iff_not,
    ← lookup_eq_none_iff_not_mem, ← lookup_eq_none_iff_not_mem, hlookup]

theorem lookup_eq_none (h : EntriesReadAs ws es) {k : String} (hk : k ∉ es.map Prod.fst) :
    ws.lookup k = none := lookup_eq_none_iff_not_mem.mpr fun hws => hk ((h.mem_keys_iff k).mp hws)

theorem onlyFields_eq (h : EntriesReadAs ws es) {names : List String}
    (hes : ∀ k ∈ es.map Prod.fst, k ∈ names) : onlyFields names ws = true := by
  rw [onlyFields, List.all_eq_true]
  intro e he
  rw [List.contains_iff_mem]
  exact hes e.1 ((h.mem_keys_iff e.1).mp (List.mem_map_of_mem he))

theorem filter (h : EntriesReadAs ws es) (p : String → Bool) :
    EntriesReadAs (ws.filter fun e => p e.1) (es.filter fun e => p e.1) := by
  obtain ⟨fs, hfs, hlookup⟩ := h
  have hordered : ∀ l : List (String × Value), orderedEntries (l.filter fun e => p e.1) =
      (orderedEntries l).filter fun e => p e.1 := by
    intro l
    induction l with
    | nil => rfl
    | cons e l ih =>
      rw [orderedEntries, List.filter_cons, List.filter_cons, ← ih]
      by_cases he : p e.1 = true
      · rw [if_pos he, if_pos he, orderedEntries]
      · rw [if_neg he, if_neg he]
  refine ⟨fs.filter fun e => p e.1, sortedEntries?_filter p hfs, fun k => ?_⟩
  rw [hordered, lookup_filter, lookup_filter, hlookup]

/-- what a host keeps of entries -/
theorem read?_eq {t : OrderedTable} (h : EntriesReadAs ws t.entries) :
    OrderedTable.read? ws = some t := by
  obtain ⟨fs, hfs, hlookup⟩ := h
  rw [orderedEntries_eq t.entries t.ordered] at hlookup
  have hvalues := ordered_of_sortedEntries? ws fs hfs
  refine Option.pmap_eq_some_iff.mpr ⟨fs, orderedEntries_sortEntries hvalues, hfs, ?_⟩
  exact OrderedTable.eq_of_entries (sortEntries_eq t.ordered hvalues hlookup).symm

end EntriesReadAs

end Stencil.Toml
