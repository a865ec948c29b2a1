import Stencil.Toml.Value

/-!
# Tables in order of their keys

The order of the entries of a table means nothing: a host holds them in order of their keys.

* `Value.Ordered`, `OrderedEntries`   values whose tables all have distinct keys in order;
* `Value.ordered`, `orderTable`       values and tables put into that order;
* `OrderedTable`                      the tables in that order;
* `OrderedTable.ofTable`              the ordered table of any table;
* `OrderedTable.read?`                the ordered table of entries of a document.

`orderedEntries_sortEntries` says what sorting does; values that are read are ordered by
`Value.ordered_of_sorted?`.
-/

namespace Stencil.Toml

mutual

/-- whether all tables of a value have distinct keys in order -/
def Value.Ordered : Value → Prop
  | .array xs => OrderedItems xs
  | .table es => OrderedEntries es
  | _ => True

def OrderedItems : List Value → Prop
  | [] => True
  | x :: xs => x.Ordered ∧ OrderedItems xs

def OrderedEntries : List (String × Value) → Prop
  | [] => True
  | (k, x) :: es => (∀ e ∈ es, k < e.1) ∧ x.Ordered ∧ OrderedEntries es

end

/-! ## sorting -/

theorem mem_insertEntry {α : Type} {k : String} {a : α} {es : List (String × α)}
    {e : String × α} (h : e ∈ insertEntry k a es) : e = (k, a) ∨ e ∈ es := by
  induction es with
  | nil => exact .inl (List.mem_singleton.mp h)
  | cons d es ih =>
    rw [insertEntry] at h
    split at h
    · exact List.mem_cons.mp h
    · split at h
      · exact (List.mem_cons.mp h).imp_right (List.mem_cons_of_mem d)
      · rcases List.mem_cons.mp h with rfl | h
        · exact .inr (List.mem_cons_self ..)
        · exact (ih h).imp_right (List.mem_cons_of_mem d)

theorem orderedEntries_insertEntry {k : String} {v : Value} {es : List (String × Value)}
    (hv : v.Ordered) (h : OrderedEntries es) : OrderedEntries (insertEntry k v es) := by
  induction es with
  | nil => exact ⟨fun _ he => absurd he List.not_mem_nil, hv, trivial⟩
  | cons d es ih =>
    obtain ⟨hlt, hd, hes⟩ := h
    rw [insertEntry]
    by_cases hk : k < d.1
    · rw [if_pos hk]
      refine ⟨fun e he => ?_, hv, hlt, hd, hes⟩
      rcases List.mem_cons.mp he with rfl | he
      · exact hk
      · exact String.lt_trans hk (hlt e he)
    · rw [if_neg hk]
      by_cases heq : k = d.1
      · rw [if_pos heq]
        exact ⟨fun e he => heq ▸ hlt e he, hv, hes⟩
      · rw [if_neg heq]
        refine ⟨fun e he => ?_, hd, ih hes⟩
        rcases mem_insertEntry he with rfl | he
        · exact Std.lt_of_le_of_ne (String.not_lt.mp hk) (Ne.symm heq)
        · exact hlt e he

theorem orderedEntries_sortEntries {es : List (String × Value)} (h : ∀ e ∈ es, e.2.Ordered) :
    OrderedEntries (sortEntries es) := by
  induction es with
  | nil => trivial
  | cons e es ih =>
    exact orderedEntries_insertEntry (h e (List.mem_cons_self ..))
      (ih fun d hd => h d (List.mem_cons_of_mem e hd))

/-! ## any values -/

mutual

/-- the value with the entries of all its tables in order of their keys -/
def Value.ordered : Value → Value
  | .array xs => .array (orderedItems xs)
  | .table es => .table (sortEntries (orderedEntries es))
  | v => v

def orderedItems : List Value → List Value
  | [] => []
  | x :: xs => x.ordered :: orderedItems xs

/-- the entries with ordered values, in the order that they are in -/
def orderedEntries : List (String × Value) → List (String × Value)
  | [] => []
  | (k, x) :: es => (k, x.ordered) :: orderedEntries es

end

/-- the table with all entries in order of their keys -/
def orderTable (t : Table) : Table := sortEntries (orderedEntries t)

mutual

theorem Value.ordered_ordered : (v : Value) → v.ordered.Ordered
  | .string _ => trivial
  | .integer _ => trivial
  | .float _ => trivial
  | .boolean _ => trivial
  | .datetime _ => trivial
  | .array xs => orderedItems_ordered xs
  | .table es => orderedEntries_sortEntries (ordered_of_mem_orderedEntries es)

theorem orderedItems_ordered : (xs : List Value) → OrderedItems (orderedItems xs)
  | [] => trivial
  | x :: xs => ⟨x.ordered_ordered, orderedItems_ordered xs⟩

theorem ordered_of_mem_orderedEntries :
    (es : List (String × Value)) → ∀ e ∈ orderedEntries es, e.2.Ordered
  | [], _, h => nomatch h
  | (_, x) :: es, e, h => by
    rcases List.mem_cons.mp h with rfl | h
    · exact x.ordered_ordered
    · exact ordered_of_mem_orderedEntries es e h

end

/-! ## values of a document -/

theorem sortedItems?_cons_eq_some {x : Value} {xs ys : List Value}
    (h : sortedItems? (x :: xs) = some ys) :
    ∃ y zs, x.sorted? = some y ∧ sortedItems? xs = some zs ∧ ys = y :: zs := by
  rw [sortedItems?] at h
  obtain ⟨y, hy, h⟩ := Option.bind_eq_some_iff.mp h
  obtain ⟨zs, hzs, h⟩ := Option.bind_eq_some_iff.mp h
  exact ⟨y, zs, hy, hzs, (Option.some.inj h).symm⟩

theorem sortedEntries?_cons_eq_some {e : String × Value} {es fs : List (String × Value)}
    (h : sortedEntries? (e :: es) = some fs) :
    ∃ y gs, e.2.sorted? = some y ∧ sortedEntries? es = some gs ∧ fs = (e.1, y) :: gs := by
  rw [sortedEntries?] at h
  obtain ⟨y, hy, h⟩ := Option.bind_eq_some_iff.mp h
  obtain ⟨gs, hgs, h⟩ := Option.bind_eq_some_iff.mp h
  exact ⟨y, gs, hy, hgs, (Option.some.inj h).symm⟩

theorem tableValue?_cases {es : List (String × Value)} {v : Value} (h : tableValue? es = some v) :
    v = .table (sortEntries es) ∨ ∃ d, v = .datetime d := by
  unfold tableValue? at h
  split at h
  · split at h
    · split at h
      · obtain ⟨d, _, rfl⟩ := Option.map_eq_some_iff.mp h
        exact .inr ⟨d, rfl⟩
      · cases h
    · exact .inl (Option.some.inj h).symm
  · exact .inl (Option.some.inj h).symm

mutual

theorem Value.ordered_of_sorted? : (v : Value) → ∀ w, v.sorted? = some w → w.Ordered
  | .string _, _, h => Option.some.inj h ▸ trivial
  | .integer _, _, h => Option.some.inj h ▸ trivial
  | .float _, _, h => Option.some.inj h ▸ trivial
  | .boolean _, _, h => Option.some.inj h ▸ trivial
  | .datetime _, _, h => Option.some.inj h ▸ trivial
  | .array xs, w, h => by
    obtain ⟨ys, hys, rfl⟩ := Option.map_eq_some_iff.mp h
    exact orderedItems_of_sortedItems? xs ys hys
  | .table es, w, h => by
    obtain ⟨fs, hfs, h⟩ := Option.bind_eq_some_iff.mp h
    obtain rfl | ⟨d, rfl⟩ := tableValue?_cases h
    · exact orderedEntries_sortEntries (ordered_of_sortedEntries? es fs hfs)
    · trivial

theorem orderedItems_of_sortedItems? :
    (xs : List Value) → ∀ ys, sortedItems? xs = some ys → OrderedItems ys
  | [], _, h => Option.some.inj h ▸ trivial
  | x :: xs, ys, h => by
    obtain ⟨y, zs, hy, hzs, rfl⟩ := sortedItems?_cons_eq_some h
    exact ⟨x.ordered_of_sorted? y hy, orderedItems_of_sortedItems? xs zs hzs⟩

theorem ordered_of_sortedEntries? :
    (es : List (String × Value)) → ∀ fs, sortedEntries? es = some fs → ∀ e ∈ fs, e.2.Ordered
  | [], _, h, _, he => by
    cases h
    cases he
  | (_, x) :: es, fs, h, e, he => by
    obtain ⟨y, gs, hy, hgs, rfl⟩ := sortedEntries?_cons_eq_some h
    rcases List.mem_cons.mp he with rfl | he
    · exact x.ordered_of_sorted? y hy
    · exact ordered_of_sortedEntries? es gs hgs e he

end

/-! ## ordered tables -/

/-- a table with distinct keys in order, and so all tables in it -/
structure OrderedTable where
  entries : Table
  ordered : OrderedEntries entries

namespace OrderedTable

def empty : OrderedTable := ⟨[], trivial⟩

/-- the entries of a table and of all tables in it, put into order -/
def ofTable (t : Table) : OrderedTable :=
  ⟨orderTable t, orderedEntries_sortEntries (ordered_of_mem_orderedEntries t)⟩

/-- the table that a host reads from entries of a document -/
def read? (es : Table) : Option OrderedTable :=
  (sortedEntries? es).pmap (fun fs h => ⟨sortEntries fs, h⟩) fun fs h =>
    orderedEntries_sortEntries (ordered_of_sortedEntries? es fs h)

/-- a table stands for its ordered one, since the order means nothing -/
instance : Coe Table OrderedTable := ⟨.ofTable⟩

/-- the ordered table without entries is written `[]` -/
instance {α : Type} : CoeDep (List α) [] OrderedTable := ⟨.empty⟩

instance : CoeOut OrderedTable Table := ⟨entries⟩

theorem eq_of_entries {s t : OrderedTable} (h : s.entries = t.entries) : s = t := by
  cases s
  cases t
  cases h
  rfl

end OrderedTable

end Stencil.Toml
