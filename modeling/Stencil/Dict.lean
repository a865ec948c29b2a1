/-!
# Dictionaries in order of first insertion

`Dict α` maps strings to values.  Its keys are pairwise distinct and stay in the order in which
they came first.

* `Dict.insert`      a known key keeps its place and takes the new value, a new key goes last;
* `Dict.insertNew?`  the same for new keys only;
* `Dict.get?`        the value under a key;
* `Dict.map`         other values under the same keys;
* `Dict.ofList`      insertion of a list of entries from left to right.

`put` is the insertion on bare lists of entries, and `keys_put` says what it does to the keys.
-/

namespace Stencil

/-! ## entries -/

/-- the entry of `k` with a new value, in its place or else at the end -/
def put {α : Type} (k : String) (a : α) : List (String × α) → List (String × α)
  | [] => [(k, a)]
  | e :: r => if e.1 = k then (k, a) :: r else e :: put k a r

theorem put_nil {α : Type} (k : String) (a : α) : put k a [] = [(k, a)] := rfl

theorem keys_put {α : Type} (k : String) (a : α) (l : List (String × α)) :
    (put k a l).map Prod.fst =
      if k ∈ l.map Prod.fst then l.map Prod.fst else l.map Prod.fst ++ [k] := by
  induction l with
  | nil => simp [put]
  | cons e r ih =>
    by_cases h : e.1 = k
    · simp [put, h]
    · have h' : ¬ k = e.1 := fun hk => h hk.symm
      simp only [put, h, if_false, List.map_cons, ih, List.mem_cons, h', false_or]
      split <;> simp

theorem nodup_put {α : Type} (k : String) (a : α) {l : List (String × α)}
    (h : (l.map Prod.fst).Nodup) : ((put k a l).map Prod.fst).Nodup := by
  rw [keys_put]
  by_cases hk : k ∈ l.map Prod.fst
  · rwa [if_pos hk]
  · rw [if_neg hk, List.nodup_append]
    refine ⟨h, by simp, ?_⟩
    intro x hx y hy hxy
    rw [List.mem_singleton] at hy
    exact hk (hy ▸ hxy ▸ hx)

theorem lookup_eq_none_iff_not_mem {κ α : Type} [BEq κ] [LawfulBEq κ] {l : List (κ × α)} {k : κ} :
    l.lookup k = none ↔ k ∉ l.map Prod.fst := by
  rw [List.lookup_eq_none_iff, List.mem_map]
  constructor
  · rintro h ⟨e, he, rfl⟩
    exact bne_iff_ne.mp (h e he) rfl
  · exact fun h e he => bne_iff_ne.mpr fun heq => h ⟨e, he, heq.symm⟩

/-! ## dictionaries -/

structure Dict (α : Type) where
  entries : List (String × α)
  nodup : (entries.map Prod.fst).Nodup

namespace Dict

variable {α β : Type}

theorem ext {d e : Dict α} (h : d.entries = e.entries) : d = e := by
  cases d; cases e; cases h; rfl

instance [DecidableEq α] : DecidableEq (Dict α) := fun d e =>
  if h : d.entries = e.entries then isTrue (ext h) else isFalse fun hd => h (hd ▸ rfl)

def empty : Dict α := ⟨[], List.nodup_nil⟩

instance : EmptyCollection (Dict α) := ⟨empty⟩
instance : Inhabited (Dict α) := ⟨empty⟩

def keys (d : Dict α) : List String := d.entries.map Prod.fst

def values (d : Dict α) : List α := d.entries.map Prod.snd

def size (d : Dict α) : Nat := d.entries.length

def isEmpty (d : Dict α) : Bool := d.entries.isEmpty

def get? (d : Dict α) (k : String) : Option α := d.entries.lookup k

def contains (d : Dict α) (k : String) : Bool := (d.get? k).isSome

/-- a known key keeps its place and takes the new value, a new key goes last -/
def insert (d : Dict α) (k : String) (a : α) : Dict α :=
  ⟨put k a d.entries, nodup_put k a d.nodup⟩

/-- insertion of a key that is not there yet -/
def insertNew? (d : Dict α) (k : String) (a : α) : Option (Dict α) :=
  if d.contains k then none else some (d.insert k a)

def insertAll (d : Dict α) (l : List (String × α)) : Dict α :=
  l.foldl (fun d e => d.insert e.1 e.2) d

def ofList (l : List (String × α)) : Dict α := empty.insertAll l

/-- other values under the same keys -/
def map (f : α → β) (d : Dict α) : Dict β :=
  ⟨d.entries.map fun e => (e.1, f e.2), by
    have h : (d.entries.map fun e => (e.1, f e.2)).map Prod.fst = d.entries.map Prod.fst := by
      simp [List.map_map, Function.comp_def]
    rw [h]
    exact d.nodup⟩

theorem entries_empty : (empty : Dict α).entries = [] := rfl
theorem entries_insert (d : Dict α) (k : String) (a : α) :
    (d.insert k a).entries = put k a d.entries := rfl
theorem insertAll_nil (d : Dict α) : d.insertAll [] = d := rfl
theorem insertAll_cons (d : Dict α) (e : String × α) (l : List (String × α)) :
    d.insertAll (e :: l) = (d.insert e.1 e.2).insertAll l := rfl
theorem insertAll_append (d : Dict α) (l r : List (String × α)) :
    d.insertAll (l ++ r) = (d.insertAll l).insertAll r := by
  simp [insertAll, List.foldl_append]
theorem entries_map (f : α → β) (d : Dict α) :
    (d.map f).entries = d.entries.map fun e => (e.1, f e.2) := rfl

end Dict

end Stencil
