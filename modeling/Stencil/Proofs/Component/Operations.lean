import Stencil.Component.Basic
import Stencil.Proofs.Component.Registry

/-!
# Stores and registries over time

A store and a registry grow by operations: a component is inserted, a child is declared for a
component, a tag is registered.  What they hold after a run of operations is told by the
operations alone.

* `Component.rebuild`            the children of a component, declared again, are the same;
* `Operation`, `Catalog.step`    one operation on a store and a registry, and what it answers;
* `Catalog.Does`                 what an operation can do, and when;
* `Catalog.run`                  operations one after the other;
* `Catalog.get?_run`             the component under an id in the course of a run;
* `Catalog.enrols_run`           the registrations that are kept in its course;
* `catalog_after_operations`     store, registry and answers of a run from nothing.
-/

namespace Stencil

variable {β : Type}

/-! ## declarations of children -/

namespace Component

theorem declare_append (c : Component β) (l r : List (String × Nat)) :
    c.declare (l ++ r) = (c.declare l).declare r := by
  rw [declare, declare, declare, List.foldl_append]

theorem declare_eq (c : Component β) (l : List (String × Nat)) :
    c.declare l = ⟨c.template, c.children.insertAll l, c.base⟩ := by
  induction l generalizing c with
  | nil => rfl
  | cons e l ih =>
    rw [declare, List.foldl_cons]
    exact ih (c.setChild e.1 e.2)

theorem declare_leaf (template : String) (base : β) (l : List (String × Nat)) :
    (leaf template base).declare l = ⟨template, Dict.ofList l, base⟩ := declare_eq _ l

/-- declaring the children of a component under other ids puts these ids in their places -/
theorem rebuild (c : Component β) (template : String) (base : β) (f : Nat → Nat) :
    (leaf template base).declare (c.children.entries.map fun e => (e.1, f e.2)) =
      ⟨template, c.children.map f, base⟩ := by
  rw [declare_leaf, ← Dict.entries_map, Dict.ofList_entries]

theorem rebuild_self (c : Component β) :
    (leaf c.template c.base).declare c.children.entries = c := by
  rw [declare_leaf, Dict.ofList_entries]

end Component

/-! ## operations -/

inductive Operation (β : Type) where
  /-- a new component, with the children declared for it -/
  | insert (template : String) (base : β) (declared : List (String × Nat))
  /-- one more child of a component in the store -/
  | setChild (id : Nat) (tag : String) (child : Nat)
  | register (tag : String) (id : Nat)

namespace Operation

inductive Answer where
  /-- the id of a new component -/
  | inserted (id : Nat)
  | done
  /-- no component has this id -/
  | unknown (id : Nat)
  | refused (e : Registry.Error)
  deriving DecidableEq

def Answer.id? : Answer → Option Nat
  | .inserted id => some id
  | _ => none

/-- the number of components that an operation inserts -/
def insertions : Operation β → Nat
  | insert .. => 1
  | _ => 0

/-- the children that an operation declares for the component `id` -/
def declarations (id : Nat) : Operation β → List (String × Nat)
  | setChild i tag child => if i = id then [(tag, child)] else []
  | _ => []

/-- the registrations that an operation asks for -/
def registrations : Operation β → List (String × Nat)
  | register tag id => [(tag, id)]
  | _ => []

end Operation

/-- how many components a list of operations inserts -/
def insertions : List (Operation β) → Nat
  | [] => 0
  | op :: ops => op.insertions + insertions ops

theorem insertions_nil : insertions ([] : List (Operation β)) = 0 := rfl
theorem insertions_cons (op : Operation β) (ops : List (Operation β)) :
    insertions (op :: ops) = op.insertions + insertions ops := rfl
theorem insertions_append (l r : List (Operation β)) :
    insertions (l ++ r) = insertions l + insertions r := by
  induction l with
  | nil => exact (Nat.zero_add _).symm
  | cons op l ih => rw [List.cons_append, insertions_cons, ih, insertions_cons, Nat.add_assoc]

theorem exists_insert {ops : List (Operation β)} {id : Nat} (h : id < insertions ops) :
    ∃ before template base declared after,
      ops = before ++ .insert template base declared :: after ∧ insertions before = id := by
  -- from the end, because the numbers count what is in front
  induction ops using List.reverseRecOn with
  | nil => exact absurd h (Nat.not_lt_zero id)
  | append_singleton ops op ih =>
    by_cases hid : id < insertions ops
    · obtain ⟨before, template, base, declared, after, rfl, hbefore⟩ := ih hid
      exact ⟨before, template, base, declared, after ++ [op], by simp, hbefore⟩
    · rw [insertions_append, insertions_cons, insertions_nil, Nat.add_zero] at h
      cases op with
      | insert template base declared =>
        have hlast : id < insertions ops + 1 := h
        exact ⟨ops, template, base, declared, [], rfl, by omega⟩
      | setChild => exact absurd h hid
      | register => exact absurd h hid

/-! ## runs of operations -/

structure Catalog (β : Type) where
  store : Store β
  registry : Registry

namespace Catalog

open Operation (Answer)

def empty : Catalog β := ⟨Store.empty, Dict.empty⟩

/-- the answer to an operation and what it leaves behind -/
def step (c : Catalog β) : Operation β → Answer × Catalog β
  | .insert template base declared =>
    (.inserted c.store.size,
      { c with store := c.store.insert ((Component.leaf template base).declare declared) })
  | .setChild id tag child =>
    match c.store.setChild? id tag child with
    | some store => (.done, { c with store := store })
    | none => (.unknown id, c)
  | .register tag id =>
    match Registry.register c.registry tag id with
    | .ok registry => (.done, { c with registry := registry })
    | .error e => (.refused e, c)

def run (c : Catalog β) : List (Operation β) → List Answer × Catalog β
  | [] => ([], c)
  | op :: ops => ((c.step op).1 :: (run (c.step op).2 ops).1, (run (c.step op).2 ops).2)

theorem run_cons (c : Catalog β) (op : Operation β) (ops : List (Operation β)) :
    c.run (op :: ops) =
      ((c.step op).1 :: ((c.step op).2.run ops).1, ((c.step op).2.run ops).2) := rfl
theorem run_append (c : Catalog β) (l r : List (Operation β)) :
    c.run (l ++ r) = ((c.run l).1 ++ ((c.run l).2.run r).1, ((c.run l).2.run r).2) := by
  induction l generalizing c with
  | nil => rfl
  | cons op l ih => rw [List.cons_append, run_cons, ih, run_cons, List.cons_append]

theorem length_run (c : Catalog β) (ops : List (Operation β)) :
    (c.run ops).1.length = ops.length := by
  induction ops generalizing c with
  | nil => rfl
  | cons op ops ih => rw [run_cons, List.length_cons, ih, List.length_cons]

/-! ## one step -/

/-- what an operation answers and leaves behind, and when -/
inductive Does (c : Catalog β) : Operation β → Answer → Catalog β → Prop where
  | insert (template : String) (base : β) (declared : List (String × Nat)) :
    Does c (.insert template base declared) (.inserted c.store.size)
      { c with store := c.store.insert ((Component.leaf template base).declare declared) }
  | setChild {id : Nat} (tag : String) (child : Nat) (h : id < c.store.size) :
    Does c (.setChild id tag child) .done
      { c with store := ⟨c.store.components.modify id fun d => d.setChild tag child⟩ }
  | unknown {id : Nat} (tag : String) (child : Nat) (h : c.store.size ≤ id) :
    Does c (.setChild id tag child) (.unknown id) c
  | register {tag : String} (id : Nat) (h : tag ∉ c.registry.keys) :
    Does c (.register tag id) .done { c with registry := Dict.insert c.registry tag id }
  | refused {tag : String} (id : Nat) (h : tag ∈ c.registry.keys) :
    Does c (.register tag id) (.refused (.duplicate tag)) c

theorem does_step (c : Catalog β) (op : Operation β) : c.Does op (c.step op).1 (c.step op).2 := by
  cases op with
  | insert template base declared => exact .insert template base declared
  | setChild id tag child =>
    rw [step, Store.setChild?]
    by_cases h : id < c.store.size
    · have hcontains : c.store.contains id = true := decide_eq_true h
      rw [if_pos hcontains]
      exact .setChild tag child h
    · have hcontains : ¬ c.store.contains id = true := fun hc => h (of_decide_eq_true hc)
      rw [if_neg hcontains]
      exact .unknown tag child (Nat.le_of_not_lt h)
  | register tag id =>
    rw [step, Registry.register_eq]
    by_cases h : tag ∈ c.registry.keys
    · rw [if_pos h]
      exact .refused id h
    · rw [if_neg h]
      exact .register id h

namespace Does

variable {c c' : Catalog β} {op : Operation β} {answer : Answer}

theorem size (h : c.Does op answer c') : c'.store.size = c.store.size + op.insertions := by
  cases h with
  | insert => exact List.length_append
  | setChild => exact List.length_modify ..
  | unknown => rfl
  | register => rfl
  | refused => rfl

theorem ids (h : c.Does op answer c') :
    [answer].filterMap Answer.id? = List.range' c.store.size op.insertions := by
  cases h <;> rfl

/-- a component stays under its id, and only declarations for this id change it -/
theorem get? (h : c.Does op answer c') {id : Nat} {d : Component β}
    (hd : c.store.get? id = some d) :
    c'.store.get? id = some (d.declare (op.declarations id)) := by
  cases h with
  | insert =>
    have hid : id < c.store.size := (List.getElem?_eq_some_iff.mp hd).1
    exact (List.getElem?_append_left hid).trans hd
  | @setChild i tag child _ =>
    have hget : c.store.components[id]? = some d := hd
    rw [Store.get?, List.getElem?_modify, hget, Operation.declarations]
    by_cases hi : i = id
    · rw [if_pos hi]
      exact congrArg some (if_pos hi)
    · rw [if_neg hi]
      exact congrArg some (if_neg hi)
  | @unknown i _ _ hi =>
    -- the rejected declaration is for another id, because `id` is in the store
    have hid : id < c.store.size := (List.getElem?_eq_some_iff.mp hd).1
    rw [Operation.declarations, if_neg (by omega)]
    exact hd
  | register => exact hd
  | refused => exact hd

theorem enrols (h : c.Does op answer c') {l : List (String × Nat)}
    (hl : Registry.Enrols c.registry l) :
    Registry.Enrols c'.registry (l ++ op.registrations) := by
  cases h with
  | insert => exact (List.append_nil l).symm ▸ hl
  | setChild => exact (List.append_nil l).symm ▸ hl
  | unknown => exact (List.append_nil l).symm ▸ hl
  | @register tag id htag => exact hl.concat_of_not_mem (e := (tag, id)) htag
  | @refused tag id htag => exact hl.concat_of_mem (e := (tag, id)) htag

end Does

/-- a child of an unknown component is rejected, and only such a child -/
theorem step_setChild_eq_iff {c : Catalog β} {id : Nat} {tag : String} {child : Nat} :
    c.step (.setChild id tag child) = (.unknown id, c) ↔ c.store.size ≤ id := by
  have h := c.does_step (.setChild id tag child)
  constructor
  · intro hstep
    rw [hstep] at h
    cases h
    assumption
  · intro hid
    generalize c.step (.setChild id tag child) = result at h ⊢
    obtain ⟨answer, c'⟩ := result
    cases h with
    | setChild _ _ hlt => exact absurd hlt (Nat.not_lt.mpr hid)
    | unknown => rfl

/-- a tag that is registered already is rejected, and only such a tag -/
theorem step_register_eq_iff {c : Catalog β} {tag : String} {id : Nat} :
    c.step (.register tag id) = (.refused (.duplicate tag), c) ↔ tag ∈ c.registry.keys := by
  have h := c.does_step (.register tag id)
  constructor
  · intro hstep
    rw [hstep] at h
    cases h
    assumption
  · intro htag
    generalize c.step (.register tag id) = result at h ⊢
    obtain ⟨answer, c'⟩ := result
    cases h with
    | register _ hnew => exact absurd htag hnew
    | refused => rfl

/-! ## whole runs -/

theorem size_run (c : Catalog β) (ops : List (Operation β)) :
    (c.run ops).2.store.size = c.store.size + insertions ops := by
  induction ops generalizing c with
  | nil => rfl
  | cons op ops ih => rw [run_cons, ih, (c.does_step op).size, insertions_cons, Nat.add_assoc]

/-- new components get the ids from the size of the store on -/
theorem ids_run (c : Catalog β) (ops : List (Operation β)) :
    (c.run ops).1.filterMap Answer.id? = List.range' c.store.size (insertions ops) := by
  induction ops generalizing c with
  | nil => rfl
  | cons op ops ih =>
    rw [run_cons, ← List.singleton_append, List.filterMap_append, (c.does_step op).ids, ih,
      (c.does_step op).size, List.range'_append_1, insertions_cons]

theorem get?_run {c : Catalog β} {id : Nat} {d : Component β} (h : c.store.get? id = some d)
    (ops : List (Operation β)) :
    (c.run ops).2.store.get? id = some (d.declare (ops.flatMap (Operation.declarations id))) := by
  induction ops generalizing c d with
  | nil => exact h
  | cons op ops ih =>
    rw [run_cons, ih ((c.does_step op).get? h), List.flatMap_cons, Component.declare_append]

theorem enrols_run {c : Catalog β} {l : List (String × Nat)}
    (h : Registry.Enrols c.registry l) (ops : List (Operation β)) :
    Registry.Enrols (c.run ops).2.registry (l ++ ops.flatMap Operation.registrations) := by
  induction ops generalizing c l with
  | nil => rwa [List.flatMap_nil, List.append_nil]
  | cons op ops ih =>
    rw [run_cons, List.flatMap_cons, ← List.append_assoc]
    exact ih ((c.does_step op).enrols h)

/-! ## runs from nothing -/

/-- what is there after a list of operations -/
def after (ops : List (Operation β)) : Catalog β := (empty.run ops).2

def answers (ops : List (Operation β)) : List Answer := (empty.run ops).1

theorem size_after (ops : List (Operation β)) : (after ops).store.size = insertions ops :=
  (size_run empty ops).trans (Nat.zero_add _)

/-- an insertion in a run is answered with the number of insertions before it -/
theorem answers_insert (before : List (Operation β)) (template : String) (base : β)
    (declared : List (String × Nat)) (later : List (Operation β)) :
    (answers (before ++ .insert template base declared :: later))[before.length]? =
      some (.inserted (insertions before)) := by
  have hlength : before.length = ((empty : Catalog β).run before).1.length :=
    (length_run empty before).symm
  rw [answers, run_append, List.getElem?_append_right (Nat.le_of_eq hlength.symm), hlength,
    Nat.sub_self, run_cons, List.getElem?_cons_zero, ← size_after]
  rfl

/-- an inserted component with all children that are declared for it, then and later -/
theorem get?_after (before : List (Operation β)) (template : String) (base : β)
    (declared : List (String × Nat)) (later : List (Operation β)) :
    (after (before ++ .insert template base declared :: later)).store.get? (insertions before) =
      some ⟨template, Dict.ofList
        (declared ++ later.flatMap (Operation.declarations (insertions before))), base⟩ := by
  have hget : ((after before).step (.insert template base declared)).2.store.get?
      (insertions before) = some ((Component.leaf template base).declare declared) := by
    rw [← size_after]
    exact List.getElem?_concat_length
  rw [after, run_append, run_cons]
  refine (get?_run hget later).trans ?_
  rw [← Component.declare_append, Component.declare_leaf]

theorem get?_after_iff {ops : List (Operation β)} {id : Nat} {c : Component β} :
    (after ops).store.get? id = some c ↔
      ∃ before template base declared later,
        ops = before ++ .insert template base declared :: later ∧
        (answers ops)[before.length]? = some (.inserted id) ∧
        c.template = template ∧ c.base = base ∧
        c.children.Collects (declared ++ later.flatMap (Operation.declarations id)) := by
  constructor
  · intro hget
    have hid : id < insertions ops := by
      rw [← size_after]
      exact (List.getElem?_eq_some_iff.mp hget).1
    obtain ⟨before, template, base, declared, later, rfl, rfl⟩ := exists_insert hid
    rw [get?_after, Option.some.injEq] at hget
    subst hget
    exact ⟨before, template, base, declared, later, rfl, answers_insert .., rfl, rfl,
      Dict.collects_ofList _⟩
  · rintro ⟨before, template, base, declared, later, rfl, hanswer, rfl, rfl, hchildren⟩
    rw [answers_insert, Option.some.injEq, Answer.inserted.injEq] at hanswer
    subst hanswer
    rw [get?_after, ← hchildren.unique (Dict.collects_ofList _)]

theorem enrols_after (ops : List (Operation β)) :
    Registry.Enrols (after ops).registry (ops.flatMap Operation.registrations) :=
  enrols_run (c := empty) Registry.Enrols.nil ops

end Catalog

/-- a run of operations from an empty store and an empty registry: ids are handed out in order, a
component stays under the id that its insertion was answered with and has the children that were
declared for this id, the registry keeps first registrations, and what is rejected changes
nothing -/
theorem catalog_after_operations (ops : List (Operation β)) :
    (Catalog.answers ops).filterMap Operation.Answer.id? = List.range (insertions ops) ∧
    (∀ id c, (Catalog.after ops).store.get? id = some c ↔
      ∃ before template base declared later,
        ops = before ++ .insert template base declared :: later ∧
        (Catalog.answers ops)[before.length]? = some (.inserted id) ∧
        c.template = template ∧ c.base = base ∧
        c.children.Collects (declared ++ later.flatMap (Operation.declarations id))) ∧
    (∀ (c : Component β) (template : String) (base : β) (f : Nat → Nat),
      (Component.leaf c.template c.base).declare c.children.entries = c ∧
      (Component.leaf template base).declare (c.children.entries.map fun e => (e.1, f e.2)) =
        ⟨template, c.children.map f, base⟩) ∧
    Registry.Enrols (Catalog.after ops).registry (ops.flatMap Operation.registrations) ∧
    (∀ id tag child,
      (Catalog.after ops).step (.setChild id tag child) = (.unknown id, Catalog.after ops) ↔
        insertions ops ≤ id) ∧
    ∀ tag id,
      (Catalog.after ops).step (.register tag id) =
          (.refused (.duplicate tag), Catalog.after ops) ↔
        tag ∈ (ops.flatMap Operation.registrations).map Prod.fst := by
  have henrols := Catalog.enrols_after ops
  refine ⟨?_, fun id c => Catalog.get?_after_iff, fun c template base f => ?_, henrols, ?_, ?_⟩
  · rw [List.range_eq_range']
    exact Catalog.ids_run Catalog.empty ops
  · exact ⟨c.rebuild_self, c.rebuild template base f⟩
  · intro id tag child
    rw [Catalog.step_setChild_eq_iff, Catalog.size_after]
  · intro tag id
    rw [Catalog.step_register_eq_iff, henrols.tags.mem_iff]

-- a tag can be declared again for a component, but not registered again
example : Catalog.answers [.insert "<x-a>" () [("x-a", 0)], .setChild 0 "x-a" 7,
    .setChild 1 "x-a" 0, .register "x-b" 0, .register "x-b" 1] =
    [.inserted 0, .done, .unknown 1, .done, .refused (.duplicate "x-b")] := by decide

end Stencil
