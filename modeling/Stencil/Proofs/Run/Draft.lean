import Stencil.Proofs.Component.Operations
import Stencil.Proofs.Run.Change

/-!
# The second phase follows an exploration

The second phase keeps a draft with the new ids that it has given.  It edits what `Store.explore`
visits from the same starting points when the ids of the draft are seen already, in the same order,
and gives the new ids in this order.

* `Draft.Numbers`         the new ids of a draft are the places of the old ones in a list;
* `Draft.add`             a draft with a filled place for each of some changes;
* `Edits`                 what it means to follow an exploration;
* `edits`                 the recursion of the second phase follows one, from a component and from a
                          list of links;
* `editGraph_eq_changes`  the whole phase.

While a component is edited its own place and those of all components above it are empty.  The
equation holds since the new id of a component is given before its place is filled, and since it
never changes.
-/

namespace Stencil

variable {σ β : Type}

/-! ## places -/

theorem lookup_zipIdx_of_mem {l : List Nat} {a : Nat} (h : a ∈ l) (n : Nat) :
    (l.zipIdx n).lookup a = some (n + l.idxOf a) := by
  induction l generalizing n with
  | nil => cases h
  | cons b l ih =>
    rw [List.zipIdx_cons, List.lookup_cons, List.idxOf_cons]
    by_cases hab : a = b
    · rw [hab, beq_self_eq_true]
      rfl
    · rw [beq_false_of_ne hab, beq_false_of_ne (Ne.symm hab),
        ih ((List.mem_cons.mp h).resolve_left hab), cond_false]
      exact congrArg some (by omega)

namespace Draft

/-- the new ids are those of the list `seen`, from `0` on and each with a place -/
structure Numbers (d : Draft β) (seen : List Nat) : Prop where
  newIds : d.newIds = seen.zipIdx
  size : d.places.length = seen.length

/-- a draft with further places, all of them filled -/
def add (d : Draft β) (rename : Nat → Nat) (log : List (Change β)) : Draft β :=
  ⟨d.newIds ++ (log.map Change.id).zipIdx d.places.length,
    d.places ++ log.map fun ch => some (ch.component rename)⟩

theorem add_nil (d : Draft β) (rename : Nat → Nat) : d.add rename [] = d := by
  simp [add]

theorem add_append (d : Draft β) (rename : Nat → Nat) (log more : List (Change β)) :
    d.add rename (log ++ more) = (d.add rename log).add rename more := by
  simp [add, List.zipIdx_append]

/-- the place that was reserved before those that are filled since -/
theorem fill_add_reserve (d : Draft β) (rename : Nat → Nat) (ch : Change β)
    (log : List (Change β)) :
    ((d.reserve ch.id).add rename log).fill d.places.length (ch.component rename) =
      d.add rename (ch :: log) := by
  simp [fill, add, reserve]

namespace Numbers

variable {d : Draft β} {seen : List Nat}

theorem empty : (Draft.empty : Draft β).Numbers [] := ⟨rfl, rfl⟩

theorem ids (h : d.Numbers seen) : d.ids = seen := by
  rw [Draft.ids, h.newIds, List.zipIdx_map_fst]

theorem newId? (h : d.Numbers seen) {id : Nat} (hid : id ∈ seen) :
    d.newId? id = some (seen.idxOf id) := by
  rw [Draft.newId?, h.newIds, lookup_zipIdx_of_mem hid, Nat.zero_add]

theorem reserve (h : d.Numbers seen) (id : Nat) : (d.reserve id).Numbers (seen ++ [id]) := by
  refine ⟨?_, ?_⟩
  · rw [Draft.reserve, h.newIds, h.size, List.zipIdx_append, Nat.zero_add]
    rfl
  · rw [Draft.reserve, List.length_append, List.length_append, h.size]
    rfl

theorem add (h : d.Numbers seen) (rename : Nat → Nat) (log : List (Change β)) :
    (d.add rename log).Numbers (seen ++ log.map Change.id) := by
  refine ⟨?_, ?_⟩
  · rw [Draft.add, h.newIds, h.size, List.zipIdx_append, Nat.zero_add]
  · rw [Draft.add, List.length_append, List.length_append, h.size, List.length_map,
      List.length_map]

end Numbers

end Draft

/-! ## the two functions, by cases -/

section
variable (i : Instruction σ β) (s : Store β)

theorem editComponent_of_known {id newId : Nat} {d : Draft β} (h : d.newId? id = some newId) :
    Subtype.val <$> editComponent i s id d = pure (newId, d) := by
  rw [editComponent]
  split
  next n hsome =>
    cases h.symm.trans hsome
    rw [map_pure]
  next hnone => cases h.symm.trans hnone

theorem editComponent_of_none {id : Nat} {d : Draft β} (h : d.newId? id = none)
    (hc : s.get? id = none) :
    Subtype.val <$> editComponent i s id d = throw (.unknownComponent id) := by
  rw [editComponent]
  split
  next n hsome => cases h.symm.trans hsome
  next =>
    split
    next => rfl
    next c hsome => cases hc.symm.trans hsome

theorem editComponent_of_some {id : Nat} {d : Draft β} (h : d.newId? id = none) {c : Component β}
    (hc : s.get? id = some c) :
    Subtype.val <$> editComponent i s id d = (do
      let template ← ExceptT.adapt (EditError.toRunError id) (editTemplate i c c.template)
      let below ← Subtype.val <$> editLinks i s c.children.entries (d.reserve id)
      let base ← Run.hook (i.substitute c)
      pure (d.places.length, below.2.fill d.places.length
        ((Component.leaf template (base.getD c.base)).declare below.1))) := by
  rw [editComponent]
  split
  next n hsome => cases h.symm.trans hsome
  next =>
    split
    next hnone => cases hc.symm.trans hnone
    next c' hsome =>
      cases hc.symm.trans hsome
      simp only [map_bind, bind_pure_comp, Functor.map_map, bind_map_left]

theorem editLinks_nil (d : Draft β) :
    Subtype.val <$> editLinks i s [] d = pure ([], d) := by
  rw [editLinks, map_pure]

theorem editLinks_cons (tag : String) (id : Nat) (links : List (String × Nat)) (d : Draft β) :
    Subtype.val <$> editLinks i s ((tag, id) :: links) d = (do
      let first ← Subtype.val <$> editComponent i s id d
      let rest ← Subtype.val <$> editLinks i s links first.2
      pure ((tag, first.1) :: rest.1, rest.2)) := by
  rw [editLinks]
  simp only [map_bind, bind_pure_comp, Functor.map_map, bind_map_left]

end

/-! ## following an exploration -/

/-- `x` makes the changes of what is explored from `todo` on when the ids of the draft are seen,
adds them to the draft with the places of `full` as new ids, and answers with `a` beside it -/
def Edits (i : Instruction σ β) (s : Store β) (full : List Nat) {α : Type} (a : α) (d : Draft β)
    (todo : List (Option String × Nat)) (x : Run σ (α × Draft β)) : Prop :=
  x = (fun log => (a, d.add full.idxOf log)) <$> changes i s (s.explore d.ids todo)

section
variable {i : Instruction σ β} {s : Store β} {full seen : List Nat} {d : Draft β}

/-- ids that are seen keep their places -/
theorem idxOf_eq_of_append {a : Nat} (h : seen <+: full) (ha : a ∈ seen) :
    full.idxOf a = seen.idxOf a := by
  obtain ⟨rest, rfl⟩ := h
  exact List.idxOf_append_of_mem ha

theorem Draft.Numbers.add_changes (hd : d.Numbers seen) {todo : List (Option String × Nat)}
    {log : List (Change β)} {st t : σ}
    (h : (changes i s (s.explore seen todo)).run.run st = (.ok log, t)) (rename : Nat → Nat) :
    (d.add rename log).Numbers (s.seenAfter seen todo) := by
  have hadd := hd.add rename log
  rwa [(run_changes_ok h).1] at hadd

theorem Edits.ids_eq {α : Type} {a b : α} {after : Draft β} {todo : List (Option String × Nat)}
    {x : Run σ (α × Draft β)} {st t : σ} (hd : d.Numbers seen) (h : Edits i s full a d todo x)
    (hx : x.run.run st = (.ok (b, after), t)) : b = a ∧ after.Numbers (s.seenAfter seen todo) := by
  rw [h, run_map, hd.ids] at hx
  rcases hlog : (changes i s (s.explore seen todo)).run.run st with ⟨e | log, u⟩
  · rw [hlog] at hx
    cases hx
  · rw [hlog] at hx
    cases hx
    exact ⟨rfl, hd.add_changes hlog full.idxOf⟩

theorem edits_known (hd : d.Numbers seen) {id newId : Nat} (tag : Option String)
    (h : d.newId? id = some newId) (hfull : s.seenAfter seen [(tag, id)] <+: full) :
    Edits i s full (full.idxOf id) d [(tag, id)] (pure (newId, d)) := by
  have hid : id ∈ seen := by
    by_contra hnot
    rw [← hd.ids, ← Draft.newId?_eq_none_iff, h] at hnot
    cases hnot
  rw [s.seenAfter_of_mem hid, s.seenAfter_nil] at hfull
  have hnew : newId = full.idxOf id := by
    rw [idxOf_eq_of_append hfull hid]
    exact Option.some.inj (h.symm.trans (hd.newId? hid))
  rw [Edits, hd.ids, s.explore_cons_of_mem hid, s.explore_nil, changes, map_pure, Draft.add_nil,
    hnew]

theorem edits_missing (tag : Option String) {id : Nat} (h : d.newId? id = none)
    (hc : s.get? id = none) :
    Edits i s full (full.idxOf id) d [(tag, id)] (throw (.unknownComponent id)) := by
  rw [Edits, s.explore_cons_of_not_mem (Draft.newId?_eq_none_iff.mp h), changes, Run.component, hc]
  rfl

theorem edits_fresh (hd : d.Numbers seen) (tag : Option String) {id : Nat}
    (h : d.newId? id = none) {c : Component β} (hc : s.get? id = some c)
    (hfull : s.seenAfter seen [(tag, id)] <+: full)
    {x : Run σ (List (String × Nat) × Draft β)}
    (hx : Edits i s full (c.children.entries.map fun e => (e.1, full.idxOf e.2)) (d.reserve id)
      (s.steps id) x) :
    Edits i s full (full.idxOf id) d [(tag, id)] (do
      let template ← ExceptT.adapt (EditError.toRunError id) (editTemplate i c c.template)
      let below ← x
      let base ← Run.hook (i.substitute c)
      pure (d.places.length, below.2.fill d.places.length
        ((Component.leaf template (base.getD c.base)).declare below.1))) := by
  have hid : id ∉ d.ids := Draft.newId?_eq_none_iff.mp h
  -- the place that is reserved now is the one that the id has in the end
  have hplace : full.idxOf id = d.places.length := by
    rw [← hd.ids, s.seenAfter_of_not_mem hid, s.seenAfter_nil] at hfull
    rw [idxOf_eq_of_append ((List.prefix_append _ _).trans hfull) (by simp),
      List.idxOf_append_of_notMem hid, List.idxOf_cons_self, hd.ids, hd.size, Nat.add_zero]
  have hfill : ∀ template inner base,
      ((d.reserve id).add full.idxOf inner).fill d.places.length
        ((Component.leaf template (base.getD c.base)).declare
          (c.children.entries.map fun e => (e.1, full.idxOf e.2))) =
        d.add full.idxOf (⟨id, c, template, base⟩ :: inner) := by
    intro template inner base
    rw [c.rebuild template (base.getD c.base) full.idxOf]
    exact d.fill_add_reserve full.idxOf ⟨id, c, template, base⟩ inner
  rw [Edits, s.explore_cons_of_not_mem hid, s.explore_nil, changes, Run.component, hc, hx,
    Draft.ids_reserve, hplace]
  simp only [changes, pure_bind, List.append_nil, map_bind, map_pure, bind_map_left, hfill]

theorem edits_nil (i : Instruction σ β) (s : Store β) (full : List Nat) (d : Draft β) :
    Edits i s full ([] : List (String × Nat)) d [] (pure ([], d)) := by
  rw [Edits, s.explore_nil, changes, map_pure, Draft.add_nil]

theorem edits_cons (hd : d.Numbers seen) (tag : String) {id : Nat} {links : List (String × Nat)}
    {todo : List (Option String × Nat)} {x : Run σ (Nat × Draft β)}
    {f : Draft β → Run σ (List (String × Nat) × Draft β)}
    (hx : Edits i s full (full.idxOf id) d [(some tag, id)] x)
    (hf : ∀ after : Draft β, after.Numbers (s.seenAfter seen [(some tag, id)]) →
      Edits i s full links after todo (f after)) :
    Edits i s full ((tag, full.idxOf id) :: links) d ((some tag, id) :: todo) (do
      let first ← x
      let rest ← f first.2
      pure ((tag, first.1) :: rest.1, rest.2)) := by
  rw [Edits, hx, hd.ids, changes_explore_cons i s seen (some tag) id todo, bind_map_left]
  refine run_ext fun st => run_bind_congr fun log t hlog => ?_
  have hafter := hd.add_changes hlog full.idxOf
  rw [hf _ hafter, hafter.ids, bind_map_left]
  simp only [map_bind, map_pure, Draft.add_append]

end

/-! ## the two recursions -/

theorem edits (i : Instruction σ β) (s : Store β) (full : List Nat) :
    (∀ id (d : Draft β) tag seen, d.Numbers seen → s.seenAfter seen [(tag, id)] <+: full →
      Edits i s full (full.idxOf id) d [(tag, id)] (Subtype.val <$> editComponent i s id d)) ∧
    ∀ links (d : Draft β) seen, d.Numbers seen →
      s.seenAfter seen (links.map fun e => (some e.1, e.2)) <+: full →
      Edits i s full (links.map fun e => (e.1, full.idxOf e.2)) d
        (links.map fun e => (some e.1, e.2)) (Subtype.val <$> editLinks i s links d) := by
  refine editComponent.mutual_induct s _ _ ?known ?missing ?found ?nil ?cons
  case known =>
    intro id d newId hid tag seen hd hfull
    rw [editComponent_of_known i s hid]
    exact edits_known hd tag hid hfull
  case missing =>
    intro id d hid hc tag seen hd _
    rw [editComponent_of_none i s hid hc]
    exact edits_missing tag hid hc
  case found =>
    intro id d hid c hc ih tag seen hd hfull
    have hnot : id ∉ seen := hd.ids ▸ Draft.newId?_eq_none_iff.mp hid
    have hbelow := ih (seen ++ [id]) (hd.reserve id)
    rw [← s.steps_of_get? hc] at hbelow
    rw [editComponent_of_some i s hid hc]
    refine edits_fresh hd tag hid hc hfull (hbelow ?_)
    rwa [s.seenAfter_of_not_mem hnot, s.seenAfter_nil] at hfull
  case nil =>
    intro d seen hd _
    rw [editLinks_nil]
    exact edits_nil i s full d
  case cons =>
    intro d tag id links ihFirst ihRest seen hd hfull
    rw [List.map_cons, ← List.singleton_append, seenAfter_append] at hfull
    have hfirst := ihFirst (some tag) seen hd ((List.prefix_append _ _).trans hfull)
    rw [editLinks_cons]
    refine edits_cons hd tag hfirst fun after hafter => ihRest 0 after ?_ _ hafter hfull
    rw [hafter.ids, hd.ids]
    exact s.unseen_append_le seen _

/-- the whole phase makes the changes of all that the root reaches, and adds them with the places
of their components as new ids -/
theorem editGraph_eq_changes (i : Instruction σ β) (g : Graph β) :
    editGraph i g = (fun log => ((log.map Change.id).idxOf g.root,
      Draft.empty.add (log.map Change.id).idxOf log)) <$>
        changes i g.store (g.store.spanning g.root) := by
  have hphase := (edits i g.store (g.store.spanning g.root).ids).1 g.root Draft.empty none []
    Draft.Numbers.empty (g.store.ids_spanning g.root ▸ List.prefix_rfl)
  rw [editGraph, ← map_changes_congr i g.store fun log hids => by rw [hids]]
  exact hphase

end Stencil
