import Mathlib
import Stencil.Proofs.Run.Phases

/-!
# The graph of a successful run

A run that succeeds is an opening, the changes of the reached components and the last notice.  Its
graph is the part of the old one that the root reaches, with new ids and with these changes.

* `opening`             the run up to the notice that the templates are next;
* `Mirrors`             what the new graph has to do with the old one;
* `transform_mirrors`   every run that succeeds gives such a graph, and leaves no place empty.
-/

namespace Stencil

open Stencil.Markup

variable {σ β : Type}

/-! ## the parts of a run -/

/-- the run up to the notice that the templates are next -/
def opening (i : Instruction σ β) (g : Graph β) (globals : Registry) : Run σ Unit := do
  Run.hook (i.event .start)
  let _ ← analyzeGraph i g globals
  Run.hook (i.event .replace)

/-- a run that succeeds has a result, and its last notice succeeds -/
theorem run_process_ok {i : Instruction σ β} {g out : Graph β} {globals : Registry} {st st' : σ}
    (h : (process i g globals).run.run st = (.ok out, st')) :
    ∃ t u, (Run.hook (i.event .start)).run.run st = (.ok (), t) ∧
      (phases i g globals).run.run t = (.ok out, u) ∧
      (Run.hook (i.event .finish)).run.run u = (.ok (), st') := by
  obtain ⟨_, t, hstart, h₁⟩ := run_bind_ok h
  obtain ⟨result, u, hphases, h₂⟩ := run_bind_ok h₁
  obtain ⟨ended, v, hfinish, h₃⟩ := run_bind_ok h₂
  rw [run_outcome] at hphases hfinish
  rcases hp : (phases i g globals).run.run t with ⟨e | a, u'⟩
  · rw [hp] at hphases
    cases hphases
    cases h₃
  · rw [hp] at hphases
    cases hphases
    rcases hf : (Run.hook (i.event .finish)).run.run u' with ⟨e | b, v'⟩
    · rw [hf] at hfinish
      cases hfinish
      cases h₃
    · rw [hf] at hfinish
      cases hfinish
      cases h₃
      exact ⟨t, u', hstart, hp, hf⟩

/-- the phases of a run that succeeds, and the notices around them -/
theorem run_transform_ok {i : Instruction σ β} {g out : Graph β} {globals : Registry} {st st' : σ}
    (h : transform i g globals st = (.ok out, st')) :
    ∃ visited root draft t u v w, (Run.hook (i.event .start)).run.run st = (.ok (), t) ∧
      (analyzeGraph i g globals).run.run t = (.ok visited, u) ∧
      (Run.hook (i.event .replace)).run.run u = (.ok (), v) ∧
      (editGraph i g).run.run v = (.ok (root, draft), w) ∧
      (Run.hook (i.event .finish)).run.run w = (.ok (), st') ∧ draft.graph root = out := by
  obtain ⟨t, w, hstart, hphases, hfinish⟩ := run_process_ok h
  obtain ⟨visited, u, hanalyze, h₁⟩ := run_bind_ok hphases
  obtain ⟨_, v, hreplace, h₂⟩ := run_bind_ok h₁
  obtain ⟨⟨root, draft⟩, _, hedit, h₃⟩ := run_bind_ok h₂
  cases h₃
  exact ⟨visited, root, draft, t, u, v, w, hstart, hanalyze, hreplace, hedit, hfinish, rfl⟩

/-- the three parts of a run that succeeds -/
theorem run_parts {i : Instruction σ β} {g out : Graph β} {globals : Registry} {st st' : σ}
    (h : transform i g globals st = (.ok out, st')) :
    ∃ root draft t u, (opening i g globals).run.run st = (.ok (), t) ∧
      (editGraph i g).run.run t = (.ok (root, draft), u) ∧
      (Run.hook (i.event .finish)).run.run u = (.ok (), st') ∧ draft.graph root = out := by
  obtain ⟨_, root, draft, _, _, t, u, hstart, hanalyze, hreplace, hedit, hfinish, rfl⟩ :=
    run_transform_ok h
  refine ⟨root, draft, t, u, ?_, hedit, hfinish, rfl⟩
  rw [opening, run_bind, hstart]
  show (analyzeGraph i g globals >>= fun _ => Run.hook (i.event .replace)).run.run _ = _
  rw [run_bind, hanalyze]
  exact hreplace

/-! ## the new graph -/

/-- `out` is the part of `g` that the root reaches, under the new ids that `rename` gives and with
the changes of `log`, one for each component -/
structure Mirrors (g : Graph β) (log : List (Change β)) (rename : Nat → Nat) (out : Graph β) :
    Prop where
  bijective : Set.BijOn rename {id | g.store.Reaches g.root id} (Set.Iio out.store.size)
  root : rename g.root = out.root
  once : (log.map Change.id).Nodup
  component : ∀ id, g.store.Reaches g.root id → ∃ c ch, g.store.get? id = some c ∧ ch ∈ log ∧
    ch.id = id ∧ out.store.get? (rename id) =
      some ⟨ch.template, c.children.map rename, ch.base.getD c.base⟩
  closed : ∀ id tag child, (tag, child) ∈ out.store.links id → child < out.store.size

theorem bijOn_idxOf {l : List Nat} (h : l.Nodup) :
    Set.BijOn l.idxOf {a | a ∈ l} (Set.Iio l.length) := by
  refine ⟨fun a ha => List.idxOf_lt_length_of_mem ha, fun a ha b _ hab => ?_, fun n hn => ?_⟩
  · exact (List.idxOf_inj ha).mp hab
  · have hlt : n < l.length := hn
    exact ⟨l[n], List.getElem_mem hlt, h.idxOf_getElem n hlt⟩

/-- the entry of an id stands at the new id of it -/
theorem getElem?_idxOf_ids {log : List (Change β)} {id : Nat} (h : id ∈ log.map Change.id) :
    ∃ ch ∈ log, ch.id = id ∧ log[(log.map Change.id).idxOf id]? = some ch := by
  have hlt := List.idxOf_lt_length_of_mem h
  have hlog : (log.map Change.id).idxOf id < log.length := by rwa [List.length_map] at hlt
  refine ⟨log[(log.map Change.id).idxOf id], List.getElem_mem hlog, ?_,
    List.getElem?_eq_getElem hlog⟩
  rw [← List.getElem_map Change.id (h := hlt)]
  exact List.getElem_idxOf hlt

theorem get?_graphOf {log : List (Change β)} {id : Nat} (root : Nat)
    (h : id ∈ log.map Change.id) :
    ∃ ch ∈ log, ch.id = id ∧ (graphOf log root).store.get? ((log.map Change.id).idxOf id) =
      some (ch.component (log.map Change.id).idxOf) := by
  obtain ⟨ch, hch, heq, hat⟩ := getElem?_idxOf_ids h
  refine ⟨ch, hch, heq, ?_⟩
  rw [Store.get?, components_graphOf, List.getElem?_map, hat]
  rfl

/-- a link of the new graph comes from a link of an entry -/
theorem mem_links_graphOf {log : List (Change β)} {root id child : Nat} {tag : String}
    (h : (tag, child) ∈ (graphOf log root).store.links id) :
    ∃ ch ∈ log, ∃ b, (tag, b) ∈ ch.original.children.entries ∧
      (log.map Change.id).idxOf b = child := by
  obtain ⟨c, hc, hmem⟩ := Store.mem_links.mp h
  rw [Store.get?, components_graphOf, List.getElem?_map] at hc
  obtain ⟨ch, hat, rfl⟩ := Option.map_eq_some_iff.mp hc
  obtain ⟨e, he, heq⟩ := List.mem_map.mp hmem
  obtain ⟨rfl, rfl⟩ := Prod.mk.inj heq
  exact ⟨ch, List.mem_of_getElem? hat, e.2, he, rfl⟩

/-- one answered entry for each id that the root reaches makes a copy of what it reaches -/
theorem mirrors_of_answered {i : Instruction σ β} {g : Graph β} {log : List (Change β)}
    (hids : log.map Change.id = (g.store.spanning g.root).ids)
    (hall : ∀ ch ∈ log, ch.Answered i g.store) :
    Mirrors g log (log.map Change.id).idxOf (graphOf log g.root) := by
  have hreach : ∀ id, id ∈ log.map Change.id ↔ g.store.Reaches g.root id := fun id => by
    rw [hids, g.store.mem_ids_spanning]
  have hnodup : (log.map Change.id).Nodup := hids ▸ g.store.nodup_ids_spanning g.root
  refine ⟨?_, (root_graphOf log g.root).symm, hnodup, fun id hid => ?_, ?_⟩
  · have hset : {id | g.store.Reaches g.root id} = {id | id ∈ log.map Change.id} :=
      Set.ext fun id => (hreach id).symm
    rw [hset, size_graphOf]
    exact bijOn_idxOf hnodup
  · obtain ⟨ch, hch, heq, hat⟩ := get?_graphOf g.root ((hreach id).mpr hid)
    exact ⟨ch.original, ch, heq ▸ (hall ch hch).original, hch, heq, hat⟩
  · intro id tag child hlink
    obtain ⟨ch, hch, b, hb, rfl⟩ := mem_links_graphOf hlink
    have hid : g.store.Reaches g.root ch.id := (hreach _).mp (List.mem_map_of_mem hch)
    have hstep : g.store.Links ch.id b :=
      ⟨tag, Store.mem_links.mpr ⟨ch.original, (hall ch hch).original, hb⟩⟩
    rw [size_graphOf]
    exact List.idxOf_lt_length_of_mem ((hreach b).mpr (Relation.ReflTransGen.tail hid hstep))

theorem mirrors_graphOf {i : Instruction σ β} {g : Graph β} {log : List (Change β)} {st t : σ}
    (h : (changes i g.store (g.store.spanning g.root)).run.run st = (.ok log, t)) :
    Mirrors g log (log.map Change.id).idxOf (graphOf log g.root) := by
  obtain ⟨hids, hall⟩ := run_changes_ok h
  exact mirrors_of_answered hids hall

/-- the draft of a run holds one filled place for each change, in the same order -/
theorem run_editGraph_ok {i : Instruction σ β} {g : Graph β} {root : Nat} {draft : Draft β}
    {st t : σ} (h : (editGraph i g).run.run st = (.ok (root, draft), t)) :
    ∃ log, (changes i g.store (g.store.spanning g.root)).run.run st = (.ok log, t) ∧
      root = (log.map Change.id).idxOf g.root ∧
      draft = Draft.empty.add (log.map Change.id).idxOf log := by
  rw [editGraph_eq_changes, run_map] at h
  rcases hc : (changes i g.store (g.store.spanning g.root)).run.run st with ⟨e | log, u⟩
  · rw [hc] at h; cases h
  · rw [hc] at h
    cases h
    exact ⟨log, rfl, rfl, rfl⟩

/-- no place of such a draft is empty -/
theorem isSome_of_mem_places_add (rename : Nat → Nat) (log : List (Change β)) :
    ∀ p ∈ ((Draft.empty : Draft β).add rename log).places, p.isSome := by
  intro p hp
  rw [Draft.add, Draft.empty, List.nil_append] at hp
  obtain ⟨ch, _, rfl⟩ := List.mem_map.mp hp
  rfl

/-- a run that succeeds is a list of changes, one for each id that the root reaches -/
theorem exists_changes_of_ok {i : Instruction σ β} {g out : Graph β} {globals : Registry}
    {st st' : σ} (h : transform i g globals st = (.ok out, st')) :
    ∃ log : List (Change β), out = graphOf log g.root ∧
      log.map Change.id = (g.store.spanning g.root).ids ∧ ∀ ch ∈ log, ch.Answered i g.store := by
  obtain ⟨_, _, t, u, _, hedit, _, rfl⟩ := run_parts h
  obtain ⟨log, hlog, rfl, rfl⟩ := run_editGraph_ok hedit
  obtain ⟨hids, hanswered⟩ := run_changes_ok hlog
  exact ⟨log, rfl, hids, hanswered⟩

/-- A run that succeeds gives the part of its graph that the root reaches, shared and cyclic links
included, with the templates and bases that the hooks have answered in this run; every place that
was reserved is filled. -/
theorem transform_mirrors (i : Instruction σ β) (g out : Graph β) (globals : Registry)
    (st st' : σ) (h : transform i g globals st = (.ok out, st')) :
    ∃ log draft rename t u,
      (opening i g globals).run.run st = (.ok (), t) ∧
      (changes i g.store (g.store.spanning g.root)).run.run t = (.ok log, u) ∧
      (editGraph i g).run.run t = (.ok (out.root, draft), u) ∧
      (Run.hook (i.event .finish)).run.run u = (.ok (), st') ∧
      (∀ ch ∈ log, ch.Answered i g.store) ∧
      (∀ p ∈ draft.places, p.isSome) ∧
      draft.graph out.root = out ∧ Mirrors g log rename out := by
  obtain ⟨root, draft, t, u, hopen, hedit, hfinish, rfl⟩ := run_parts h
  obtain ⟨log, hlog, rfl, rfl⟩ := run_editGraph_ok hedit
  exact ⟨log, _, _, t, u, hopen, hlog, hedit, hfinish, (run_changes_ok hlog).2,
    isSome_of_mem_places_add _ _, rfl, mirrors_graphOf hlog⟩

/-- two components that link to each other, one of them also to itself and the other to a third,
between them one that nothing links to and whose template does not scan -/
def loopGraph : Graph String :=
  ⟨⟨[⟨"<a/>", Dict.ofList [("x-b", 2), ("x-c", 3)], "a"⟩, ⟨"<i k=v>", Dict.empty, "stray"⟩,
    ⟨"<b/>", Dict.ofList [("x-a", 0), ("x-b", 2)], "b"⟩, ⟨"<c/>", Dict.empty, "c"⟩]⟩, 0⟩

/-- writes into the second tag that it is asked about and gives another base to `c` -/
def markSecond : Instruction Nat String where
  replace _ _ := do
    let n ← get
    set (n + 1)
    pure (if n = 1 then some " x" else none)
  substitute c := pure (if c.base = "c" then some "d" else none)

def loopMarked : Graph String :=
  ⟨⟨[⟨"<a/>", Dict.ofList [("x-b", 1), ("x-c", 2)], "a"⟩,
    ⟨"<b x/>", Dict.ofList [("x-a", 0), ("x-b", 1)], "b"⟩, ⟨"<c/>", Dict.empty, "d"⟩]⟩, 0⟩

theorem transform_mirrors_loop :
    transform markSecond loopGraph Dict.empty 0 = (.ok loopMarked, 3) ∧
      ∃ log rename, Mirrors loopGraph log rename loopMarked := by
  have h : transform markSecond loopGraph Dict.empty 0 = (.ok loopMarked, 3) := by cbv
  obtain ⟨log, _, rename, _, _, _, _, _, _, _, _, _, hmirrors⟩ :=
    transform_mirrors markSecond loopGraph loopMarked Dict.empty 0 3 h
  exact ⟨h, log, rename, hmirrors⟩

end Stencil
