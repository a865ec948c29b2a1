import Stencil.Proofs.Edit.Rescan
import Stencil.Proofs.Markup.Offsets
import Stencil.Proofs.Run.Trace

/-!
# An edit is a splice

An edit asks about every tag and every attribute that a scan finds, in order, and puts the answers
in at the offsets of the scan.

* `ScannedTag.parts`, `ScannedTag.places`   what is asked about a scanned tag, and where it stands;
* `Spliced`               a text with other texts put in at byte offsets;
* `Spliced.unique`        there is only one such text;
* `spliced_putAll`        pieces with answers put in;
* `run_ask_traced_ok`, `run_ask_error`   the calls for a list of parts;
* `edit_splices`          edits of templates.
-/

namespace Stencil.Markup

open Stencil.Text

/-! ## scanned tags -/

/-- what is asked about a scanned tag, in order -/
def ScannedTag.parts (t : ScannedTag) : List Part :=
  .tag t.name t.attributeMap :: t.attributes.map fun a => .attr t.name a.attr t.attributeMap

/-- the bytes from one offset to another -/
structure Span where
  start : Nat
  stop : Nat
  deriving DecidableEq

def SpannedAttribute.place (a : SpannedAttribute) : Span := ⟨a.start, a.stop⟩

/-- the places of the parts of a scanned tag; that of the tag itself is empty -/
def ScannedTag.places (t : ScannedTag) : List Span :=
  ⟨t.insertAt, t.insertAt⟩ :: t.attributes.map SpannedAttribute.place

theorem parts_scanned (offset : Nat) (t : OpeningTag) : (t.scanned offset).parts = t.parts := by
  have hattrs : ∀ f : Attribute → Part, (t.scanned offset).attributes.map (fun a => f a.attr) =
      t.attributes.map fun a => f a.attr := by
    intro f
    have h := congrArg (List.map f) (attrs_spannedFrom (offset + 1 + bytes t.name) t.attributes)
    rw [List.map_map, List.map_map] at h
    exact h
  have hmap : (t.scanned offset).attributeMap = t.attributeMap := by
    rw [ScannedTag.attributeMap, OpeningTag.attributeMap, OpeningTag.scanned, attrs_spannedFrom]
  rw [ScannedTag.parts, hmap]
  exact congrArg (_ :: ·) (hattrs fun attr => .attr t.tagName attr t.attributeMap)

theorem parts_tagsFrom (offset : Nat) (ps : List Piece) :
    (tagsFrom offset ps).flatMap ScannedTag.parts = (openingTags ps).flatMap OpeningTag.parts := by
  induction ps generalizing offset with
  | nil => rfl
  | cons p ps ih =>
    cases p with
    | tag t =>
      show (t.scanned offset).parts ++ (tagsFrom _ ps).flatMap ScannedTag.parts =
        t.parts ++ (openingTags ps).flatMap OpeningTag.parts
      rw [parts_scanned, ih]
    | text run => exact ih _
    | lone => exact ih _
    | broken name => exact ih _

theorem length_spannedFrom (offset : Nat) (l : List AttributeText) :
    (spannedFrom offset l).length = l.length := by
  rw [← List.length_map SpannedAttribute.attr, attrs_spannedFrom, List.length_map]

theorem length_places_scanned (offset : Nat) (t : OpeningTag) :
    (t.scanned offset).places.length = t.parts.length := by
  simp [ScannedTag.places, OpeningTag.parts, OpeningTag.scanned, length_spannedFrom]

/-! ## splices -/

/-- a text to stand in a place -/
structure Patch where
  place : Span
  text : String

/-- the answers for parts in their places -/
def patches (places : List Span) (answers : List (Option String)) : List Patch :=
  (places.zip answers).filterMap fun p => p.2.map (Patch.mk p.1)

/-- `s`, which starts at byte `offset`, with patches put in: each stands in the place of the text
between its offsets, and everything in front of it and behind it stays -/
inductive Spliced : Nat → List Char → List Patch → List Char → Prop
  | rest (offset : Nat) (s : List Char) : Spliced offset s [] s
  | patch {offset : Nat} {s gap old rest out : List Char} {p : Patch} {ps : List Patch}
      (hs : s = gap ++ (old ++ rest)) (hstart : p.place.start = offset + bytes gap)
      (hstop : p.place.stop = p.place.start + bytes old) (h : Spliced p.place.stop rest ps out) :
      Spliced offset s (p :: ps) (gap ++ (p.text.toList ++ out))

theorem Spliced.unique {offset : Nat} {s x y : List Char} {ps : List Patch}
    (h : Spliced offset s ps x) (h' : Spliced offset s ps y) : x = y := by
  induction h generalizing y with
  | rest => cases h'; rfl
  | patch hs hstart hstop _ ih =>
    cases h' with
    | patch hs' hstart' hstop' h' =>
      obtain ⟨rfl, htail⟩ := append_inj_of_bytes (hs.symm.trans hs') (by omega)
      obtain ⟨rfl, rfl⟩ := append_inj_of_bytes htail (by omega)
      rw [ih h']

/-- text in front of a splice -/
theorem Spliced.skip {offset : Nat} {t x : List Char} {ps : List Patch} (s : List Char)
    (h : Spliced (offset + bytes s) t ps x) : Spliced offset (s ++ t) ps (s ++ x) := by
  cases h with
  | rest => exact .rest _ _
  | patch hs hstart hstop h =>
    rw [← List.append_assoc]
    refine .patch ?_ ?_ hstop h
    · rw [hs, List.append_assoc]
    · rw [hstart, bytes_append, Nat.add_assoc]

theorem Spliced.append {offset : Nat} {s t x y : List Char} {ps qs : List Patch}
    (h : Spliced offset s ps x) (h' : Spliced (offset + bytes s) t qs y) :
    Spliced offset (s ++ t) (ps ++ qs) (x ++ y) := by
  induction h with
  | rest offset s => exact h'.skip s
  | patch hs hstart hstop _ ih =>
    rw [List.cons_append, List.append_assoc, List.append_assoc]
    refine .patch ?_ hstart hstop (ih ?_)
    · rw [hs, List.append_assoc, List.append_assoc]
    · rw [hs, bytes_append, bytes_append] at h'
      rw [hstop, hstart]
      simpa only [Nat.add_assoc] using h'

/-- the places of patches are in order -/
theorem Spliced.ordered {offset : Nat} {s x : List Char} {ps : List Patch}
    (h : Spliced offset s ps x) :
    (∀ p ∈ ps, offset ≤ p.place.start) ∧ (ps.map Patch.place).Pairwise (·.stop ≤ ·.start) := by
  induction h with
  | rest => exact ⟨by simp, .nil⟩
  | patch _ hstart hstop _ ih =>
    obtain ⟨hall, hpairs⟩ := ih
    refine ⟨fun q hq => ?_, .cons ?_ hpairs⟩
    · rcases List.mem_cons.mp hq with rfl | hq
      · omega
      · have := hall q hq
        omega
    · intro place hplace
      obtain ⟨q, hq, rfl⟩ := List.mem_map.mp hplace
      exact hall q hq

/-! ## answers put in -/

theorem patches_append {places more : List Span} {answers rest : List (Option String)}
    (h : places.length = answers.length) :
    patches (places ++ more) (answers ++ rest) = patches places answers ++ patches more rest := by
  rw [patches, List.zip_append h, List.filterMap_append]
  rfl

theorem patches_cons (place : Span) (places : List Span) (answer : Option String)
    (answers : List (Option String)) :
    patches (place :: places) (answer :: answers) =
      patches [place] [answer] ++ patches places answers := by
  have hlength : [place].length = [answer].length := rfl
  exact patches_append hlength

theorem patches_declined {places : List Span} {answers : List (Option String)}
    (h : ∀ a ∈ answers, a = none) : patches places answers = [] := by
  refine List.filterMap_eq_nil_iff.mpr fun p hp => ?_
  rw [h p.2 (List.of_mem_zip hp).2]
  rfl

theorem spliced_place (offset : Nat) (old : List Char) (answer : Option String) :
    Spliced offset old (patches [⟨offset, offset + bytes old⟩] [answer])
      (answer.elim old String.toList) := by
  cases answer with
  | none => exact .rest offset old
  | some text =>
    have h : Spliced offset ([] ++ (old ++ [])) [⟨⟨offset, offset + bytes old⟩, text⟩]
        ([] ++ (text.toList ++ [])) := .patch rfl rfl rfl (.rest _ _)
    rw [List.nil_append, List.nil_append, List.append_nil, List.append_nil] at h
    exact h

theorem spliced_attributes (offset : Nat) (l : List AttributeText) {answers : List (Option String)}
    (h : answers.length = l.length) :
    Spliced offset (renderAll l)
      (patches ((spannedFrom offset l).map SpannedAttribute.place) answers)
      (List.zipWith (fun a => answered [a]) l answers).flatten := by
  induction l generalizing offset answers with
  | nil => exact .rest offset []
  | cons a l ih =>
    obtain ⟨answer, answers, rfl⟩ := List.exists_cons_of_length_eq_add_one h
    have hanswered : answered [a] answer = answer.elim a.render String.toList := by
      rw [answered, renderAll_cons]
      exact congrArg (fun text => answer.elim text String.toList) (List.append_nil _)
    rw [renderAll_cons, List.zipWith_cons_cons, List.flatten_cons, hanswered, spannedFrom,
      List.map_cons, patches_cons]
    exact (spliced_place offset a.render answer).append (ih _ (Nat.succ.inj h))

theorem OpeningTag.spliced_put (offset : Nat) (t : OpeningTag) {answers : List (Option String)}
    (h : answers.length = t.parts.length) :
    Spliced offset t.render (patches (t.scanned offset).places answers) (t.put answers) := by
  obtain ⟨inserted, answers, rfl⟩ := List.exists_cons_of_length_eq_add_one h
  have hlength : answers.length = t.attributes.length := by
    simpa [OpeningTag.parts] using h
  have hlt : bytes ('<' :: t.name) = 1 + bytes t.name := rfl
  have hbody : Spliced (offset + bytes ('<' :: t.name)) (renderAll t.attributes ++ t.closing)
      (patches (t.scanned offset).places (inserted :: answers))
      (inserted.elim [] String.toList ++
        ((List.zipWith (fun a => answered [a]) t.attributes answers).flatten ++ t.closing)) := by
    have hattributes := (spliced_attributes (offset + bytes ('<' :: t.name)) t.attributes
      hlength).append (.rest _ t.closing)
    rw [List.append_nil] at hattributes
    have hinserted := spliced_place (offset + bytes ('<' :: t.name)) [] inserted
    have hplaces : (t.scanned offset).places = ⟨offset + bytes ('<' :: t.name),
        offset + bytes ('<' :: t.name)⟩ ::
          (spannedFrom (offset + bytes ('<' :: t.name)) t.attributes).map
            SpannedAttribute.place := by
      rw [hlt, ← Nat.add_assoc]
      rfl
    rw [hplaces, patches_cons]
    exact hinserted.append hattributes
  rw [t.render_eq, t.put_cons]
  exact hbody.skip ('<' :: t.name)

theorem spliced_putAll (offset : Nat) {ps : List Piece} {answers : List (List (Option String))}
    (h : List.Forall₂ (fun t answers => answers.length = t.parts.length) (openingTags ps) answers) :
    Spliced offset (render ps)
      (patches ((tagsFrom offset ps).flatMap ScannedTag.places) answers.flatten)
      (putAll ps answers) := by
  induction ps generalizing offset answers with
  | nil => exact .rest offset []
  | cons p ps ih =>
    rw [render_cons]
    cases p with
    | tag t =>
      replace h : List.Forall₂ _ (t :: openingTags ps) answers := h
      cases h with
      | @cons _ own _ rest hlength hrest =>
        have hplaces : (tagsFrom offset (.tag t :: ps)).flatMap ScannedTag.places =
            (t.scanned offset).places ++
              (tagsFrom (offset + bytes t.render) ps).flatMap ScannedTag.places := rfl
        rw [hplaces, List.flatten_cons,
          patches_append ((length_places_scanned offset t).trans hlength.symm)]
        exact (OpeningTag.spliced_put offset t hlength).append (ih _ hrest)
    | text run => exact (ih _ h).skip run
    | lone => exact (ih _ h).skip ['<']
    | broken name => exact (ih _ h).skip ('<' :: name)

theorem map_place_patches {places : List Span} {answers : List (Option String)}
    (hlength : answers.length = places.length) (h : ∀ a ∈ answers, a ≠ none) :
    (patches places answers).map Patch.place = places := by
  induction places generalizing answers with
  | nil => rfl
  | cons place places ih =>
    obtain ⟨answer, answers, rfl⟩ := List.exists_cons_of_length_eq_add_one hlength
    obtain ⟨hanswer, hrest⟩ := List.forall_mem_cons.mp h
    obtain ⟨text, rfl⟩ := Option.ne_none_iff_exists'.mp hanswer
    rw [patches_cons, List.map_append, ih (Nat.succ.inj hlength) hrest]
    rfl

theorem ScannedTag.length_parts (t : ScannedTag) : t.parts.length = t.places.length := by
  simp [ScannedTag.parts, ScannedTag.places]

theorem length_flatMap_parts (found : List ScannedTag) :
    (found.flatMap ScannedTag.parts).length = (found.flatMap ScannedTag.places).length := by
  rw [List.length_flatMap, List.length_flatMap]
  simp only [ScannedTag.length_parts]

/-- the places of the parts of a template are in order -/
theorem places_ordered (ps : List Piece) :
    ((tagsFrom 0 ps).flatMap ScannedTag.places).Pairwise (·.stop ≤ ·.start) := by
  -- each place is that of a patch, if there is an answer for every part
  have hanswers : List.Forall₂ (fun t answers => answers.length = t.parts.length) (openingTags ps)
      ((openingTags ps).map fun t => t.parts.map fun _ => some "") := by
    rw [List.forall₂_map_right_iff]
    exact List.forall₂_same.mpr fun t _ => List.length_map _
  have hpatches := (spliced_putAll 0 hanswers).ordered.2
  have hflatten : ((openingTags ps).map fun t => t.parts.map fun _ => some "").flatten =
      ((openingTags ps).flatMap OpeningTag.parts).map fun _ => some "" := by
    rw [List.map_flatMap, List.flatMap]
  rw [hflatten, map_place_patches] at hpatches
  · exact hpatches
  · rw [List.length_map, ← parts_tagsFrom 0, length_flatMap_parts]
  · simp

theorem mapM_flatMap {m : Type → Type} [Monad m] [LawfulMonad m] {α γ δ : Type} (f : α → List γ)
    (g : γ → m δ) (l : List α) :
    (l.flatMap f).mapM g = List.flatten <$> l.mapM fun a => (f a).mapM g := by
  induction l with
  | nil => simp
  | cons a l ih => simp [List.mapM_cons, ih]

end Stencil.Markup

namespace Stencil

open Stencil.Markup

variable {σ β : Type}

/-! ## calls -/

/-- the answers of an instruction for a list of parts, one after the other -/
def Instruction.ask (i : Instruction σ β) (c : Component β) (parts : List Part) :
    Hook σ (List (Option String)) :=
  parts.mapM fun part => i.replace part c

theorem run_mapM_cons_ok {ε α γ : Type} {f : α → ExceptT ε (StateM σ) γ} {a : α} {l : List α}
    {cs : List γ} {st u : σ} (h : ((a :: l).mapM f).run.run st = (.ok cs, u)) :
    ∃ b t bs, (f a).run.run st = (.ok b, t) ∧ (l.mapM f).run.run t = (.ok bs, u) ∧
      b :: bs = cs := by
  rw [List.mapM_cons] at h
  obtain ⟨b, t, hb, h⟩ := run_bind_ok h
  obtain ⟨bs, v, hbs, h⟩ := run_bind_ok h
  cases h
  exact ⟨b, t, bs, hb, hbs, rfl⟩

/-- a list of steps that succeeds, step by step -/
theorem forall₂_of_run_mapM_ok {ε α γ : Type} {f : α → ExceptT ε (StateM σ) γ} {R : α → γ → Prop}
    (hR : ∀ a st b t, (f a).run.run st = (.ok b, t) → R a b) {l : List α} {bs : List γ} {st t : σ}
    (h : (l.mapM f).run.run st = (.ok bs, t)) : List.Forall₂ R l bs := by
  induction l generalizing st bs with
  | nil => cases h; exact .nil
  | cons a l ih =>
    obtain ⟨b, u, bs, hb, hbs, rfl⟩ := run_mapM_cons_ok h
    exact .cons (hR a st b u hb) (ih hbs)

theorem length_of_run_mapM_ok {ε α γ : Type} {f : α → ExceptT ε (StateM σ) γ} {l : List α}
    {bs : List γ} {st t : σ} (h : (l.mapM f).run.run st = (.ok bs, t)) : bs.length = l.length := by
  have hsteps : List.Forall₂ (fun _ _ => True) l bs :=
    forall₂_of_run_mapM_ok (fun _ _ _ _ _ => trivial) h
  exact hsteps.length_eq.symm

variable {i : Instruction σ β} {c : Component β}

/-- there are answers if no call fails -/
theorem exists_ask {parts : List Part}
    (hi : ∀ part ∈ parts, ∀ st, ∃ answer t, (i.replace part c).run.run st = (.ok answer, t))
    (st : σ) : ∃ answers t, (i.ask c parts).run.run st = (.ok answers, t) := by
  have hsure : ∀ part ∈ parts, ∀ st, ∃ answer t,
      (i.replace part c).run.run st = (.ok answer, t) ∧ True :=
    fun part hpart st => (hi part hpart st).imp fun _ => Exists.imp fun _ h => ⟨h, trivial⟩
  obtain ⟨answers, t, h, _⟩ := run_mapM_ok hsure st
  exact ⟨answers, t, h⟩

theorem run_replace_traced (part : Part) (st : σ) (log : List (Call β)) :
    (i.traced.replace part c).run.run (st, log) =
      (((i.replace part c).run.run st).1, ((i.replace part c).run.run st).2,
        log ++ [.replace part c]) := rfl

/-- a traced instruction gives the same answers and adds one call for each part -/
theorem run_ask_traced_ok {parts : List Part} {st t : σ} {answers : List (Option String)}
    (h : (i.ask c parts).run.run st = (.ok answers, t)) (log : List (Call β)) :
    (i.traced.ask c parts).run.run (st, log) =
      (.ok answers, t, log ++ parts.map fun part => .replace part c) := by
  induction parts generalizing st answers log with
  | nil =>
    cases h
    rw [List.map_nil, List.append_nil]
    rfl
  | cons part parts ih =>
    obtain ⟨answer, u, answers, hanswer, hanswers, rfl⟩ := run_mapM_cons_ok h
    have hcall : (i.traced.replace part c).run.run (st, log) =
        (.ok answer, u, log ++ [.replace part c]) := by
      rw [run_replace_traced, hanswer]
    rw [List.map_cons, List.append_cons]
    exact run_mapM_cons hcall (ih hanswers _)

/-- the call that a list of parts fails with -/
theorem run_ask_error {parts : List Part} {st t : σ} {text : String}
    (h : (i.ask c parts).run.run st = (.error text, t)) :
    ∃ before part after answers u, parts = before ++ part :: after ∧
      (i.ask c before).run.run st = (.ok answers, u) ∧
      (i.replace part c).run.run u = (.error text, t) := by
  induction parts generalizing st with
  | nil => cases h
  | cons part parts ih =>
    rw [Instruction.ask, List.mapM_cons, run_bind] at h
    rcases hcall : (i.replace part c).run.run st with ⟨e | answer, u⟩
    · rw [hcall] at h
      cases h
      exact ⟨[], part, parts, [], st, rfl, rfl, hcall⟩
    · rw [hcall] at h
      simp only at h
      rw [run_bind] at h
      rcases hrest : (parts.mapM fun part => i.replace part c).run.run u with ⟨e | answers, v⟩
      · rw [hrest] at h
        cases h
        obtain ⟨before, part', after, answers, w, rfl, hbefore, hfailed⟩ := ih hrest
        exact ⟨part :: before, part', after, answer :: answers, w, rfl,
          run_mapM_cons hcall hbefore, hfailed⟩
      · rw [hrest] at h
        cases h

theorem run_ask_failed {before after : List Part} {part : Part} {answers : List (Option String)}
    {st t u : σ} {text : String} (hbefore : (i.ask c before).run.run st = (.ok answers, u))
    (hfailed : (i.replace part c).run.run u = (.error text, t)) :
    (i.ask c (before ++ part :: after)).run.run st = (.error text, t) := by
  rw [Instruction.ask] at hbefore
  rw [Instruction.ask, List.mapM_append, run_bind, hbefore]
  simp only
  rw [run_bind, List.mapM_cons, run_bind, hfailed]

/-! ## edits -/

theorem run_editTemplate_of_ask_ok {template : String} {ps : List Piece} {st t : σ}
    {answers : List (Option String)} (hps : parse template = .ok ps)
    (h : (i.ask c ((openingTags ps).flatMap OpeningTag.parts)).run.run st = (.ok answers, t)) :
    ∃ out, (editTemplate i c template).run.run st = (.ok out, t) ∧
      Spliced 0 (render ps) (patches ((tagsFrom 0 ps).flatMap ScannedTag.places) answers)
        out.toList := by
  rw [Instruction.ask, mapM_flatMap, run_map] at h
  rcases hall : (askAll (fun part => i.replace part c) ps).run.run st with ⟨e | nested, u⟩
  · rw [← askAll, hall] at h
    cases h
  · rw [← askAll, hall] at h
    cases h
    refine ⟨_, run_editTemplate_ok hps hall, ?_⟩
    have hlengths : List.Forall₂ (fun t answers => answers.length = t.parts.length)
        (openingTags ps) nested := by
      refine forall₂_of_run_mapM_ok (fun t st answers u h => ?_) hall
      exact length_of_run_mapM_ok h
    rw [String.toList_ofList]
    exact spliced_putAll 0 hlengths

theorem run_editTemplate_of_ask_error {template : String} {ps : List Piece} {st t : σ}
    {text : String} (hps : parse template = .ok ps)
    (h : (i.ask c ((openingTags ps).flatMap OpeningTag.parts)).run.run st = (.error text, t)) :
    (editTemplate i c template).run.run st = (.error (.instruction text), t) := by
  rw [Instruction.ask, mapM_flatMap, ← askAll, run_map] at h
  rw [editTemplate, hps]
  simp only
  rw [run_adapt, edit_eq_map, run_map]
  rcases hall : (askAll (fun part => i.replace part c) ps).run.run st with ⟨e | nested, u⟩
  · rw [hall] at h
    cases h
    rfl
  · rw [hall] at h
    cases h

/-- An edit calls `replace` for every tag and every attribute that the scan finds, in order, and
for nothing else.  Each part has the attributes that its tag has in the template.  The answers stand
in the places of the parts, and all other text stays as it is; without answers this is the template.
There is no text if the template does not scan, and no call then; nor is there if a call fails. -/
theorem edit_splices (i : Instruction σ β) (c : Component β) (template : String) :
    (∀ e, scan template = .error e → ∀ st log,
      (editTemplate i.traced c template).run.run (st, log) = (.error (.scan e), st, log)) ∧
    ∀ found, scan template = .ok found →
      (found.flatMap ScannedTag.places).Pairwise (·.stop ≤ ·.start) ∧
      ((∀ part ∈ found.flatMap ScannedTag.parts, ∀ st, ∃ answer t,
          (i.replace part c).run.run st = (.ok answer, t)) →
        ∀ st, ∃ answers t,
          (i.ask c (found.flatMap ScannedTag.parts)).run.run st = (.ok answers, t)) ∧
      (∀ st answers t,
        (i.ask c (found.flatMap ScannedTag.parts)).run.run st = (.ok answers, t) →
        answers.length = (found.flatMap ScannedTag.places).length ∧
        ∃ out, (editTemplate i c template).run.run st = (.ok out, t) ∧
          (∀ log, (editTemplate i.traced c template).run.run (st, log) = (.ok out, t,
            log ++ (found.flatMap ScannedTag.parts).map fun part => .replace part c)) ∧
          (∀ text, Spliced 0 template.toList
            (patches (found.flatMap ScannedTag.places) answers) text ↔ text = out.toList) ∧
          ((∀ a ∈ answers, a = none) → out = template)) ∧
      ∀ st text t,
        (i.ask c (found.flatMap ScannedTag.parts)).run.run st = (.error text, t) →
        ∃ before part after answers u, found.flatMap ScannedTag.parts = before ++ part :: after ∧
          (i.ask c before).run.run st = (.ok answers, u) ∧
          (i.replace part c).run.run u = (.error text, t) ∧
          (editTemplate i c template).run.run st = (.error (.instruction text), t) ∧
          ∀ log, (editTemplate i.traced c template).run.run (st, log) =
            (.error (.instruction text), t,
              log ++ (before ++ [part]).map fun part => .replace part c) := by
  refine ⟨fun e he st log => ?_, fun found hfound => ?_⟩
  · rw [editTemplate, scan_error_iff.mp he]
    rfl
  obtain ⟨ps, hsplits, rfl⟩ := scan_ok_iff.mp hfound
  have hps := parse_ok_iff.mpr hsplits
  rw [parts_tagsFrom]
  refine ⟨places_ordered ps, exists_ask, fun st answers t hanswers => ?_,
    fun st text t hfailed => ?_⟩
  · obtain ⟨out, hout, hspliced⟩ := run_editTemplate_of_ask_ok hps hanswers
    rw [hsplits.2] at hspliced
    have hlength : answers.length = ((tagsFrom 0 ps).flatMap ScannedTag.places).length := by
      rw [← length_flatMap_parts, parts_tagsFrom]
      exact length_of_run_mapM_ok hanswers
    refine ⟨hlength, out, hout, fun log => ?_,
      fun text => ⟨fun h => h.unique hspliced, ?_⟩, fun hnone => ?_⟩
    · obtain ⟨out', hout', hspliced'⟩ :=
        run_editTemplate_of_ask_ok hps (run_ask_traced_ok hanswers log)
      rw [hsplits.2] at hspliced'
      rw [hout', String.toList_injective (hspliced'.unique hspliced)]
    · rintro rfl
      exact hspliced
    · rw [patches_declined hnone] at hspliced
      exact String.toList_injective (hspliced.unique (.rest 0 template.toList))
  · obtain ⟨before, part, after, answers, u, hparts, hbefore, hcall⟩ := run_ask_error hfailed
    refine ⟨before, part, after, answers, u, hparts, hbefore, hcall,
      run_editTemplate_of_ask_error hps hfailed, fun log => ?_⟩
    have htraced : (i.traced.replace part c).run.run
        (u, log ++ before.map fun part => .replace part c) =
          (.error text, t, (log ++ before.map fun part => .replace part c) ++ [.replace part c]) := by
      rw [run_replace_traced, hcall]
    refine run_editTemplate_of_ask_error hps ?_
    rw [hparts, run_ask_failed (run_ask_traced_ok hbefore log) htraced, List.map_append,
      List.append_assoc]
    rfl

/-- a text that is put in where another one is deleted, and a key that occurs twice -/
theorem edit_splices_stamped :
    scan "é<b x=\"1\" x y/>" = .ok [⟨"b", 4,
      [⟨⟨"x", some "\"1\""⟩, 4, 10⟩, ⟨⟨"x", none⟩, 10, 12⟩, ⟨⟨"y", none⟩, 12, 14⟩]⟩] ∧
    (editTemplate stamping bare "é<b x=\"1\" x y/>").run.run 0 =
      (.ok "é<b k=\"</>\" y/>", 4) ∧
    Spliced 0 "é<b x=\"1\" x y/>".toList
      [⟨⟨4, 4⟩, " k=\"</>\""⟩, ⟨⟨4, 10⟩, ""⟩, ⟨⟨10, 12⟩, ""⟩] "é<b k=\"</>\" y/>".toList := by
  have hscan : scan "é<b x=\"1\" x y/>" = .ok [⟨"b", 4,
      [⟨⟨"x", some "\"1\""⟩, 4, 10⟩, ⟨⟨"x", none⟩, 10, 12⟩, ⟨⟨"y", none⟩, 12, 14⟩]⟩] := by
    decide +kernel
  have hrun : (editTemplate stamping bare "é<b x=\"1\" x y/>").run.run 0 =
      (.ok "é<b k=\"</>\" y/>", 4) := by
    have hparse : parse "é<b x=\"1\" x y/>" = .ok [.text ['é'], .tag ⟨['b'],
        [⟨[' '], ['x'], some ⟨[], [], ['"', '1', '"']⟩⟩, ⟨[' '], ['x'], none⟩,
          ⟨[' '], ['y'], none⟩], [], .slash⟩, .text ['>']] := by decide +kernel
    rw [editTemplate, hparse]
    rfl
  obtain ⟨_, _, hedit, _⟩ := (edit_splices stamping bare _).2 _ hscan
  obtain ⟨_, out, hout, _, hspliced, _⟩ :=
    hedit 0 [some " k=\"</>\"", some "", some "", none] 4 rfl
  rw [hrun] at hout
  cases hout
  exact ⟨hscan, hrun, (hspliced _).mpr rfl⟩

end Stencil
