import Stencil.CommandLine.Run
import Stencil.Proofs.Manifest.Globals
import Stencil.Proofs.Manifest.RoundTrip
import Stencil.Proofs.Run.Canonical

/-!
# The two outputs of the command line

With `--template-only` the program looks up the root of the edited graph by its id, and without it
the graph goes through its names.  Both are told the same.

* `sound_applyRules`      rules keep the names of components, and all ids in the store;
* `component?_root`       the root of a graph by its name in a manifest of the graph;
* `written?`              the manifest that the program prints;
* `execute_agrees`        all failures come before the output is chosen;
* `run_templateOnly`      the two outputs.
-/

namespace Stencil

open Stencil.Manifest Stencil.CommandLine

/-! ## names of edited components -/

section
variable {g : Graph Definition} {log : List (Change Definition)}

theorem names_graphOf (root : Nat) (horiginal : ∀ ch ∈ log, g.store.get? ch.id = some ch.original)
    (hbase : ∀ ch ∈ log, ch.base = none) :
    (graphOf log root).store.names = (log.map Change.id).map (nameOf g.store) := by
  rw [Store.names, components_graphOf, List.map_map, List.map_map]
  refine List.map_congr_left fun ch hch => ?_
  show (ch.base.getD ch.original.base).name = nameOf g.store ch.id
  rw [hbase ch hch, nameOf_of_get? (horiginal ch hch)]
  rfl

theorem Graph.Sound.nameOf_inj (hg : g.Sound) {a b : Nat} (ha : a < g.store.size)
    (hb : b < g.store.size) (h : nameOf g.store a = nameOf g.store b) : a = b := by
  rw [← idxOf_nameOf hg.names ha [], h, idxOf_nameOf hg.names hb []]

/-- edits that keep the bases give a graph with all ids in its store and with distinct names -/
theorem sound_graphOf (hg : g.Sound) (hids : log.map Change.id = (g.store.spanning g.root).ids)
    (horiginal : ∀ ch ∈ log, g.store.get? ch.id = some ch.original)
    (hbase : ∀ ch ∈ log, ch.base = none) : (graphOf log g.root).Sound where
  root := by
    rw [root_graphOf, size_graphOf]
    exact List.idxOf_lt_length_of_mem (root_mem_ids hids)
  children := by
    intro c hc id hid
    obtain ⟨a, ha⟩ := List.getElem?_of_mem hc
    obtain ⟨⟨tag, child⟩, hlink, rfl⟩ := List.mem_map.mp hid
    exact lt_size_graphOf hids horiginal (Store.mem_links.mpr ⟨c, ha, hlink⟩)
  names := by
    have hlt : ∀ a ∈ log.map Change.id, a < g.store.size := by
      intro a ha
      obtain ⟨ch, hch, rfl⟩ := List.mem_map.mp ha
      exact (List.getElem?_eq_some_iff.mp (horiginal ch hch)).1
    have hnodup : (log.map Change.id).Nodup := hids ▸ g.store.nodup_ids_spanning g.root
    rw [names_graphOf g.root horiginal hbase]
    exact hnodup.map_on fun a ha b hb => hg.nameOf_inj (hlt a ha) (hlt b hb)

end

theorem sound_applyRules {rules : RuleSet} {g out : Graph Definition} {globals : Registry}
    (hg : g.Sound) (h : (applyRules rules g globals).1 = .ok out) : out.Sound := by
  have hrun : transform (RuleSet.instruction rules.rules) g globals
      (RuleSet.noHits rules.rules) = (.ok out, (applyRules rules g globals).2) := Prod.ext h rfl
  obtain ⟨log, rfl, hids, hall⟩ := exists_changes_of_ok hrun
  refine sound_graphOf hg hids (fun ch hch => (hall ch hch).original) fun ch hch => ?_
  obtain ⟨st, t, hbase⟩ := (hall ch hch).base
  exact (Except.ok.inj (Prod.mk.inj hbase).1).symm

/-! ## the root by its name -/

theorem find?_name {l : List Entry} (h : (l.map Entry.name).Nodup) {e : Entry} (he : e ∈ l) :
    l.find? (fun d => d.name == e.name) = some e := by
  cases hfind : l.find? (fun d => d.name == e.name) with
  | none => exact absurd (beq_self_eq_true e.name) (List.find?_eq_none.mp hfind e he)
  | some d =>
    have hsome := List.find?_some hfind
    rw [List.inj_on_of_nodup_map h (List.mem_of_find?_eq_some hfind) he (beq_iff_eq.mp hsome)]

/-- the root of a graph is found by its name in a manifest of the graph, also with copies -/
theorem component?_root {out source : Graph Definition} {globals : Registry} {m : Manifest}
    {copied : List (Component Definition)} (h : Joins out source globals m copied)
    (hout : out.Sound) :
    ∃ c, out.rootComponent? = some c ∧ m.component? m.root = some (entryOf out.store c) := by
  obtain ⟨c, hget, hname⟩ := exists_get? hout.root
  have hnodup : ((out.store.components.map (entryOf out.store)).map Entry.name).Nodup := by
    rw [List.map_map]
    exact hout.names
  have hmem : entryOf out.store c ∈ out.store.components.map (entryOf out.store) :=
    List.mem_map_of_mem (List.mem_of_getElem? hget)
  refine ⟨c, hget, ?_⟩
  rw [component?, h.components, h.root, hname, List.find?_append]
  exact congrArg (Option.or · _) (find?_name hnodup hmem)

end Stencil

namespace Stencil.CommandLine

/-! ## runs -/

/-- the manifest that a command line asks for, if nothing fails -/
def written? (args : Arguments) (files : Files) (stdin : Content) : Option Manifest := do
  let rules ← (RuleSet.ofFile (files args.rules)).toOption
  let (_, text) ← (readInput args files stdin).toOption
  let m ← (Manifest.ofText text).toOption
  let (g, globals) ← m.toGraph.toOption
  let out ← (applyRules rules g globals).1.toOption
  pure ((Manifest.ofGraph out).withGlobals g globals)

/-- whether runs for both outputs fail in the same way, or have results with `P` -/
def Agrees {α : Type} (x : Bool → Except Outcome α) (P : (Bool → α) → Prop) : Prop :=
  (∃ cause, ∀ templateOnly, x templateOnly = .error (.failure cause)) ∨
    ∃ results, (∀ templateOnly, x templateOnly = .ok (results templateOnly)) ∧ P results

/-- a step that does not depend on the output -/
theorem Agrees.bind {α δ : Type} {x : Except Outcome α} {f : Bool → α → Except Outcome δ}
    {P : (Bool → δ) → Prop} (hx : ∀ o, x = .error o → ∃ cause, o = .failure cause)
    (hf : ∀ a, x = .ok a → Agrees (fun templateOnly => f templateOnly a) P) :
    Agrees (fun templateOnly => x >>= f templateOnly) P := by
  cases x with
  | error o =>
    obtain ⟨cause, rfl⟩ := hx o rfl
    exact .inl ⟨cause, fun _ => rfl⟩
  | ok a => exact hf a rfl

theorem mapError_failure {ε α : Type} {x : Except ε α} {f : ε → String} (o : Outcome)
    (h : (x.mapError fun e => Outcome.failure (f e)) = .error o) : ∃ cause, o = .failure cause := by
  cases x with
  | error e => exact ⟨f e, (Except.error.inj h).symm⟩
  | ok a => cases h

theorem eq_ok_of_mapError {ε δ α : Type} {x : Except ε α} {f : ε → δ} {a : α}
    (h : x.mapError f = .ok a) : x = .ok a := by
  cases x with
  | error e => cases h
  | ok b => exact congrArg Except.ok (Except.ok.inj h)

theorem readInput_failure {args : Arguments} {files : Files} {stdin : Content} (o : Outcome)
    (h : readInput args files stdin = .error o) : ∃ cause, o = .failure cause := by
  unfold readInput at h
  split at h
  · split at h
    · cases h
    · exact ⟨_, (Except.error.inj h).symm⟩
  · split at h
    · cases h
    · exact ⟨_, (Except.error.inj h).symm⟩

/-- all failures come before the output is chosen, and the warnings do not depend on it -/
theorem execute_agrees (rules : String) (input : Option String) (verbose : Nat) (files : Files)
    (stdin : Content) :
    Agrees (fun templateOnly => execute ⟨rules, input, templateOnly, verbose⟩ files stdin)
      fun results => ∃ g out globals warnings, out.Sound ∧
        (∀ id ∈ globals.values, id < g.store.size) ∧
        written? ⟨rules, input, false, verbose⟩ files stdin =
          some ((Manifest.ofGraph out).withGlobals g globals) ∧
        ∀ templateOnly, results templateOnly = (output templateOnly g out globals, warnings) := by
  have hread : ∀ templateOnly, readInput ⟨rules, input, templateOnly, verbose⟩ files stdin =
      readInput ⟨rules, input, false, verbose⟩ files stdin := fun _ => rfl
  unfold execute
  simp only [hread]
  refine .bind mapError_failure fun set hset => ?_
  refine .bind readInput_failure fun found hinput => ?_
  refine .bind mapError_failure fun m hm => ?_
  refine .bind mapError_failure fun built hbuilt => ?_
  refine .bind mapError_failure fun out hout => ?_
  obtain ⟨hsound, hglobals⟩ := Manifest.sound_of_toGraph (eq_ok_of_mapError hbuilt)
  have hout := eq_ok_of_mapError hout
  refine .inr ⟨_, fun _ => rfl, built.1, out, built.2, _, sound_applyRules hsound hout, hglobals,
    ?_, fun _ => rfl⟩
  simp only [written?, eq_ok_of_mapError hset, hinput, eq_ok_of_mapError hm,
    eq_ok_of_mapError hbuilt, hout, Except.toOption, Option.bind_eq_bind, Option.bind_some,
    Option.pure_def]

theorem run_of_ok {args : List String} {a : Arguments} {files : Files} {stdin : Content}
    {text : String} {warnings : List String} (hargs : Request.ofList? args = some (.run a))
    (h : execute a files stdin = .ok (text, warnings)) :
    run args files stdin = .success text warnings := by
  rw [run, hargs]
  simp only [h]

theorem run_of_error {args : List String} {a : Arguments} {files : Files} {stdin : Content}
    {o : Outcome} (hargs : Request.ofList? args = some (.run a))
    (h : execute a files stdin = .error o) : run args files stdin = o := by
  rw [run, hargs]
  simp only [h]

/-- Two command lines that differ only in `--template-only` have the same exit code and the same
warnings, and the same message if they fail.  If not, the text with `--template-only` is the
template of the root of the manifest that the other text reads back as, and a line break.  Of that
text it is only used that the manifest which is written reads back from it. -/
theorem run_templateOnly {args args' : List String} {rules : String} {input : Option String}
    (hargs : Request.ofList? args = some (.run ⟨rules, input, false, 0⟩))
    (hargs' : Request.ofList? args' = some (.run ⟨rules, input, true, 0⟩)) (files : Files)
    (stdin : Content)
    (hback : ∀ m ∈ written? ⟨rules, input, false, 0⟩ files stdin,
      Manifest.ofText m.toText = .ok m) :
    (run args' files stdin).exitCode = (run args files stdin).exitCode ∧
    (run args' files stdin).warnings = (run args files stdin).warnings ∧
    ((run args files stdin).exitCode ≠ 0 →
      (run args' files stdin).stderr = (run args files stdin).stderr ∧
      (run args files stdin).stdout = "" ∧ (run args' files stdin).stdout = "" ∧
      (run args files stdin).warnings = []) ∧
    ((run args files stdin).exitCode = 0 →
      ∃ m e, written? ⟨rules, input, false, 0⟩ files stdin = some m ∧
        Manifest.ofText (run args files stdin).stdout = .ok m ∧
        m.component? m.root = some e ∧
        (run args' files stdin).stdout = e.template ++ "\n") := by
  rcases execute_agrees rules input 0 files stdin with ⟨cause, hfailed⟩ |
    ⟨results, hdone, g, out, globals, warnings, hsound, hglobals, hwritten, hresults⟩
  · rw [run_of_error hargs (hfailed false), run_of_error hargs' (hfailed true)]
    refine ⟨rfl, rfl, fun _ => ⟨rfl, rfl, rfl, rfl⟩, fun h => ?_⟩
    cases h
  · have hexecute : ∀ templateOnly, execute ⟨rules, input, templateOnly, 0⟩ files stdin =
        .ok (output templateOnly g out globals, warnings) := fun templateOnly =>
      (hdone templateOnly).trans (congrArg Except.ok (hresults templateOnly))
    rw [run_of_ok hargs (hexecute false), run_of_ok hargs' (hexecute true)]
    refine ⟨rfl, rfl, fun h => absurd rfl h, fun _ => ?_⟩
    obtain ⟨copied, hjoins⟩ := Manifest.exists_joins out hglobals
    obtain ⟨c, hroot, hentry⟩ := component?_root hjoins hsound
    refine ⟨_, _, hwritten, hback _ hwritten, hentry, ?_⟩
    show output true g out globals = c.template ++ "\n"
    rw [output, hroot]
    rfl

/-! ## a rule without a hit, and a global component that the root does not reach -/

def sampleFiles : Files := fun path =>
  if path = "r" then .ok "[[rule]]\ninsert = \" x\"\n[[rule]]\ntags = [\"p\"]\nremove = [\"y\"]\n"
  else if path = "m" then
    .ok ("root = \"a\"\n[[component]]\nname = \"g\"\n[[component]]\nname = \"a\"\n" ++
      "template = \"<b/>\"\n[[global]]\ntag = \"t\"\ncomponent = \"g\"\n")
  else .error notFound

def sampleGraph : Graph Definition :=
  ⟨⟨[.leaf "" ⟨"g", []⟩, .leaf "<b/>" ⟨"a", []⟩]⟩, 1⟩

def samplePrinted : Manifest :=
  ⟨"a", [⟨"a", "<b x/>", [], []⟩, ⟨"g", "", [], []⟩], [⟨"t", "g"⟩]⟩

set_option maxRecDepth 20000 in
theorem ofText_samplePrinted : Manifest.ofText samplePrinted.toText = .ok samplePrinted := by
  have htext : samplePrinted.toText =
      "root = \"a\"\n\n[[component]]\nname = \"a\"\ntemplate = \"<b x/>\"\n\n[[component]]\n" ++
      "name = \"g\"\ntemplate = \"\"\n\n[[global]]\ntag = \"t\"\ncomponent = \"g\"\n" := by
    decide +kernel
  rw [htext]
  cbv

set_option maxRecDepth 20000 in
/-- what the sample goes through -/
theorem steps_sample : ∃ set text m globals out,
    RuleSet.ofFile (sampleFiles "r") = .ok set ∧
    readInput ⟨"r", some "m", false, 0⟩ sampleFiles "" = .ok ("m", text) ∧
    Manifest.ofText text = .ok m ∧ m.toGraph = .ok (sampleGraph, globals) ∧
    applyRules set sampleGraph globals = (.ok out, [1, 0]) ∧
    (Manifest.ofGraph out).withGlobals sampleGraph globals = samplePrinted := by
  refine ⟨⟨none, none, [⟨[], some " x", [], [], Dict.empty, none⟩,
      ⟨["p"], none, ["y"], [], Dict.empty, none⟩]⟩, _,
    ⟨"a", [⟨"g", "", [], []⟩, ⟨"a", "<b/>", [], []⟩], [⟨"t", "g"⟩]⟩, Dict.ofList [("t", 0)],
    ⟨⟨[.leaf "<b x/>" ⟨"a", []⟩]⟩, 0⟩, ?_, rfl, ?_, ?_, ?_, ?_⟩ <;> cbv

theorem run_templateOnly_sample :
    Request.ofList? ["--rules", "r", "m"] = some (.run ⟨"r", some "m", false, 0⟩) ∧
    Request.ofList? ["-tr", "r", "m"] = some (.run ⟨"r", some "m", true, 0⟩) ∧
    (run ["--rules", "r", "m"] sampleFiles "").exitCode = 0 ∧
    (run ["-tr", "r", "m"] sampleFiles "").exitCode = 0 ∧
    Manifest.ofText (run ["--rules", "r", "m"] sampleFiles "").stdout = .ok samplePrinted ∧
    (run ["-tr", "r", "m"] sampleFiles "").stdout = "<b x/>\n" ∧
    (run ["-tr", "r", "m"] sampleFiles "").warnings = ["rule never matched rule=1"] := by
  have hargs : Request.ofList? ["--rules", "r", "m"] =
      some (.run ⟨"r", some "m", false, 0⟩) := by decide +kernel
  have hargs' : Request.ofList? ["-tr", "r", "m"] =
      some (.run ⟨"r", some "m", true, 0⟩) := by decide +kernel
  obtain ⟨set, text, m, globals, out, hset, hinput, hm, hgraph, hout, hprinted⟩ := steps_sample
  have hwritten : written? ⟨"r", some "m", false, 0⟩ sampleFiles "" = some samplePrinted := by
    simp only [written?, hset, hinput, hm, hgraph, hout, hprinted, Except.toOption,
      Option.bind_eq_bind, Option.bind_some, Option.pure_def]
  have hback : ∀ n ∈ written? ⟨"r", some "m", false, 0⟩ sampleFiles "",
      Manifest.ofText n.toText = .ok n := by
    rw [hwritten]
    rintro n ⟨⟩
    exact ofText_samplePrinted
  have hexecute : execute ⟨"r", some "m", false, 0⟩ sampleFiles "" =
      .ok (output false sampleGraph out globals, ["rule never matched rule=1"]) := by
    simp only [execute, hset, hinput, hm, hgraph, hout, Except.mapError, bind, Except.bind, pure,
      Except.pure]
    rfl
  obtain ⟨hcode, hwarned, _, hsuccess⟩ := run_templateOnly hargs hargs' sampleFiles "" hback
  have hzero : (run ["--rules", "r", "m"] sampleFiles "").exitCode = 0 := by
    rw [run_of_ok hargs hexecute]
    rfl
  have hlines : (run ["--rules", "r", "m"] sampleFiles "").warnings =
      ["rule never matched rule=1"] := by
    rw [run_of_ok hargs hexecute]
    rfl
  obtain ⟨n, e, hn, hread, he, hshort⟩ := hsuccess hzero
  rw [hwritten] at hn
  cases hn
  cases he
  exact ⟨hargs, hargs', hzero, hcode.trans hzero, hread, hshort, hwarned.trans hlines⟩

end Stencil.CommandLine
