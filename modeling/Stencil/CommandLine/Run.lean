import Stencil.CommandLine.Arguments
import Stencil.Manifest.Graph
import Stencil.Manifest.Text
import Stencil.Report
import Stencil.Rule.Text
import Stencil.Run

/-!
# The command line

The program applies a rule set to the components of a manifest and prints the manifest that comes
out, or only the template of its root.

* `Content`      what is read from a file or from standard input;
* `Outcome`      exit code, output and warnings of a run;
* `applyRules`   the edited graph of a manifest, with the hits of the rules;
* `run`          the whole program, as a function of arguments, files and standard input.

Bad usage exits with 2, any failure with 1 and a message on standard error.  A run that succeeds
warns there of each rule that never matched.
-/

namespace Stencil.CommandLine

structure Outcome where
  exitCode : Nat
  stdout : String
  /-- why there is no output -/
  stderr : String
  /-- lines for the log, which also goes to standard error -/
  warnings : List String
  deriving DecidableEq, Repr

def Outcome.success (stdout : String) (warnings : List String) : Outcome :=
  ⟨0, stdout, "", warnings⟩

def Outcome.failure (stderr : String) : Outcome := ⟨1, "", stderr, []⟩

/-- a text that was read, or why it cannot be read -/
abbrev Content := Except String String

instance : Coe String Content := ⟨.ok⟩

abbrev Files := String → Content

/-- the cause of a failure to read a file that is not there -/
def notFound : String := "No such file or directory (os error 2)"

/-- the text of bytes that were read -/
def Content.ofBytes (bytes : ByteArray) : Content :=
  match String.fromUTF8? bytes with
  | some text => .ok text
  | none => .error "stream did not contain valid UTF-8"

def usage : String := "Usage: [OPTIONS] --rules <FILE> [MANIFEST]"

def help : String := String.join
  ["Applies declarative rules to component templates\n\n", usage, "\n\nOptions:\n",
    "  -r, --rules <FILE>   Rule set to apply\n",
    "  -t, --template-only  Print only the template of the root\n",
    "  -v, --verbose        More messages\n",
    "  -h, --help           Print help\n"]

/-- the name and content of the manifest file, or of standard input -/
def readInput (args : Arguments) (files : Files) (stdin : Content) :
    Except Outcome (String × String) :=
  match args.input with
  | none =>
    match stdin with
    | .ok text => .ok ("<stdin>", text)
    | .error cause => .error (.failure s!"Error reading from stdin: {cause}\n")
  | some path =>
    match files path with
    | .ok text => .ok (path, text)
    | .error cause => .error (.failure s!"Error reading file '{path}': {cause}\n")

/-- the report of a scan error in the template of a component -/
def scanReport (g : Graph Definition) (component : Nat) (e : Markup.ScanError) : String :=
  let shown := ((g.store.get? component).map fun c => (c.base.name, c.template)).getD
    ("<unknown>", "")
  (Report.ofError e shown.2 shown.1).render

def failureText (g : Graph Definition) : RunError → String
  | .scan component e => scanReport g component e
  | e =>
    let cause := e.message
    s!"Error: {cause}\n"

/-- what the rules make of the graph of a manifest, and the hits of each rule -/
def applyRules (rules : RuleSet) (g : Graph Definition) (globals : Registry) :
    Except RunError (Graph Definition) × List Nat :=
  transform (RuleSet.instruction rules.rules) g globals (RuleSet.noHits rules.rules)

/-- the line for the log about a rule without a hit -/
def warning (rule : Nat) : String := s!"rule never matched rule={rule}"

/-- what is printed for the edited graph `out` of a graph `g` -/
def output (templateOnly : Bool) (g out : Graph Definition) (globals : Registry) : String :=
  if templateOnly then
    match out.rootComponent? with
    | some c => c.template ++ "\n"
    | none => ""
  else ((Manifest.ofGraph out).withGlobals g globals).toText

/-- the output and the warnings of a run, or how it fails -/
def execute (args : Arguments) (files : Files) (stdin : Content) :
    Except Outcome (String × List String) := do
  let rules ← (RuleSet.ofFile (files args.rules)).mapError fun e =>
    let path := args.rules
    let cause := e.message
    Outcome.failure s!"Error loading rules '{path}': {cause}\n"
  let (name, text) ← readInput args files stdin
  let inManifest := fun e : Manifest.Error =>
    let cause := e.message
    Outcome.failure s!"Error in manifest '{name}': {cause}\n"
  let manifest ← (Manifest.ofText text).mapError inManifest
  let (g, globals) ← manifest.toGraph.mapError inManifest
  let (result, hits) := applyRules rules g globals
  let out ← result.mapError fun e => Outcome.failure (failureText g e)
  pure (output args.templateOnly g out globals, (unused hits).map warning)

/-- the whole program -/
def run (args : List String) (files : Files) (stdin : Content) : Outcome :=
  match Request.ofList? args with
  | none => ⟨2, "", usage ++ "\n", []⟩
  | some .help => .success help []
  | some (.run args) =>
    match execute args files stdin with
    | .ok (text, warnings) => .success text warnings
    | .error outcome => outcome

end Stencil.CommandLine
