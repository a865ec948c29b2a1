/-!
# Command-line arguments

`--rules FILE` (or `-r`) is required, `--template-only` (`-t`) may be given once and `--verbose`
(`-v`) any number of times; at most one further argument names the manifest.

* `Arguments`         what a command line asks for;
* `Request`           that, or help;
* `Request.ofList?`   the request of a list of arguments, unless they are used wrongly.

Short options may share a dash, and the last of them may have its value right behind it.  Behind
`--` all arguments are plain, and so is `-` anywhere.
-/

namespace Stencil.CommandLine

structure Arguments where
  rules : String
  /-- the manifest file; without one, the manifest is read from standard input -/
  input : Option String
  templateOnly : Bool
  verbose : Nat
  deriving DecidableEq, Repr

inductive Request where
  | run (args : Arguments)
  | help
  deriving DecidableEq, Repr

/-- what the arguments so far have set -/
structure Settings where
  rules : Option String
  input : Option String
  templateOnly : Bool
  verbose : Nat
  deriving DecidableEq, Repr

namespace Settings

def initial : Settings := ⟨none, none, false, 0⟩

def setRules? (s : Settings) (value : String) : Option Settings :=
  if s.rules.isSome || value.isEmpty then none else some { s with rules := some value }

def setInput? (s : Settings) (value : String) : Option Settings :=
  if s.input.isSome || value.isEmpty then none else some { s with input := some value }

def setTemplateOnly? (s : Settings) : Option Settings :=
  if s.templateOnly then none else some { s with templateOnly := true }

def addVerbose (s : Settings) : Settings := { s with verbose := s.verbose + 1 }

def finish? (s : Settings) : Option Request :=
  s.rules.map fun rules => .run ⟨rules, s.input, s.templateOnly, s.verbose⟩

end Settings

/-! ## options -/

/-- what an argument with options comes to -/
inductive Effect where
  /-- new settings -/
  | set (s : Settings)
  /-- the next argument is the value of `--rules` -/
  | rulesNext (s : Settings)
  | help
  | wrong

def Effect.ofOption : Option Settings → Effect
  | some s => .set s
  | none => .wrong

/-- the letters behind a single dash -/
def shortOptions (s : Settings) : List Char → Effect
  | [] => .set s
  | 'r' :: [] => .rulesNext s
  | 'r' :: '=' :: value => .ofOption (s.setRules? (String.ofList value))
  | 'r' :: value => .ofOption (s.setRules? (String.ofList value))
  | 't' :: rest =>
    match s.setTemplateOnly? with
    | some s => shortOptions s rest
    | none => .wrong
  | 'v' :: rest => shortOptions s.addVerbose rest
  | 'h' :: _ => .help
  | _ :: _ => .wrong

def notEqualsSign (c : Char) : Bool := c != '='

/-- the name behind two dashes, with a value behind `=` if there is one -/
def longOption (s : Settings) (text : List Char) : Effect :=
  let name := String.ofList (text.takeWhile notEqualsSign)
  match name, text.dropWhile notEqualsSign with
  | "rules", [] => .rulesNext s
  | "rules", _ :: value => .ofOption (s.setRules? (String.ofList value))
  | "template-only", [] => .ofOption s.setTemplateOnly?
  | "verbose", [] => .set s.addVerbose
  | "help", [] => .help
  | _, _ => .wrong

/-- whether an argument is an option, and so neither a file nor a value -/
def isOption (arg : String) : Bool := arg != "-" && "-".toList.isPrefixOf arg.toList

def option (s : Settings) (arg : String) : Effect :=
  match arg.toList with
  | '-' :: '-' :: text => longOption s text
  | _ :: letters => shortOptions s letters
  | [] => .wrong

/-! ## whole command lines -/

/-- arguments behind `--` -/
def plain (s : Settings) : List String → Option Request
  | [] => s.finish?
  | arg :: r => (s.setInput? arg).bind fun s => plain s r

/-- arguments with options; `awaited` tells that the next one is the value of `--rules` -/
def arguments (awaited : Bool) (s : Settings) : List String → Option Request
  | [] => if awaited then none else s.finish?
  | arg :: r =>
    if awaited then
      if isOption arg then none else (s.setRules? arg).bind fun s => arguments false s r
    else if arg = "--" then plain s r
    else if isOption arg then
      match option s arg with
      | .set s => arguments false s r
      | .rulesNext s => arguments true s r
      | .help => some .help
      | .wrong => none
    else (s.setInput? arg).bind fun s => arguments false s r

/-- what a list of arguments asks for -/
def Request.ofList? (args : List String) : Option Request := arguments false .initial args

end Stencil.CommandLine
