import Stencil.CommandLine.Run

/-!
# The program

Reads the files that the arguments name, and standard input if they name no manifest.  The log
has neither times nor a filter here.
-/

namespace Stencil.CommandLine

def read (bytes : IO ByteArray) : IO Content := do
  try
    return .ofBytes (← bytes)
  catch
    | .noFileOrDirectory .. => return .error notFound
    | e => return .error (toString e)

def readFile (path : String) : IO Content := read (IO.FS.readBinFile path)

def readStdin : IO Content := read do (← IO.getStdin).readBinToEnd

/-- the content of the files at the given paths; other files are not there -/
def readFiles (paths : List String) : IO Files := do
  let contents ← paths.mapM fun path => return (path, ← readFile path)
  return fun path => (contents.lookup path).getD (.error notFound)

end Stencil.CommandLine

open Stencil.CommandLine in
def main (args : List String) : IO UInt32 := do
  let (paths, readsInput) := match Request.ofList? args with
    | some (.run a) => (a.rules :: a.input.toList, a.input.isNone)
    | _ => ([], false)
  let files ← readFiles paths
  let stdin ← if readsInput then readStdin else pure ""
  let outcome := run args files stdin
  outcome.warnings.forM fun line => IO.eprintln ("WARN " ++ line)
  IO.print outcome.stdout
  IO.eprint outcome.stderr
  return UInt32.ofNat outcome.exitCode
