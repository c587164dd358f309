/-
The command line program: it gathers the arguments, the environment, the configuration files and the
input, and prints what the pure program reports.
-/
import PathGlob.CommandLine.Filter

open PathGlob CommandLine

def fileContent? (path : String) : IO (Option String) := do
  try return some (← IO.FS.readFile path) catch _ => return none

/-- The user's configuration file, in the directory for configurations. -/
def userConfig? : IO (Option String) := do
  let directory ← match ← IO.getEnv "XDG_CONFIG_HOME" with
    | some d => pure (some d)
    | none => pure ((← IO.getEnv "HOME").map (· ++ "/.config"))
  match directory with
  | some d => fileContent? (d ++ "/globcraft/config.yaml")
  | none => return none

def main (words : List String) : IO UInt32 := do
  let names := configVariable :: [Flag.dot, .nocase, .strictBrackets, .windows].filterMap Flag.variable?
  let values ← names.mapM fun name => do return (name, ← IO.getEnv name)
  let environment := fun name => (List.lookup name values).join
  match Invocation.ofWords environment words with
  | .error s =>
    IO.print s.report.output
    IO.eprint s.report.errors
    return s.report.status.toUInt32
  | .ok v =>
    let explicit ← v.config.mapM fun path => do return (⟨path, ← fileContent? path⟩ : ConfigFile)
    let settings := Settings.load (← userConfig?) explicit
    let input ← if v.candidates.isEmpty && !v.source then (← IO.getStdin).readBinToEnd else pure .empty
    let r := (run .standard v settings (Lines.ofBytes input.toList)).report Failure.plain
    IO.print r.output
    IO.eprint r.errors
    return r.status.toUInt32
