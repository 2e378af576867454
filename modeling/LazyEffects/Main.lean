import LazyEffects.CommandLine

/-!
# The program

Reads the arguments, the environment and the configuration file, runs the command and prints what
it reports.
-/

open LazyEffects

namespace LazyEffects.Main

/-- What is printed when help is asked for. -/
def helpText : String :=
  "Run a lazy effect program on a trampoline\n\n" ++
  "Usage: effectron [OPTIONS]\n\n" ++
  "Options:\n" ++
  "      --host <HOST>                event-loop (the default), worker or async\n" ++
  "      --depth <DEPTH>              Run a synthetic chain of this many stages\n" ++
  "      --step-budget <STEP_BUDGET>  Nodes processed per host turn\n" ++
  "  -c, --config <CONFIG>            TOML runtime configuration\n" ++
  "  -v, --verbose...                 Increase log verbosity\n" ++
  "  -h, --help                       Print help\n" ++
  "  -V, --version                    Print version\n"

/-- The reason for which a file cannot be read. -/
def reason (e : IO.Error) : String :=
  match e with
  | .noFileOrDirectory .. => "No such file or directory (os error 2)"
  | .permissionDenied .. => "Permission denied (os error 13)"
  | .inappropriateType _ 21 _ => "Is a directory (os error 21)"
  | .inappropriateType _ 20 _ => "Not a directory (os error 20)"
  | e => toString e

/-- The content of a file, or the reason for which it cannot be read. -/
def readFile (path : String) : IO (Except String ByteArray) := do
  try
    return .ok (← IO.FS.readBinFile path)
  catch e =>
    return .error (reason e)

/-- The values of the variables that are set. -/
def readVariables : IO (List (String × String)) := do
  let names := [stepBudgetVariable, resumeMillisVariable, catchPanicsVariable]
  let found ← names.mapM fun name => do return (← IO.getEnv name).map (name, ·)
  return found.filterMap id

/-- A random number between zero and one. -/
def randomDraw : IO Float := do
  let n ← IO.rand 0 ((1 <<< 53) - 1)
  return n.toFloat / (1 <<< 53 : Nat).toFloat

/-- Run what the options ask for. -/
def runOptions (o : CommandLine.Options) : IO UInt32 := do
  let content ← match o.config with
    | some path => readFile path
    | none => pure (.ok .empty)
  let environment ← readVariables
  let draws ← [(), (), ()].mapM fun _ => randomDraw
  let start ← IO.monoNanosNow
  let report := CommandLine.execute o content (environment.lookup ·) draws
  IO.print report.output
  let elapsed := Duration.text ⟨(← IO.monoNanosNow) - start⟩
  if let some summary := report.summary then
    IO.eprintln s!"host={summary} elapsed={elapsed}"
  if let some e := report.error then
    IO.eprintln s!"Error: {e}"
  return report.code.toUInt32

end LazyEffects.Main

/-- Run the command with these arguments. -/
def main (args : List String) : IO UInt32 :=
  match CommandLine.Options.parse args with
  | .ok o => Main.runOptions o
  | .error .help => do
    IO.print Main.helpText
    return 0
  | .error .version => do
    IO.print CommandLine.versionLine
    return 0
  | .error .usage => do
    IO.eprint Main.helpText
    return 2
