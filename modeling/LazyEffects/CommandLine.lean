import LazyEffects.Config.Document
import LazyEffects.Config.Variables
import LazyEffects.Demo

/-!
# The command line

The command runs a demonstration program on a chosen host.

* `Options.parse` reads the arguments;
* `loadConfig` lays the settings of a file, of the environment and of an option over the defaults,
  in this order, and checks each layer before the next;
* `execute` runs the program and reports what is to be printed.
-/

namespace LazyEffects.CommandLine

/-- What the arguments ask for. -/
structure Options where
  host : Option Demo.Place
  /-- The length of the chain to run in place of the random sum. -/
  depth : Option Nat
  stepBudget : Option Nat
  /-- The path of a configuration file. -/
  config : Option String
  verbosity : Nat
  deriving Repr

/-- What is printed in place of a run. -/
inductive Halt where
  | help
  | version
  /-- The arguments are not understood. -/
  | usage
  deriving DecidableEq, Repr

namespace Options

/-- No argument. -/
def none : Options := ⟨.none, .none, .none, .none, 0⟩

/-- The options that take a value. -/
inductive Valued where
  | host
  | depth
  | stepBudget
  | config
  deriving DecidableEq, Repr

/-- The option of a long name. -/
def valued? : String → Option Valued
  | "host" => some .host
  | "depth" => some .depth
  | "step-budget" => some .stepBudget
  | "config" => some .config
  | _ => .none

/-- The host of a name. -/
def place? : String → Option Demo.Place
  | "event-loop" => some .eventLoop
  | "worker" => some .worker
  | "async" => some .async
  | _ => .none

/-- Give an option a value. An option can be given once, and only a value of its form. -/
def set (o : Options) (option : Valued) (value : String) : Except Halt Options :=
  let number := Text.unsigned? Config.maxWord value.toList
  match option with
  | .host =>
    match o.host, place? value with
    | .none, some place => .ok { o with host := some place }
    | _, _ => .error .usage
  | .depth =>
    match o.depth, number with
    | .none, some n => .ok { o with depth := some n }
    | _, _ => .error .usage
  | .stepBudget =>
    match o.stepBudget, number with
    | .none, some n => .ok { o with stepBudget := some n }
    | _, _ => .error .usage
  | .config =>
    match o.config, value with
    | .none, "" => .error .usage
    | .none, path => .ok { o with config := some path }
    | some _, _ => .error .usage

/-- The letters behind a single hyphen. The letter of an option that takes a value is followed by
the value, or else the value is the next argument. -/
def setLetters (o : Options) : List Char → Except Halt (Options × Option Valued)
  | [] => .ok (o, .none)
  | 'v' :: letters => setLetters { o with verbosity := o.verbosity + 1 } letters
  | 'h' :: _ => .error .help
  | 'V' :: _ => .error .version
  | ['c'] => .ok (o, some .config)
  | 'c' :: '=' :: value => do return (← o.set .config (String.ofList value), .none)
  | 'c' :: value => do return (← o.set .config (String.ofList value), .none)
  | _ => .error .usage

/-- A word behind two hyphens: an option with its value, if that is given in the same word. -/
def setWord (o : Options) (word : List Char) : Except Halt (Options × Option Valued) :=
  let name := String.ofList (word.takeWhile (· != '='))
  match valued? name, word.dropWhile (· != '=') with
  | some option, '=' :: value => do return (← o.set option (String.ofList value), .none)
  | some option, _ => .ok (o, some option)
  | .none, [] =>
    match name with
    | "help" => .error .help
    | "version" => .error .version
    | "verbose" => .ok ({ o with verbosity := o.verbosity + 1 }, .none)
    | _ => .error .usage
  | .none, _ => .error .usage

/-- The argument begins like an option. A single hyphen does not. -/
def isOption (arg : String) : Bool :=
  match arg.toList with
  | '-' :: _ :: _ => true
  | _ => false

/-- Read arguments, from left to right. -/
def parseFrom (o : Options) : List String → Except Halt Options
  | [] => .ok o
  | arg :: args => do
    let (o, missing) ← match arg.toList with
      | ['-', '-'] => if args.isEmpty then .ok (o, .none) else .error .usage
      | '-' :: '-' :: word => o.setWord word
      | '-' :: letter :: letters => o.setLetters (letter :: letters)
      | _ => .error .usage
    match missing, args with
    | .none, args => parseFrom o args
    | some _, [] => .error .usage
    | some option, value :: args => do
      if isOption value then .error .usage
      parseFrom (← o.set option value) args

/-- Read the arguments. -/
def parse (args : List String) : Except Halt Options := none.parseFrom args

end Options

/-- The configuration of a run: the defaults or those of a file, then the variables, then the
budget given as an option. Every layer is checked, also for what a later one would replace. -/
def loadConfig (read : Toml.Reader) (file : Option (String × Except String ByteArray))
    (lookup : String → Option String) (stepBudget : Option Nat) : Except ConfigError Config := do
  let config ← match file with
    | some (path, content) => Config.load read path content
    | none => .ok .default
  let config ← config.applyVariables lookup
  match stepBudget with
  | some stepBudget => ({ config with stepBudget } : Config).validated
  | none => return config

/-- What is printed after a run: its output and a summary, or an error. -/
inductive Report where
  | finished (output : String) (host : Demo.Place) (stepBudget turns : Nat)
  /-- There is no configuration. -/
  | misconfigured (e : ConfigError)
  /-- The run has failed. -/
  | failed (e : RunError)

namespace Report

/-- The exit code. -/
def code : Report → Nat
  | finished .. => 0
  | misconfigured _ => 2
  | failed _ => 1

/-- What goes to the standard output. -/
def output : Report → String
  | finished output _ _ _ => output ++ "\n"
  | misconfigured _ | failed _ => ""

/-- The name of a host in the summary. -/
def placeName : Demo.Place → String
  | .eventLoop => "EventLoop"
  | .worker => "Worker"
  | .async => "Async"

/-- The summary of a run that has not failed. -/
def summary : Report → Option String
  | finished _ host stepBudget turns =>
    let name := placeName host
    some s!"{name} step_budget={stepBudget} turns={turns}"
  | misconfigured _ | failed _ => none

/-- The text of an error. -/
def error : Report → Option String
  | finished .. => none
  | misconfigured e => some e.message
  | failed e => some e.message

end Report

/-- Run what the options ask for. The file of the configuration is given by its content or the
reason for which it cannot be read. -/
def execute (o : Options) (content : Except String ByteArray) (lookup : String → Option String)
    (draws : List Float) : Report :=
  match loadConfig Toml.Document.read? (o.config.map (·, content)) lookup o.stepBudget with
  | .error e => .misconfigured e
  | .ok config =>
    let host := o.host.getD .eventLoop
    let choice : Demo.Choice := (o.depth.map .counting).getD .randomSum
    let report := Demo.run host config draws choice
    match report.output with
    | .ok output => .finished output host config.stepBudget report.turns
    | .error e => .failed e

/-- The line that tells the version. -/
def versionLine : String := "effectron 0.2.0\n"

end LazyEffects.CommandLine
