import LazyEffects.Effect.Typed
import LazyEffects.Session.Machine
import LazyEffects.Text.Shortest

/-!
# Demonstration programs

Two effects to show the hosts at work: a chain of continuations that counts its stages, and a sum
of three random draws.

* `Demo.counting` and `Demo.randomSum` are the programs;
* `Demo.run` runs one of them on one of three hosts and tells how many tasks the host has run.
-/

namespace LazyEffects.Demo

/-- The types of values. -/
inductive Ty where
  | count
  | real
  | text
  deriving DecidableEq, Repr

namespace Ty

def name : Ty → String
  | count => "u64"
  | real => "f64"
  | text => "alloc::string::String"

/-- The values of a type. -/
@[reducible]
def Carrier : Ty → Type
  | count => Nat
  | real => Float
  | text => String

end Ty

/-- The codes of functions without argument. -/
inductive Thunk : Ty → Type where
  | count (n : Nat) : Thunk .count
  /-- A random draw. -/
  | draw : Thunk .real
  /-- A random draw added to `x`. -/
  | drawOnto (x : Float) : Thunk .real

/-- The codes of functions between values. -/
inductive Transform : Ty → Ty → Type where
  | showCount : Transform .count .text
  | showReal : Transform .real .text

/-- The codes of functions from values to effects. -/
inductive Continuation : Ty → Ty → Type where
  /-- Go on with the next number. -/
  | increment : Continuation .count .count
  /-- Go on with a random draw added to the argument. -/
  | addDraw : Continuation .real .real

@[reducible]
def typedCodes : TypedCodes where
  Ty := Ty
  typeName := Ty.name
  Carrier := Ty.Carrier
  Thunk := Thunk
  Transform := Transform
  Continuation := Continuation

/-- A demonstration hands over nothing but effects. -/
@[reducible]
def codes : Codes where
  signature := typedCodes.erase
  Task := Empty
  Completion := Empty
  Handler := Empty

/-- `e` with `depth` continuations on top, each of which adds one. -/
def incremented (e : Typed typedCodes Ty.count) : (depth : Nat) → Typed typedCodes Ty.count
  | 0 => e
  | depth + 1 => incremented (e.flatMap .increment) depth

/-- A chain of `depth` continuations that counts them. -/
def counting (depth : Nat) : Typed typedCodes Ty.text :=
  (incremented (.sync (.count 0)) depth).map .showCount

/-- The sum of three random draws. -/
def randomSum : Typed typedCodes Ty.text :=
  let first : Typed typedCodes Ty.real := .sync .draw
  ((first.flatMap .addDraw).flatMap .addDraw).map .showReal

/-- The outcome of a demonstration. -/
structure Report where
  output : Except RunError String
  /-- The number of tasks that the host has run. -/
  turns : Nat

/-- What a demonstration remembers: the random draws to come, and its report. -/
structure Memory where
  draws : List Float
  report : Option Report

/-- Code of a demonstration in execution. -/
abbrev Act := Script codes Memory

/-- The next random draw. -/
def draw : Act Float :=
  .update id fun m =>
    .update (fun m => { m with draws := m.draws.tail }) fun _ => .done (m.draws.headD 0)

/-- What the codes do. -/
def functions : TypedFunctions typedCodes Act where
  thunk
    | .count n => return .ok n
    | .draw => return .ok (← draw)
    | .drawOnto x => return .ok (x + (← draw))
  transform
    | .showCount, n => return .ok s!"n: {n}"
    | .showReal, x => return .ok ("n: " ++ Text.floatText x)
  continuation
    | .increment, n => return .ok (.sync (.count (n + 1)))
    | .addDraw, x => return .ok (.sync (.drawOnto x))
  observe _ := return

/-- The client that a demonstration is. -/
def client : Client codes Memory where
  thunk := functions.erase.thunk
  transform := functions.erase.transform
  continuation := functions.erase.continuation
  task := nofun
  discard := nofun
  completion := nofun
  handler := nofun
  observe _ m := m

/-- Where the suspended rest of a run is resumed. -/
inductive Place where
  | eventLoop
  | worker
  | async
  deriving DecidableEq, Repr, Inhabited

/-- The text in an outcome. -/
def outputOf (r : RunResult codes) : Except RunError String :=
  r.map fun
    | ⟨.count, n⟩ => toString n
    | ⟨.real, x⟩ => Text.floatText x
    | ⟨.text, s⟩ => s

/-- Put a request. What panics is abandoned. -/
def ask (r : Request codes) : Act (Reply codes) := do
  match ← Script.request r with
  | .ok reply => return reply
  | .error _ => return .settled (.error .abandoned)

/-- The outcome in an answer. -/
def outcome : Reply codes → Except RunError String
  | .settled r => outputOf r
  | _ => .error .abandoned

/-- Run a program on a host. -/
def perform (config : Config) (program : Program codes.signature) : Place → Act Report
  | .eventLoop => do
    let .openedLoop l ← ask .openLoop | return ⟨.error .abandoned, 0⟩
    let output := outcome (← ask (.blockOn l config program))
    match ← ask (.inspectLoop l) with
    | .loopState _ turns => return ⟨output, turns⟩
    | _ => return ⟨output, 0⟩
  | .worker => do
    let .openedWorker w ← ask .openWorker | return ⟨.error .abandoned, 0⟩
    let output := outcome (← ask (.blockOnWorker w config program))
    let turns ← ask (.workerTurns w)
    let _ ← ask (.stopWorker w)
    match turns with
    | .count turns => return ⟨output, turns⟩
    | _ => return ⟨output, 0⟩
  | .async => do
    let f : Future codes := ⟨config, .start program.root, program.result⟩
    return ⟨outcome (← ask (.runAsync f)), 0⟩

/-- What to demonstrate. -/
inductive Choice where
  /-- A chain of so many continuations. -/
  | counting (depth : Nat)
  | randomSum
  deriving DecidableEq, Repr

namespace Choice

/-- The program to run. -/
def program : Choice → Typed typedCodes Ty.text
  | counting depth => Demo.counting depth
  | randomSum => Demo.randomSum

/-- More moves than a run of the program takes on any host and with any configuration: it visits
two nodes for each continuation and two more, and a visit with all that goes with it takes fewer
than sixty-four moves. -/
def moves : Choice → Nat
  | counting depth => 64 * (2 * depth + 4)
  | randomSum => 64 * 8

end Choice

/-- Run a program on a host, with these random draws. -/
def run (place : Place) (config : Config) (draws : List Float) (choice : Choice) : Report :=
  let main : Act Ending := do
    let report ← perform config choice.program.toProgram place
    Script.modify fun m => { m with report := some report }
    return .ok ()
  let world : World codes Memory := .initial .still ⟨draws, none⟩
  (((Machine.initial world main).run client choice.moves).world.memory.report).getD
    ⟨.error .abandoned, 0⟩

end LazyEffects.Demo
