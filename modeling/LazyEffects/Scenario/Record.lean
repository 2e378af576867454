import LazyEffects.Scenario.Codes

/-!
# What a scenario records

A scenario keeps a journal of records: what its functions log, which tasks ran, how runs ended,
what nested steps answered, and the events of the library.

* `Record.toJson` is the form in which a record is shown;
* `Record.sorted` puts records in the order of their compact texts, for moments at which their order
  is left open.
-/

namespace LazyEffects.Scenario

/-- What a step of a session answers. -/
inductive StepResult where
  | ok
  /-- There is no object of that name. -/
  | missing
  /-- There is no such step. -/
  | unknown
  | flag (b : Bool)
  | count (n : Nat)
  | config (c : Config)
  /-- A run is over, with its outcome. -/
  | settled (r : Except RunError Json)
  /-- A future is not ready. -/
  | pending
  /-- A panic came out of the step. -/
  | panicked (p : Payload)

/-- An entry of the journal. -/
inductive Record where
  | logged (label x : Json)
  | event (e : Event)
  | taskRan (name : Json)
  | done (name value : Json) (stats : Option Stats)
  | failed (runtime : Option String) (e : RunError)
  | stepped (label : String) (r : StepResult)

/-! ### Shown as JSON -/

/-- A panic that reached the caller. -/
def panicJson (p : Payload) : Json :=
  .obj [("panic", match p with
    | .literal t | .text t => .str t
    | .number n => .int n)]

/-- The fields that show a failure, with further fields among them. -/
def failureFields (runtime : Option String) (e : RunError) : List (String × Json) :=
  let name := runtime.toList.map fun id => ("rt", .str id)
  let text := [("text", .str e.message)]
  match e with
  | .panicked stage message =>
    [("error", .str "Panicked"), ("message", .str message)] ++ name ++
      [("stage", .str stage.label)] ++ text
  | .typeMismatch expected =>
    [("error", .str "TypeMismatch"), ("expected", .str expected)] ++ name ++ text
  | .alreadyCompleted => [("error", .str "AlreadyCompleted")] ++ name ++ text
  | .abandoned => [("error", .str "Abandoned")] ++ name ++ text

/-- The outcome of a run. -/
def outcomeJson : Except RunError Json → Json
  | .ok value => .obj [("value", value)]
  | .error e => .obj (failureFields none e)

def statsJson (s : Stats) : Json :=
  .obj [("max_stack", .int s.maxStack), ("steps", .int s.steps),
    ("suspensions", .int s.suspensions)]

def configJson (c : Config) : Json :=
  .obj [("catch_panics", .bool c.catchPanics),
    ("resume_delay_ms", .str (toString c.resumeDelay.millis)),
    ("step_budget", .str (toString c.stepBudget))]

def StepResult.toJson : StepResult → Json
  | ok => .str "ok"
  | missing => .str "missing"
  | unknown => .str "unknown step"
  | flag b => .bool b
  | count n => .int n
  | config c => configJson c
  | settled r => outcomeJson r
  | pending => .str "pending"
  | panicked p => panicJson p

def eventJson (e : Event) : Json :=
  .obj [("event", .str e.level.label),
    ("fields", .obj (e.fields.map fun (name, value) => (name, match value with
      | .number n => .int n
      | .text t => .str t))),
    ("message", .str e.message), ("target", .str e.target)]

namespace Record

/-- The form in which a record is shown. -/
def toJson : Record → Json
  | logged label x => .obj [("log", label), ("x", x)]
  | event e => eventJson e
  | taskRan name => .obj [("task", name)]
  | done name value stats =>
    .obj [("done", name), ("stats", stats.elim .null statsJson), ("value", value)]
  | failed runtime e => .obj (failureFields runtime e)
  | stepped label r => .obj [("r", r.toJson), ("step", .str label)]

/-- The shown forms of records, in the order of their compact texts. -/
def sorted (records : List Record) : List Json :=
  let keyed := records.map fun r => (r.toJson.compact, r.toJson)
  (keyed.mergeSort fun a b => a.1 ≤ b.1).map Prod.snd

end Record

end LazyEffects.Scenario
