import LazyEffects.Scenario.Memory

/-!
# What the code of a scenario does

The meaning of instructions, branches, tasks, receivers and steps, as scripts of the client of a
session.

* `Step.perform` is a step of a session;
* `client` is the client that scenarios are.
-/

namespace LazyEffects.Scenario

/-- Code of a scenario in execution. It may panic. -/
abbrev Act := ExceptT Payload (Script codes Memory)

namespace Act

/-- Work on the memory. -/
def modify (f : Memory → Memory) : Act Unit := ExceptT.lift (Script.modify f)

/-- Look something up in the memory. -/
def read {α : Type} (f : Memory → α) : Act α := ExceptT.lift (Script.read f)

/-- Put a request to the library. A panic in its answer is passed on. -/
def ask (r : Request codes) : Act (Reply codes) := ExceptT.mk (Script.request r)

def panic {α : Type} (p : Payload) : Act α := throw p

def record (r : Record) : Act Unit := modify (·.record r)

/-- The end of `act`, with a panic as a value. -/
def attempt {α : Type} (act : Act α) : Act (Except Payload α) := ExceptT.lift act.run

end Act

/-! ### Functions on JSON -/

mutual

/-- The text of a value: a text is its own text, also inside arrays. -/
def plainText : Json → String
  | .str s => s
  | .arr [] => "[]"
  | .arr (item :: items) => plainTexts ("[" ++ plainText item) items
  | j => j.compact

/-- The texts of further items of an array, behind `out`. -/
def plainTexts (out : String) : List Json → String
  | [] => out ++ "]"
  | item :: items => plainTexts (out ++ "," ++ plainText item) items

end

/-- A number within 64 bits, to which all others are equal up to a multiple of their range. -/
def wrapped (n : Int) : Json := .int (Int64.ofInt n).toInt

/-- The panic of an instruction that cannot work on its value. -/
def badOperand (name : String) : Payload := .text s!"bad operand for {name}"

/-- Arithmetic on a number. -/
def arithmetic (name : String) (f : Int → Int) : Json → Act Json
  | .int i => return wrapped (f i)
  | _ => Act.panic (badOperand name)

/-! ### Steps of a session -/

/-- The value of a result. -/
def valueJson (v : typedCodes.erase.Value) : Json := v.1.toJson v.2

/-- The outcome of a run, with its value as JSON. -/
def showOutcome (r : RunResult codes) : Except RunError Json := r.map valueJson

/-- The result that shows an answer. -/
def StepResult.ofReply : Reply codes → StepResult
  | .flag b => .flag b
  | .count n => .count n
  | .settled r => .settled (showOutcome r)
  | .pending _ => .pending
  | .runtime r => .config r.config
  | _ => .ok

/-- Ask, and show the answer. -/
def askFor (r : Request codes) : Act StepResult := return .ofReply (← Act.ask r)

/-- Do `f` with what was found, if it was found. -/
def onFound {α : Type} (found : Memory → Option α) (f : α → Act StepResult) : Act StepResult := do
  match ← Act.read found with
  | some a => f a
  | none => return .missing

/-- Become the owner of an event loop under a name, and give up what had that name. -/
def adoptLoop (id : String) (l : LoopId) : Act StepResult := do
  let old ← Act.read (·.loops.get? id)
  Act.modify fun m =>
    { m with loops := m.loops.insert id l, handles := m.handles.insert id l }
  match old with
  | some old => askFor (.releaseLoop old)
  | none => return .ok

/-- A new recording error handler. -/
def newComplaints (runtime : Option String) (reactions : List (List Step)) : Act Complaints := do
  let counter ← Act.read (·.calls.size)
  Act.modify fun m => { m with calls := m.calls.push 0 }
  return .journal runtime reactions counter

/-- Make a runtime under a name. -/
def makeRuntime (id : String) (host : Host) (config : Config) (handler : HandlerChoice)
    (reactions : List (List Step)) : Act StepResult := do
  let onError : ErrorHandler codes ← match handler with
    | .default => pure .log
    | .recording => do pure (.client (← newComplaints (some id) reactions))
  match ← Act.ask (.newRuntime host config onError) with
  | .runtime r =>
    Act.modify fun m => { m with runtimes := m.runtimes.insert id r }
    return .config r.config
  | _ => return .ok

/-- Poll a future, which keeps its name unless it is ready. -/
def pollFuture (id : String) (f : Future codes) : Act StepResult := do
  Act.modify fun m => { m with futures := m.futures.erase id }
  let reply ← Act.ask (.poll f)
  if let .pending f := reply then
    Act.modify fun m => { m with futures := m.futures.insert id f }
  return .ofReply reply

/-- Take a step. -/
def Step.perform : Step → Act StepResult
  | .openLoop id => do
    match ← Act.ask .openLoop with
    | .openedLoop l => adoptLoop id l
    | _ => return .ok
  | .cloneLoop id source => onFound (·.loops.get? source) fun l => do
    let _ ← Act.ask (.shareLoop l)
    adoptLoop id l
  | .dropLoop id => onFound (·.loops.get? id) fun l => do
    Act.modify fun m => { m with loops := m.loops.erase id }
    askFor (.releaseLoop l)
  | .openQueue _ id => do
    if let .openedQueue q ← Act.ask .openQueue then
      Act.modify fun m =>
        { m with queues := m.queues.insert id q, discarding := m.discarding.erase id }
    return .ok
  | .openDiscarding id => do
    Act.modify fun m =>
      { m with discarding := m.discarding.insert id (), queues := m.queues.erase id }
    return .ok
  | .fire id place => onFound (·.queues.get? id) fun q => askFor (.fire q place)
  | .discard id place => onFound (·.queues.get? id) fun q => askFor (.discard q place)
  | .openRuntime id host config handler reactions =>
    onFound (·.host? host) fun host => makeRuntime id host config handler reactions
  | .cloneRuntime id source => onFound (·.runtimes.get? source) fun r => do
    Act.modify fun m => { m with runtimes := m.runtimes.insert id r }
    return .ok
  | .dropRuntime id => onFound (·.runtimes.get? id) fun _ => do
    Act.modify fun m => { m with runtimes := m.runtimes.erase id }
    return .ok
  | .run runtime r aftermath => onFound (·.runtimes.get? runtime) fun rt =>
    askFor (.start rt r.program (.journal aftermath))
  | .runDefault host r aftermath => onFound (·.host? host) fun host => do
    match ← Act.ask (.newRuntime host .default .log) with
    | .runtime rt => askFor (.start rt r.program (.journal aftermath))
    | _ => return .ok
  | .defer host delay errand => onFound (·.host? host) fun host =>
    askFor (.defer host delay errand)
  | .turn id => onFound (·.loops.get? id) fun l => askFor (.turn l)
  | .idle id => onFound (·.loops.get? id) fun l => askFor (.runUntilIdle l)
  | .blockOn id config r => onFound (·.loops.get? id) fun l =>
    askFor (.blockOn l config r.program)
  | .openFuture id config r => do
    let f : Future codes := ⟨config, .start r.program.root, r.program.result⟩
    Act.modify fun m => { m with futures := m.futures.insert id f }
    return .ok
  | .poll id => onFound (·.futures.get? id) (pollFuture id)
  | .dropFuture id => onFound (·.futures.get? id) fun _ => do
    Act.modify fun m => { m with futures := m.futures.erase id }
    return .ok
  | .unknown _ => return .unknown

/-- Take steps from within other code, and record what each answers. -/
def performNested : List Step → Act Unit
  | [] => return
  | step :: steps => do
    let r ← step.perform
    Act.record (.stepped step.label r)
    performNested steps

/-- Panic with the text of a value, if there is one. -/
def panicIfGiven : Option Json → Act Unit
  | some v => Act.panic (.text (plainText v))
  | none => return

/-! ### Instructions -/

mutual

/-- Apply an instruction to `x`. -/
def Instruction.apply (env x : Json) : Instruction → Act Json
  | .const v => return v
  | .add n => arithmetic "add" (· + n) x
  | .sub n => arithmetic "sub" (· - n) x
  | .mul n => arithmetic "mul" (· * n) x
  | .text => return .str (plainText x)
  | .append v => match x with
    | .str s => return .str (s ++ plainText v)
    | _ => Act.panic (badOperand "cat")
  | .push v => match x with
    | .arr items => return .arr (items ++ [v])
    | _ => Act.panic (badOperand "push")
  | .length => match x with
    | .str s => return .int s.length
    | .arr items => return .int items.length
    | _ => Act.panic (badOperand "len")
  | .wrap => return .arr [x]
  | .pair => return .arr [x, env]
  | .log label => do
    Act.record (.logged label x)
    return x
  | .when c body => if c.holds x then Instruction.applyAll env x body else return x
  | .perform steps => do
    performNested steps
    return x
  | .panicText v => Act.panic (.text (plainText v))
  | .panicLiteral v => Act.panic (.literal (plainText v))
  | .panicNumber n => Act.panic (.number n)
  | .unknown => Act.panic (badOperand "unknown instruction")

/-- Apply a function to `x`. -/
def Instruction.applyAll (env x : Json) : List Instruction → Act Json
  | [] => return x
  | instruction :: body => do Instruction.applyAll env (← instruction.apply env x) body

end

/-- The effect with which a continuation goes on. -/
def Branch.take (env x : Json) : Branch → Act (Typed typedCodes Ty.json)
  | .recipe prepare r => do return r.build (← Instruction.applyAll env x prepare)
  | .choose prepare c yes no => do
    let x ← Instruction.applyAll env x prepare
    if c.holds x then yes.take env x else no.take env x
  | .loop prepare c step post => do
    let x ← Instruction.applyAll env x prepare
    if c.holds x then
      let round : Typed typedCodes Ty.json := Typed.flatMap (T := typedCodes)
        (.sync (.apply step env x)) (.take (.loop prepare c step post) env)
      match post with
      | some f => return round.map (.apply f env)
      | none => return round
    else return .sync (.constant x)

/-! ### The client -/

/-- The functions of scenario programs. -/
def functions : TypedFunctions typedCodes (Script codes Memory) where
  thunk
    | .apply f env x => Instruction.applyAll env x f
    | .constant x => pure (.ok x)
  transform
    | .apply f env, x => Instruction.applyAll env x f
    | .reweigh a b, x => pure (.ok (b.ofNumber (a.weight x + 1)))
  continuation
    | .take k env, x => k.take env x
    | .reweigh a b, x => pure (.ok (.sync (.constant (b.ofNumber (a.weight x + 1)))))
  observe e := Script.modify (·.observe e)

/-- Receive a result. -/
def Receiver.receive (v : typedCodes.erase.Value) (stats : Stats) : Receiver → Act Unit
  | .journal (.mk name withStats steps panic) => do
    Act.record (.done name (valueJson v) (if withStats then some stats else none))
    performNested steps
    panicIfGiven panic
  | .collect => Act.modify fun m => { m with results := (valueJson v, stats) :: m.results }

/-- Receive a failure. -/
def Complaints.receive (e : RunError) : Complaints → Act Unit
  | .journal runtime reactions counter => do
    Act.record (.failed runtime e)
    let call ← Act.read fun m => m.calls[counter]?.getD 0
    Act.modify fun m => { m with calls := m.calls.setIfInBounds counter (call + 1) }
    performNested (reactions[call]?.getD [])
  | .collect => Act.modify fun m => { m with failures := e :: m.failures }

/-- Do a task. -/
def Errand.run : Errand → Act Unit
  | .mk name steps panic => do
    Act.record (.taskRan name)
    performNested steps
    panicIfGiven panic

/-- The client that scenarios are. -/
def client : Client codes Memory where
  thunk := functions.erase.thunk
  transform := functions.erase.transform
  continuation := functions.erase.continuation
  task := Errand.run
  discard _ := return .ok ()
  completion c v stats := c.receive v stats
  handler h e := h.receive e
  observe := Memory.observe

end LazyEffects.Scenario
