import LazyEffects.Config
import LazyEffects.Json

/-!
# The language of scenarios

A scenario describes programs and what is done with them, as plain data: functions on JSON values
as lists of instructions, effects as recipes of stages, and the steps of a session.

A function is applied to a value, in an *environment*: the value that the innermost enclosing
continuation was called with.
-/

namespace LazyEffects.Scenario

/-- A test on a value. -/
inductive Condition where
  /-- A number less than `n`. -/
  | less (n : Int)
  /-- A number greater than `n`. -/
  | greater (n : Int)
  | equal (v : Json)
  /-- A number divisible by two. -/
  | even
  | not (c : Condition)
  /-- A test that never holds. -/
  | never
  deriving Repr, Inhabited

namespace Condition

/-- The value meets the condition. -/
def holds (x : Json) : Condition → Bool
  | less n => match x with
    | .int i => i < n
    | _ => false
  | greater n => match x with
    | .int i => n < i
    | _ => false
  | equal v => x == v
  | even => match x with
    | .int i => i % 2 == 0
    | _ => false
  | not c => !c.holds x
  | never => false

end Condition

/-- What a run's error handler is to be. -/
inductive HandlerChoice where
  /-- Record the failure. -/
  | recording
  /-- The one that a runtime has by default. -/
  | default
  deriving DecidableEq, Repr

mutual

/-- One instruction of a function. `x` stands for the value it works on. -/
inductive Instruction where
  /-- Replace `x` by `v`. -/
  | const (v : Json)
  | add (n : Int)
  | sub (n : Int)
  | mul (n : Int)
  /-- Replace `x` by its text. -/
  | text
  /-- Append the text of `v` to the text `x`. -/
  | append (v : Json)
  /-- Append `v` to the array `x`. -/
  | push (v : Json)
  /-- Replace `x` by its length. -/
  | length
  /-- Replace `x` by the array of `x` alone. -/
  | wrap
  /-- Replace `x` by the array of `x` and the environment. -/
  | pair
  /-- Record `x` under a label. -/
  | log (label : Json)
  /-- Apply a function if a condition holds. -/
  | when (c : Condition) (body : List Instruction)
  /-- Take steps in the session. -/
  | perform (steps : List Step)
  /-- Panic with a computed text. -/
  | panicText (v : Json)
  /-- Panic with a fixed text. -/
  | panicLiteral (v : Json)
  /-- Panic with a number. -/
  | panicNumber (n : Int)
  /-- No instruction. -/
  | unknown

/-- An effect: a leaf that applies a function to the environment, and stages on top of it. -/
inductive Recipe where
  | mk (leaf : List Instruction) (stages : List Stage)

inductive Stage where
  | map (f : List Instruction)
  | flatMap (k : Branch)
  /-- These stages `times` times. -/
  | iterate (times : Nat) (stages : List Stage)

/-- A continuation. Each form first applies `prepare` to its argument. -/
inductive Branch where
  /-- Go on with an effect, built with the argument as environment. -/
  | recipe (prepare : List Instruction) (r : Recipe)
  | choose (prepare : List Instruction) (c : Condition) (yes no : Branch)
  /-- As long as the condition holds, go on with an effect that applies `step` and comes back here,
  with `post` applied to what comes out of it in the end. -/
  | loop (prepare : List Instruction) (c : Condition) (step : List Instruction)
    (post : Option (List Instruction))

/-- What happens when a run of a session is done, beside recording the result. -/
inductive Aftermath where
  | mk (name : Json) (withStats : Bool) (steps : List Step) (panic : Option Json)

/-- A task of a session. -/
inductive Errand where
  | mk (name : Json) (steps : List Step) (panic : Option Json)

/-- A step of a session, on objects that have names. -/
inductive Step where
  | openLoop (id : String)
  | cloneLoop (id source : String)
  | dropLoop (id : String)
  /-- Make a recording host; `label` is the word for the step. -/
  | openQueue (label id : String)
  | openDiscarding (id : String)
  | fire (id : String) (place : Nat)
  | discard (id : String) (place : Nat)
  /-- Make a runtime whose error handler takes the steps of `reactions` at its calls, in order. -/
  | openRuntime (id host : String) (config : Config) (handler : HandlerChoice)
    (reactions : List (List Step))
  | cloneRuntime (id source : String)
  | dropRuntime (id : String)
  /-- Start a run on a runtime. -/
  | run (runtime : String) (r : Recipe) (aftermath : Aftermath)
  /-- Start a run on a host with a default runtime. -/
  | runDefault (host : String) (r : Recipe) (aftermath : Aftermath)
  | defer (host : String) (delay : Duration) (errand : Errand)
  | turn (id : String)
  | idle (id : String)
  | blockOn (id : String) (config : Config) (r : Recipe)
  | openFuture (id : String) (config : Config) (r : Recipe)
  | poll (id : String)
  | dropFuture (id : String)
  | unknown (label : String)

end

instance : Inhabited Instruction := ⟨.unknown⟩
instance : Inhabited Recipe := ⟨.mk [] []⟩
instance : Inhabited Stage := ⟨.map []⟩
instance : Inhabited Branch := ⟨.recipe [] default⟩
instance : Inhabited Aftermath := ⟨.mk .null false [] none⟩
instance : Inhabited Errand := ⟨.mk .null [] none⟩
instance : Inhabited Step := ⟨.unknown ""⟩

/-- The word for a step in records. -/
def Step.label : Step → String
  | openLoop _ => "loop"
  | cloneLoop _ _ => "clone_loop"
  | dropLoop _ => "drop_loop"
  | openQueue label _ => label
  | openDiscarding _ => "discarding"
  | fire _ _ => "fire"
  | discard _ _ => "discard"
  | openRuntime .. => "runtime"
  | cloneRuntime _ _ => "clone_runtime"
  | dropRuntime _ => "drop_runtime"
  | run _ _ (.mk _ withStats _ _) => if withStats then "run" else "run_plain"
  | runDefault _ _ _ => "run_default"
  | defer _ _ _ => "defer"
  | turn _ => "turn"
  | idle _ => "idle"
  | blockOn _ _ _ => "block_on"
  | openFuture _ _ _ => "async"
  | poll _ => "poll"
  | dropFuture _ => "drop_async"
  | unknown label => label

end LazyEffects.Scenario
