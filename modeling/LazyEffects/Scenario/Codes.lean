import LazyEffects.Effect.Typed
import LazyEffects.Scenario.Language
import LazyEffects.Session.Code

/-!
# What scenarios hand to the library

The values of scenario programs have types: JSON data, on which the language of scenarios works,
and a few plain types for chains whose stages change the type.

* `Scenario.codes` are the codes of everything a scenario hands over;
* `Recipe.build` is the effect that a recipe describes.
-/

namespace LazyEffects.Scenario

/-- The types of values. -/
inductive Ty where
  | json
  | unit
  | boolean
  | integer
  | byte
  | text
  | integers
  deriving DecidableEq, Repr, Inhabited

namespace Ty

/-- The name of a type in reports. -/
def name : Ty → String
  | json => "json"
  | unit => "()"
  | boolean => "bool"
  | integer => "i64"
  | byte => "u8"
  | text => "alloc::string::String"
  | integers => "alloc::vec::Vec<i64>"

/-- The values of a type. -/
@[reducible]
def Carrier : Ty → Type
  | json => Json
  | unit => Unit
  | boolean => Bool
  | integer => Int64
  | byte => UInt8
  | text => String
  | integers => List Int64

/-- The value of a type that stands for `n`. -/
def ofNumber (n : Int64) : (a : Ty) → a.Carrier
  | json => .int n.toInt
  | unit => ()
  | boolean => n != 0
  | integer => n
  | byte => UInt8.ofInt n.toInt
  | text => toString n.toInt
  | integers => [n]

/-- The number that a value amounts to. -/
def weight : (a : Ty) → a.Carrier → Int64
  | json, _ => 0
  | unit, _ => 0
  | boolean, b => if b then 1 else 0
  | integer, n => n
  | byte, n => n.toNat.toInt64
  | text, s => s.utf8ByteSize.toInt64
  | integers, ns => ns.foldl (· + ·) 0

/-- A value as JSON. -/
def toJson : (a : Ty) → a.Carrier → Json
  | json, j => j
  | unit, _ => .null
  | boolean, b => .bool b
  | integer, n => .int n.toInt
  | byte, n => .int n.toNat
  | text, s => .str s
  | integers, ns => .arr (ns.map fun n => .int n.toInt)

end Ty

/-- The codes of functions without argument. -/
inductive Thunk : Ty → Type where
  /-- Apply a function to `x` in an environment. -/
  | apply (f : List Instruction) (env x : Json) : Thunk .json
  | constant {a : Ty} (x : a.Carrier) : Thunk a

/-- The codes of functions between values. -/
inductive Transform : Ty → Ty → Type where
  /-- Apply a function in an environment. -/
  | apply (f : List Instruction) (env : Json) : Transform .json .json
  /-- Give the value of `b` that stands for one more than the argument amounts to. -/
  | reweigh (a b : Ty) : Transform a b

/-- The codes of functions from values to effects. -/
inductive Continuation : Ty → Ty → Type where
  /-- Take a branch in an environment. -/
  | take (k : Branch) (env : Json) : Continuation .json .json
  /-- Go on with a leaf of `b` that stands for one more than the argument amounts to. -/
  | reweigh (a b : Ty) : Continuation a b

/-- The typed codes of scenario programs. -/
@[reducible]
def typedCodes : TypedCodes where
  Ty := Ty
  typeName := Ty.name
  Carrier := Ty.Carrier
  Thunk := Thunk
  Transform := Transform
  Continuation := Continuation

/-- What receives results. -/
inductive Receiver where
  /-- Record the result and go on as the aftermath says. -/
  | journal (a : Aftermath)
  /-- Add the result to those collected. -/
  | collect

/-- What receives failures. -/
inductive Complaints where
  /-- Record the failure with the name of its runtime, and take the steps of the reaction whose turn
  it is; `counter` numbers the calls. -/
  | journal (runtime : Option String) (reactions : List (List Step)) (counter : Nat)
  /-- Add the failure to those collected. -/
  | collect

/-- The codes of everything a scenario hands to the library. -/
@[reducible]
def codes : Codes where
  signature := typedCodes.erase
  Task := Errand
  Completion := Receiver
  Handler := Complaints

/-! ### Effects from recipes -/

mutual

/-- `e` with a stage on top, built in an environment. -/
def Stage.extend (env : Json) (e : Typed typedCodes Ty.json) :
    Stage → Typed typedCodes Ty.json
  | .map f => e.map (.apply f env)
  | .flatMap k => e.flatMap (.take k env)
  | .iterate times stages => Nat.repeat (fun e => Stage.extendAll env e stages) times e

/-- `e` with stages on top, in order. -/
def Stage.extendAll (env : Json) (e : Typed typedCodes Ty.json) :
    List Stage → Typed typedCodes Ty.json
  | [] => e
  | stage :: stages => Stage.extendAll env (Stage.extend env e stage) stages

end

/-- The effect that a recipe describes, in an environment. -/
def Recipe.build (env : Json) : Recipe → Typed typedCodes Ty.json
  | .mk leaf stages => Stage.extendAll env (.sync (.apply leaf env env)) stages

/-- The effect that a recipe describes, as a program. -/
def Recipe.program (r : Recipe) : Program typedCodes.erase := (r.build .null).toProgram

end LazyEffects.Scenario
