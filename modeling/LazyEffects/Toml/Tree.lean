import LazyEffects.Toml.Scalar

/-!
# Trees of TOML

The value of a document is a table of named nodes, in the order in which they came. Keys and
nodes remember where they are written, by the number of characters from there to the end of the
document.

* `Entries.put` adds a node under a dotted key;
* `Entries.openTable` and `Entries.addElement` add a table under a header.

Each refuses what would define something twice or in two ways.
-/

namespace LazyEffects.Toml

/-- A name with the place where it is written. -/
structure Key where
  name : String
  /-- The number of characters from the key to the end of the document. -/
  remaining : Nat
  deriving Repr, Inhabited

/-- How a table has come about. -/
inductive TableKind where
  /-- By a header of its own. -/
  | explicit
  /-- By the header of a table inside it. -/
  | implied
  /-- By a dotted key. -/
  | dotted
  /-- As a value in braces, to which nothing can be added. -/
  | inline
  deriving DecidableEq, Repr

/-- A node of a tree, with the number of characters from it to the end of the document, if it is
written anywhere. -/
inductive Node where
  | scalar (s : Scalar) (remaining : Nat)
  | array (items : List Node) (remaining : Nat)
  | table (kind : TableKind) (entries : List (Key × Node)) (remaining : Option Nat)
  /-- Tables under one header that is written for each of them: those before the last, and the
  entries of the last. -/
  | tables (earlier : List Node) (last : List (Key × Node)) (remaining : Nat)

instance : Inhabited Node := ⟨.array [] 0⟩

/-- Where a node is written, if it is written anywhere. -/
def Node.remaining? : Node → Option Nat
  | scalar _ remaining => some remaining
  | array _ remaining => some remaining
  | table _ _ remaining => remaining
  | tables _ _ remaining => some remaining

/-- The nodes of a table by their keys. -/
abbrev Entries := List (Key × Node)

namespace Entries

/-- The node of a name. -/
def get? (entries : Entries) (name : String) : Option Node :=
  (entries.find? fun (key, _) => key.name == name).map Prod.snd

/-- Put another node in the place of the one of a name. -/
def replace (entries : Entries) (name : String) (node : Node) : Entries :=
  entries.map fun (key, old) => (key, if key.name == name then node else old)

def erase (entries : Entries) (name : String) : Entries :=
  entries.filter fun (key, _) => key.name != name

/-- Add a node under a name that is not taken. -/
def add (entries : Entries) (key : Key) (node : Node) : Option Entries :=
  match entries.get? key.name with
  | some _ => none
  | none => some (entries ++ [(key, node)])

/-- Add a node under a dotted key. The tables on the way are made by the key, or have been made by
such keys before; only to reach a deeper one may it pass through tables made by headers. -/
def put (key : Key) (node : Node) : (path : List Key) → Entries → Option Entries
  | [], entries => entries.add key node
  | step :: path, entries =>
    match entries.get? step.name with
    | none => do
      let inner ← put key node path []
      return entries ++ [(step, .table .dotted inner none)]
    | some (.table .dotted inner remaining) => do
      let inner ← put key node path inner
      return entries.replace step.name (.table .dotted inner remaining)
    | some (.table .implied inner remaining) => do
      if path.isEmpty then none
      let inner ← put key node path inner
      return entries.replace step.name (.table .implied inner remaining)
    | some (.tables earlier last remaining) => do
      if path.isEmpty then none
      let last ← put key node path last
      return entries.replace step.name (.tables earlier last remaining)
    | some _ => none

/-- Change the table to which the keys of a header lead, making those tables on the way that are
not there. -/
def within (change : Entries → Option Entries) : (path : List Key) → Entries → Option Entries
  | [], entries => change entries
  | step :: path, entries =>
    match entries.get? step.name with
    | none => do
      let inner ← within change path []
      return entries ++ [(step, .table .implied inner none)]
    | some (.table .inline _ _) => none
    | some (.table kind inner remaining) => do
      let inner ← within change path inner
      return entries.replace step.name (.table kind inner remaining)
    | some (.tables earlier last remaining) => do
      let last ← within change path last
      return entries.replace step.name (.tables earlier last remaining)
    | some _ => none

/-- Add a table under a header, filled by `fill`. One that other headers have implied is defined
by it, and takes its place. -/
def openTable (path : List Key) (key : Key) (remaining : Nat)
    (fill : Entries → Option Entries) (entries : Entries) : Option Entries :=
  within (fun parent =>
    match parent.get? key.name with
    | none => do
      return parent ++ [(key, .table .explicit (← fill []) (some remaining))]
    | some (.table .implied inner _) => do
      return parent.erase key.name ++ [(key, .table .explicit (← fill inner) (some remaining))]
    | some _ => none) path entries

/-- Add one more table under a header that is written for each of its tables. -/
def addElement (path : List Key) (key : Key) (remaining : Nat)
    (fill : Entries → Option Entries) (entries : Entries) : Option Entries :=
  within (fun parent =>
    match parent.get? key.name with
    | none => do return parent ++ [(key, .tables [] (← fill []) remaining)]
    | some (.tables earlier last first) => do
      let earlier := earlier ++ [.table .explicit last none]
      return parent.replace key.name (.tables earlier (← fill []) first)
    | some _ => none) path entries

end Entries

end LazyEffects.Toml
