import CommandScript.Logged
import CommandScript.Machine.Commands
/-! # Dispatch tables

A table has a handler for each command type up to some size. It starts with the built-in commands;
a host adds handlers in any order and may replace any of them. The table is complete when no slot
is left without a handler, the empty command's apart, and no command of the script lies outside.
-/
namespace CommandScript

inductive BuildError where
  | unboundCommand (type : CommandType)
deriving DecidableEq, Repr

def BuildError.message : BuildError → String
  | unboundCommand type => s!"command type {type.index} has no handler"

/-- A script with a handler for each of its commands. -/
structure Machine (ε : Type) where
  script : Script
  handlers : Array (Handler ε)

structure Assembly (ε : Type) where
  script : Script
  slots : Array (Option (Handler ε))

namespace Assembly
variable {ε : Type}

/-- Puts a handler into its slot, with as many slots in front of it as that takes. -/
def bindSlot (slots : Array (Option (Handler ε))) (index : Nat) (h : Handler ε) :
    Array (Option (Handler ε)) :=
  (slots ++ Array.replicate (index + 1 - slots.size) none).setIfInBounds index (some h)

/-- The built-in commands. -/
def ofScript [Environment ε] (script : Script) : Assembly ε where
  script
  slots := Builtin.all.foldl (fun slots b => bindSlot slots b.type.index b.handler) #[]

def isBound (a : Assembly ε) (type : CommandType) : Bool :=
  match a.slots[type.index]? with
  | some (some _) => true
  | _ => false

def register (a : Assembly ε) (type : CommandType) (h : Handler ε) : Assembly ε :=
  { a with slots := bindSlot a.slots type.index h }

def registerEvents (a : Assembly ε) (type : CommandType) : List Event :=
  if a.isBound type then [.handlerReplaced type] else []

/-- Registers a handler and adds what that reports to the events so far. -/
def registerNext (done : List Event × Assembly ε) (entry : CommandType × Handler ε) :
    List Event × Assembly ε :=
  (done.1 ++ done.2.registerEvents entry.1, done.2.register entry.1 entry.2)

/-- Registers handlers in order; later ones win. -/
def registerAll (a : Assembly ε) (entries : List (CommandType × Handler ε)) :
    List Event × Assembly ε :=
  entries.foldl registerNext ([], a)

def size (a : Assembly ε) : Nat := max a.slots.size CommandType.firstHost

/-- The handlers from a given slot on. Only the empty command's slot may be empty. -/
def handlersFrom (index : Nat) : List (Option (Handler ε)) → Except BuildError (List (Handler ε))
  | [] => .ok []
  | some h :: rest => do return h :: (← handlersFrom (index + 1) rest)
  | none :: rest => do
    if index = 0 then return (fun _ => return .next) :: (← handlersFrom (index + 1) rest)
    else throw (.unboundCommand ⟨index.toUInt32⟩)

def build (a : Assembly ε) : Logged BuildError (Machine ε) := do
  let slots := a.slots ++ Array.replicate (a.size - a.slots.size) none
  let handlers ← handlersFrom 0 slots.toList
  match a.script.commands.find? (fun c => a.size ≤ c.type.index) with
  | some c => throw (.unboundCommand c.type)
  | none =>
    Logged.report (.tableBuilt a.size a.script.size)
    return ⟨a.script, handlers.toArray⟩

end Assembly

end CommandScript
