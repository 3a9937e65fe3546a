import CommandScript.Machine.CallStack
import CommandScript.Machine.Environment
import CommandScript.Script
/-! # Frames

A frame is a run of a script at some moment: the address of the next command, the pending return
addresses and the host's state. Commands act on the frame; an action that fails keeps the changes
that it made before it failed.
-/
namespace CommandScript

structure Frame (ε : Type) where
  pc : Address
  stack : CallStack
  env : ε

def Frame.start {ε : Type} (pc : Address) (env : ε) : Frame ε := ⟨pc, .empty, env⟩

/-- Where a command sends the frame. -/
inductive Flow where
  | next
  | jump (target : Address)
deriving DecidableEq, Repr

def Flow.jumpIf (condition : Bool) (target : Address) : Flow :=
  if condition then .jump target else .next

/-- The frame that an action leaves, what it reported, and what came of it. -/
structure Reply (ε α : Type) where
  frame : Frame ε
  events : List Event
  result : Except RuntimeError α

/-- Something done to a frame of a script. -/
def Action (ε α : Type) : Type := Script → Frame ε → Reply ε α

namespace Action
variable {ε α β : Type}

protected def pure (a : α) : Action ε α := fun _ f => ⟨f, [], .ok a⟩

protected def bind (x : Action ε α) (k : α → Action ε β) : Action ε β := fun script f =>
  let r := x script f
  match r.result with
  | .error e => ⟨r.frame, r.events, .error e⟩
  | .ok a =>
    let r' := k a script r.frame
    ⟨r'.frame, r.events ++ r'.events, r'.result⟩

instance : Monad (Action ε) where
  pure := Action.pure
  bind := Action.bind

def fail (e : RuntimeError) : Action ε α := fun _ f => ⟨f, [], .error e⟩

def ofExcept (x : Except RuntimeError α) : Action ε α := fun _ f => ⟨f, [], x⟩

def script : Action ε Script := fun s f => ⟨f, [], .ok s⟩

def frame : Action ε (Frame ε) := fun _ f => ⟨f, [], .ok f⟩

def report (e : Event) : Action ε Unit := fun _ f => ⟨f, [e], .ok ()⟩

def modifyEnv (g : ε → ε) : Action ε Unit := fun _ f => ⟨{ f with env := g f.env }, [], .ok ()⟩

section Variables
variable [Environment ε]

def get (v : Variable) : Action ε Int32 := return Environment.get (← frame).env v

def set (v : Variable) (x : Int32) : Action ε Unit := modifyEnv (fun env => Environment.set env v x)

def copy (source target : Variable) : Action ε Unit :=
  modifyEnv (fun env => Environment.copy env source target)

def add (v : Variable) (delta : Int32) : Action ε Unit := do set v ((← get v) + delta)

/-- Flags are bits of the stored value. -/
def setFlag (v : Variable) (f : Flag) : Action ε Unit := do set v ((← get v) ||| f.handle.toInt32)

def clearFlag (v : Variable) (f : Flag) : Action ε Unit := do
  set v ((← get v) &&& ~~~f.handle.toInt32)

def testFlag (v : Variable) (f : Flag) : Action ε Bool :=
  return ((← get v) &&& f.handle.toInt32) != 0

def hostCall (values : List Value) : Action ε Unit := fun _ f =>
  let r := Environment.hostCall f.env values
  ⟨{ f with env := r.env }, r.events, r.result⟩

end Variables

def addressSpace : Nat := 0x10000000000000000

/-- The address behind the frame's. Every command has one; past the end of the script addresses are
64 bits wide and start over. -/
def following : Action ε Address := fun script f =>
  ⟨f, [], .ok (if f.pc < script.size then f.pc + 1 else (f.pc + 1) % addressSpace)⟩

def pushReturn (pc : Address) : Action ε Unit := fun _ f =>
  match f.stack.push pc with
  | .ok stack => ⟨{ f with stack }, [], .ok ()⟩
  | .error e => ⟨f, [], .error e⟩

/-- Jumps to an address and remembers to come back behind the current command. There is nothing to
call at address zero: it ends the script. -/
def call (target : Address) : Action ε Flow := do
  if target = 0 then return .jump (← script).size
  else
    pushReturn (← following)
    return .jump target

/-- Jumps to where the latest pending call came from, or to the end of the script. -/
def ret : Action ε Flow := fun script f =>
  match f.stack.pop with
  | (some pc, stack) => ⟨{ f with stack }, [], .ok (.jump pc)⟩
  | (none, stack) => ⟨{ f with stack }, [], .ok (.jump script.size)⟩

def evaluate (args : List Expr) : Action ε (List Value) :=
  ofExcept ((Expr.evalAll args).mapError .eval)

/-- Evaluates arguments and binds them to a signature. -/
def bindArgs (signature : List Param) (args : List Expr) : Action ε Arguments := do
  let values ← evaluate args
  ofExcept ((bindArguments signature values).mapError .bind)

/-- Takes something out of bound arguments. -/
def fetch {γ : Type} (x : Except BindError γ) : Action ε γ := ofExcept (x.mapError .bind)

end Action

/-- What a command does with its arguments. -/
abbrev Handler (ε : Type) := List Expr → Action ε Flow

end CommandScript
