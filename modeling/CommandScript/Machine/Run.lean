import CommandScript.Machine.DispatchTable
/-! # Running

A step carries out the command at the frame's address and moves on. A run is a row of steps, until
the end of the script, an error, or a limit on their number.
-/
namespace CommandScript

/-- How a run came to stop without an error. -/
inductive Halt where
  | finished
  | outOfSteps
deriving DecidableEq, Repr

namespace Machine
variable {ε : Type}

def handler? (m : Machine ε) (type : CommandType) : Option (Handler ε) := m.handlers[type.index]?

def finished (m : Machine ε) (f : Frame ε) : Bool := m.script.size ≤ f.pc

/-- Does something to a frame of this script. -/
def act {α : Type} (m : Machine ε) (f : Frame ε) (x : Action ε α) : Reply ε α := x m.script f

/-- The frame after its command has told where to go. -/
def follow (f : Frame ε) : Flow → Frame ε
  | .next => { f with pc := f.pc + 1 }
  | .jump target => { f with pc := target }

/-- Carries out one command; whether there is another one behind it. -/
def step (m : Machine ε) (f : Frame ε) : Reply ε Bool :=
  match m.script.command? f.pc with
  | none => ⟨f, [], .ok false⟩
  | some c =>
    match m.handler? c.type with
    | none => ⟨f, [], .error (.unboundCommand c.type)⟩
    | some h =>
      let r := m.act f (h c.args)
      let events := .dispatched f.pc c.type :: r.events
      match r.result with
      | .error e => ⟨r.frame, events, .error e⟩
      | .ok flow =>
        let after := follow r.frame flow
        ⟨after, events, .ok (!m.finished after)⟩

/-- Takes steps while there are any, with the events so far given latest first. -/
def runLoop (m : Machine ε) : Nat → List Event → Frame ε → Reply ε Halt
  | 0, log, f => ⟨f, log.reverse, .ok .outOfSteps⟩
  | n + 1, log, f =>
    let r := m.step f
    let log := r.events.reverse ++ log
    match r.result with
    | .error e => ⟨r.frame, log.reverse, .error e⟩
    | .ok false => ⟨r.frame, log.reverse, .ok .finished⟩
    | .ok true => m.runLoop n log r.frame

def run (m : Machine ε) (limit : Nat) (f : Frame ε) : Reply ε Halt := m.runLoop limit [] f

/-- A run from an address on a fresh frame. -/
def start (m : Machine ε) (limit : Nat) (pc : Address) (env : ε) : Reply ε Halt :=
  let r := m.run limit (.start pc env)
  let finish := match r.result with
    | .ok .finished => [Event.frameFinished r.frame.pc]
    | _ => []
  ⟨r.frame, .frameStarted pc :: r.events ++ finish, r.result⟩

/-- A run from a label on a fresh frame. -/
def startAt (m : Machine ε) (limit : Nat) (label : String) (env : ε) : Reply ε Halt :=
  match m.script.label? label with
  | some pc => m.start limit pc env
  | none => ⟨.start 0 env, [.unknownLabel label], .error (.unknownLabel label)⟩

end Machine

end CommandScript
