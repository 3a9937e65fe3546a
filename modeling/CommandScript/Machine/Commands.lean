import CommandScript.Machine.Frame
/-! # The built-in commands

Each command binds its arguments to a signature before it touches the frame.
-/
namespace CommandScript

namespace Builtin
variable {ε : Type} [Environment ε]

def signature : Builtin → List Param
  | nop | ret | hostCall => []
  | goto | call => [.required .address]
  | set | add => [.required .var, .required .int]
  | copy => [.required .var, .required .var]
  | setFlag | clearFlag => [.required .var, .required .flag]
  | jumpIf => [.required .var, .required .int, .required .address]
  | jumpIfFlag | jumpIfNotFlag => [.required .var, .required .flag, .required .address]

open CommandScript.Action (fetch)

/-- What a command does once its arguments are bound. -/
def perform (b : Builtin) (a : Arguments) : Action ε Flow :=
  match b with
  | nop | hostCall => return .next
  | ret => Action.ret
  | goto => return .jump (← fetch (a.address 0))
  | call => do Action.call (← fetch (a.address 0))
  | set => do
    Action.set (← fetch (a.var 0)) (← fetch (a.int 1))
    return .next
  | add => do
    Action.add (← fetch (a.var 0)) (← fetch (a.int 1))
    return .next
  | copy => do
    Action.copy (← fetch (a.var 0)) (← fetch (a.var 1))
    return .next
  | setFlag => do
    Action.setFlag (← fetch (a.var 0)) (← fetch (a.flag 1))
    return .next
  | clearFlag => do
    Action.clearFlag (← fetch (a.var 0)) (← fetch (a.flag 1))
    return .next
  | jumpIf => do
    let hit := (← Action.get (← fetch (a.var 0))) == (← fetch (a.int 1))
    return .jumpIf hit (← fetch (a.address 2))
  | jumpIfFlag => do
    let hit ← Action.testFlag (← fetch (a.var 0)) (← fetch (a.flag 1))
    return .jumpIf hit (← fetch (a.address 2))
  | jumpIfNotFlag => do
    let hit ← Action.testFlag (← fetch (a.var 0)) (← fetch (a.flag 1))
    return .jumpIf (!hit) (← fetch (a.address 2))

/-- The empty command and the return take no notice of arguments, and a host call takes the values
of all of them. -/
def handler (b : Builtin) : Handler ε := fun args =>
  match b with
  | nop | ret => b.perform []
  | hostCall => do
    Action.hostCall (← Action.evaluate args)
    return .next
  | _ => do b.perform (← Action.bindArgs b.signature args)

end Builtin

end CommandScript
