import CommandScript.Binding
/-! # Faults of a running script -/
namespace CommandScript

inductive RuntimeError where
  | unknownLabel (name : String)
  | unboundCommand (type : CommandType)
  | callStackOverflow (depth : Nat) (pc : Address)
  | bind (cause : BindError)
  | eval (cause : EvalError)
  | hostCallUnsupported
  | host (text : String)
deriving DecidableEq, Repr

def RuntimeError.message : RuntimeError → String
  | unknownLabel name => s!"unknown label: '{name}'"
  | unboundCommand type => s!"command type {type.index} has no handler"
  | callStackOverflow depth pc =>
    s!"call stack overflow: more than {depth} nested calls (returning to {pc})"
  | bind cause => s!"argument binding failed: {cause.message}"
  | eval cause => s!"evaluation failed: {cause.message}"
  | hostCallUnsupported => "host call is not supported by this environment"
  | host text => s!"host command failed: {text}"

end CommandScript
