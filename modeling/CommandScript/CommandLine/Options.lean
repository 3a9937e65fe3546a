/-! # Command-line options

Options may stand anywhere among the arguments. An option's value stands behind it, or is attached
to it. A long option attaches its value with an equals sign; a short one directly or with an equals
sign, and several short ones may share a dash. Behind two dashes nothing is an option any more.

An argument takes effect when the next one begins: only then is it known what its value is. So a
request for help is granted only if all that stands in front of it is in order.
-/
namespace CommandScript.CommandLine

/-- What to write of a compiled script. -/
inductive Artifact where
  | listing
  | json
deriving DecidableEq, Repr

structure Options where
  input : String
  config : Option String
  emit : Option Artifact
  output : Option String
  /-- Whether to run the script, and from which label. -/
  run : Option (Option String)
  verbosity : Nat
deriving DecidableEq, Repr

/-- Why arguments lead to no options. -/
inductive Refusal where
  | usage
  | help
  | version
deriving DecidableEq, Repr

/-- What a value is for. -/
inductive Slot where
  | input
  | config
  | emit
  | output
  | run
deriving DecidableEq, Repr

/-- What an option asks for. -/
inductive Switch where
  | value (slot : Slot)
  | verbose
  | help
  | version
deriving DecidableEq, Repr

def Switch.ofLong? (name : String) : Option Switch :=
  [("config", value .config), ("emit", value .emit), ("output", value .output),
    ("run", value .run), ("verbose", verbose), ("help", help), ("version", version)].lookup name

def Switch.ofShort? (c : Char) : Option Switch :=
  [('c', value .config), ('e', value .emit), ('o', value .output), ('r', value .run),
    ('v', verbose), ('h', help), ('V', version)].lookup c

/-- An argument whose value may still be to come. -/
inductive Pending where
  | none
  | waiting (slot : Slot)
  | given (slot : Slot) (value : String)
deriving DecidableEq, Repr

/-- Options in the making. -/
structure Draft where
  input : Option String := none
  config : Option String := none
  emit : Option Artifact := none
  output : Option String := none
  run : Option (Option String) := none
  verbosity : Nat := 0
  pending : Pending := .none
  inputSeen : Bool := false
  onlyInputs : Bool := false
deriving DecidableEq, Repr

def Artifact.ofName? (s : String) : Option Artifact :=
  if s = "listing" then some .listing else if s = "json" then some .json else none

/-- A path, which is never empty. -/
def path? (s : String) : Option String := if s.isEmpty then none else some s

namespace Draft

/-- Puts a value where it belongs. Nothing may be given twice, and only a run goes without. -/
def store (d : Draft) (slot : Slot) (value : Option String) : Except Refusal Draft :=
  let stored : Option Draft :=
    match slot with
    | .input => do
      let p ← path? (← value)
      if d.input.isNone then some { d with input := some p } else none
    | .config => do
      let p ← path? (← value)
      if d.config.isNone then some { d with config := some p } else none
    | .output => do
      let p ← path? (← value)
      if d.output.isNone then some { d with output := some p } else none
    | .emit => do
      let a ← Artifact.ofName? (← value)
      if d.emit.isNone then some { d with emit := some a } else none
    | .run => if d.run.isNone then some { d with run := some value } else none
  match stored with
  | some d => .ok d
  | none => .error .usage

/-- Lets the argument before take effect. -/
def settle (d : Draft) : Except Refusal Draft :=
  match d.pending with
  | .none => .ok d
  | .waiting slot => { d with pending := .none }.store slot none
  | .given slot value => { d with pending := .none }.store slot (some value)

/-- More than this is not counted. -/
def maxVerbosity : Nat := 255

/-- An option, perhaps with a value attached. -/
def apply (d : Draft) (s : Switch) (attached : Option String) : Except Refusal Draft := do
  let d ← d.settle
  match s, attached with
  | .value slot, some v => d.store slot (some v)
  | .value slot, none => return { d with pending := .waiting slot }
  | .verbose, none => return { d with verbosity := min (d.verbosity + 1) maxVerbosity }
  | .help, none => throw .help
  | .version, none => throw .version
  | _, some _ => throw .usage

def long (d : Draft) (cs : List Char) : Except Refusal Draft :=
  let name := String.ofList (cs.takeWhile (· != '='))
  let attached := match cs.dropWhile (· != '=') with
    | _ :: v => some (String.ofList v)
    | [] => none
  match Switch.ofLong? name with
  | some s => d.apply s attached
  | none => .error .usage

/-- Short options behind one dash. One that takes a value takes the rest for it. -/
def shorts (d : Draft) : List Char → Except Refusal Draft
  | [] => .ok d
  | c :: cs =>
    match Switch.ofShort? c with
    | none => .error .usage
    | some (.value slot) =>
      match cs with
      | [] => d.apply (.value slot) none
      | '=' :: v => d.apply (.value slot) (some (String.ofList v))
      | v => d.apply (.value slot) (some (String.ofList v))
    | some s => do (← d.apply s none).shorts cs

/-- The input, which may be given only once. -/
def plain (d : Draft) (arg : String) : Except Refusal Draft := do
  if d.inputSeen then throw .usage
  else
    let d ← d.settle
    return { d with pending := .given .input arg, inputSeen := true }

def argument (d : Draft) (arg : String) : Except Refusal Draft :=
  if d.onlyInputs then d.plain arg
  else
    match arg.toList with
    | ['-', '-'] => .ok { d with onlyInputs := true }
    | '-' :: '-' :: cs => d.long cs
    | '-' :: c :: cs => d.shorts (c :: cs)
    | _ =>
      match d.pending with
      | .waiting slot => .ok { d with pending := .given slot arg }
      | _ => d.plain arg

def finish (d : Draft) : Except Refusal Options := do
  let d ← d.settle
  match d.input with
  | some input => return ⟨input, d.config, d.emit, d.output, d.run, d.verbosity⟩
  | none => throw .usage

end Draft

def Options.parse (args : List String) : Except Refusal Options := do
  (← args.foldlM Draft.argument {}).finish

end CommandScript.CommandLine
