import CommandScript.Expr.Evaluation
/-! # Binding arguments

A command's signature says what it takes: a domain for each parameter, the position of its value,
and what becomes of it when there is no value at that position. Parameters are bound in order and
the first that cannot be bound decides the error. Values that no parameter asks for are ignored.
-/
namespace CommandScript

inductive Domain where
  | address
  | identifier
  | var
  | flag
  | str
  | int
  | float
deriving DecidableEq, Repr

def Domain.name : Domain → String
  | address => "address"
  | identifier => "identifier"
  | var => "variable"
  | flag => "flag"
  | str => "string"
  | int => "integer"
  | float => "float"

structure Param where
  domain : Domain
  /-- Where the value stands, if not at the parameter's own place. -/
  position : Option Nat := none
  optional : Bool := false
  default : Option Int32 := none
deriving DecidableEq, Repr

namespace Param

def required (domain : Domain) : Param := { domain }

def atPosition (p : Param) (position : Nat) : Param := { p with position := some position }

def orMissing (p : Param) : Param := { p with optional := true }

/-- Makes a parameter optional, with a default. -/
def orElse (p : Param) (default : Int32) : Param :=
  { p with optional := true, default := some default }

end Param

inductive BindError where
  | missingArgument (index : Nat) (domain : Domain)
  | domainMismatch (index : Nat) (expected : Domain) (found : String)
  | noFlagDefault (index : Nat)
deriving DecidableEq, Repr

def BindError.message : BindError → String
  | missingArgument index domain => s!"argument {index} ({domain.name}) is missing"
  | domainMismatch index expected found =>
    s!"argument {index}: expected {expected.name}, got {found}"
  | noFlagDefault index => s!"argument {index}: a flag has no default value"

/-- Bound arguments, one for each parameter and of its domain. -/
abbrev Arguments := List Value

namespace Binding

/-- The value in the wanted domain. Integers serve as floats, and integers and addresses as each
other where that keeps the number. -/
def coerce (index : Nat) (domain : Domain) (v : Value) : Except BindError Value :=
  match domain, v with
  | .address, .address a => .ok (.address a)
  | .address, .int n =>
    if 0 ≤ n.toInt then .ok (.address n.toInt.toNat)
    else .error (.domainMismatch index domain v.kind)
  | .int, .int n => .ok (.int n)
  | .int, .address a =>
    if a ≤ maxInteger then .ok (.int (Int32.ofNat a))
    else .error (.domainMismatch index domain v.kind)
  | .float, .float x => .ok (.float x)
  | .float, .int n => .ok (.float n.toFloat)
  | .str, .str s => .ok (.str s)
  | .identifier, .identifier i => .ok (.identifier i)
  | .var, .var x => .ok (.var x)
  | .flag, .flag f => .ok (.flag f)
  | _, _ => .error (.domainMismatch index domain v.kind)

/-- What stands in for a value that was left out. -/
def absent (index : Nat) (domain : Domain) (default : Option Int32) : Except BindError Value :=
  match domain, default with
  | .address, some d => .ok (.address d.toInt.toNat)
  | .address, none => .ok (.address 0)
  | .int, d => .ok (.int (d.getD 0))
  | .float, some d => .ok (.float d.toFloat)
  | .float, none => .ok (.float 0.0)
  | .str, _ => .ok (.str "")
  | .identifier, some d => .ok (.identifier ⟨d.toUInt32⟩)
  | .identifier, none => .ok (.identifier .missing)
  | .var, some d => .ok (.var ⟨d.toUInt32⟩)
  | .var, none => .ok (.var .missing)
  | .flag, some d => .ok (.flag ⟨d.toUInt32⟩)
  | .flag, none => .error (.noFlagDefault index)

def bindParam (values : List Value) (place : Nat) (p : Param) : Except BindError Value :=
  let index := p.position.getD place
  match values[index]? with
  | some v => coerce index p.domain v
  | none =>
    if p.optional then absent index p.domain p.default
    else .error (.missingArgument index p.domain)

/-- Binds the parameters from a given place of the signature on. -/
def bindFrom (values : List Value) : Nat → List Param → Except BindError Arguments
  | _, [] => .ok []
  | place, p :: rest => do
    let a ← bindParam values place p
    let more ← bindFrom values (place + 1) rest
    return a :: more

end Binding

def bindArguments (signature : List Param) (values : List Value) : Except BindError Arguments :=
  Binding.bindFrom values 0 signature

namespace Arguments

/-- The argument at a place, read as one of the given domain. -/
def read {α : Type} (domain : Domain) (pick : Value → Option α) (args : Arguments)
    (place : Nat) : Except BindError α :=
  match args[place]? with
  | none => .error (.missingArgument place domain)
  | some a =>
    match pick a with
    | some x => .ok x
    | none => .error (.domainMismatch place domain a.kind)

def address : Arguments → Nat → Except BindError Address :=
  read .address (fun | .address a => some a | _ => none)

def identifier : Arguments → Nat → Except BindError Identifier :=
  read .identifier (fun | .identifier i => some i | _ => none)

def var : Arguments → Nat → Except BindError Variable :=
  read .var (fun | .var v => some v | _ => none)

def flag : Arguments → Nat → Except BindError Flag :=
  read .flag (fun | .flag f => some f | _ => none)

def str : Arguments → Nat → Except BindError String :=
  read .str (fun | .str s => some s | _ => none)

def int : Arguments → Nat → Except BindError Int32 :=
  read .int (fun | .int n => some n | _ => none)

def float : Arguments → Nat → Except BindError Float :=
  read .float (fun | .float x => some x | _ => none)

end Arguments

end CommandScript
