import CommandScript.Json.Quoted
import CommandScript.Json.Reader
import CommandScript.Logged
import CommandScript.Lookahead
import CommandScript.Registries
/-! # Host configuration

A host describes itself in JSON: its four name tables and the size of the look-ahead. Each part may
be left out. The parts are the members of an object, or the items of an array in a fixed order.
Unknown parts are refused; unknown members of the look-ahead are not.
-/
namespace CommandScript

structure HostConfig where
  own : Registries
  lookahead : LookaheadConfig

inductive ConfigError where
  | notJson
  | unfit
deriving DecidableEq, Repr

namespace ConfigError

def message (_ : ConfigError) : String := "Failed to parse host config"

def cause : ConfigError → String
  | notJson => "the text is not JSON"
  | unfit => "the JSON does not describe a host"

end ConfigError

namespace HostConfig

/-- No names of its own, and a look-ahead of the usual size. -/
def default : HostConfig := ⟨.empty, {}⟩

instance : Inhabited HostConfig := ⟨default⟩

def registries (c : HostConfig) : Registries := Registries.builtin.withOverrides c.own

/-- A number that is written with digits alone and lies below the limit. -/
def nat? (limit : Nat) : Json → Option Nat
  | .number lexeme =>
    if lexeme.toList.all Char.isDigit then
      let n := lexeme.toList.foldl (fun n c => n * 10 + (c.toNat - '0'.toNat)) 0
      if n < limit then some n else none
    else none
  | _ => none

/-- Handles have 32 bits. -/
def handleLimit : Nat := 0x100000000

/-- Sizes have 64 bits. -/
def sizeLimit : Nat := 0x10000000000000000

/-- Members under the names that they denote. -/
def named? (members : List (String × Json)) : Option (List (String × Json)) :=
  members.mapM (fun m => (Json.unescape? m.1).map (·, m.2))

/-- A name table; the last of several members of one name counts. -/
def table? {α : Type} (ofHandle : UInt32 → α) : Json → Option (NameTable α)
  | .object members => do
    let named ← named? members
    let entries ← named.mapM (fun m =>
      (nat? handleLimit m.2).map (fun n => (m.1, ofHandle n.toUInt32)))
    return NameTable.ofList entries
  | _ => none

/-- The wanted part of a description, or a default for it. -/
def part? {α : Type} (read : Json → Option α) (default : α) (parts : List (String × Json))
    (name : String) : Option α :=
  match parts.lookup name with
  | some j => read j
  | none => some default

/-- Whether no name of the list comes twice among the parts. -/
def atMostOnce (names : List String) (parts : List (String × Json)) : Bool :=
  names.all (fun n => parts.countP (·.1 == n) ≤ 1)

/-- Items of an array as parts, in the order of the names. -/
def positional? (names : List String) (items : List Json) : Option (List (String × Json)) :=
  if items.length ≤ names.length then some (names.zip items) else none

def lookaheadNames : List String := ["batch", "capacity"]

def lookaheadOf? (parts : List (String × Json)) : Option LookaheadConfig := do
  let batch ← part? (nat? sizeLimit) ({} : LookaheadConfig).batch parts "batch"
  let capacity ← part? (nat? sizeLimit) ({} : LookaheadConfig).capacity parts "capacity"
  return { batch, capacity }

def lookahead? : Json → Option LookaheadConfig
  | .object members => do
    let parts ← named? members
    if atMostOnce lookaheadNames parts then lookaheadOf? parts else none
  | .array items => do lookaheadOf? (← positional? lookaheadNames items)
  | _ => none

def names : List String := ["commands", "identifiers", "variables", "flags", "lookahead"]

def ofParts? (parts : List (String × Json)) : Option HostConfig := do
  let commands ← part? (table? CommandType.mk) ∅ parts "commands"
  let identifiers ← part? (table? Identifier.mk) ∅ parts "identifiers"
  let vars ← part? (table? Variable.mk) ∅ parts "variables"
  let flags ← part? (table? Flag.mk) ∅ parts "flags"
  let lookahead ← part? lookahead? {} parts "lookahead"
  return ⟨⟨commands, identifiers, vars, flags⟩, lookahead⟩

def ofJson? : Json → Option HostConfig
  | .object members => do
    let parts ← named? members
    if parts.all (fun p => names.contains p.1) && atMostOnce names parts then ofParts? parts
    else none
  | .array items => do ofParts? (← positional? names items)
  | _ => none

/-- What deserves a second look: flags that no value holds, host commands that take over a built-in
one, and a look-ahead that has no room for a second batch. -/
def warnings (c : HostConfig) : List Event :=
  (c.own.flags.namesWhere (fun f => f.handle == 0)).map .zeroFlag ++
    (c.own.commands.entries.filter (fun e => e.2.index < CommandType.firstHost)).map
      (fun e => .builtinHandle e.1 e.2) ++
    if c.lookahead.capacity ≤ c.lookahead.batch then
      [.narrowLookahead c.lookahead.batch c.lookahead.capacity]
    else []

def load (text : String) : Logged ConfigError HostConfig := do
  match Json.parse? text with
  | none => throw .notJson
  | some json =>
    match ofJson? json with
    | none => throw .unfit
    | some config =>
      Logged.reportAll config.warnings
      Logged.report (.configLoaded config.own.commands.size config.own.identifiers.size
        config.own.vars.size config.own.flags.size)
      return config

end HostConfig

end CommandScript
