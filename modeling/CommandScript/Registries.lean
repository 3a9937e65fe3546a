import CommandScript.Handle
import CommandScript.NameTable
/-! # Registries

The names that a script may use: commands, identifiers, variables and flags, each in a table of
its own. A host lays its tables over the built-in ones and wins where both define a name.
-/
namespace CommandScript

structure Registries where
  commands : NameTable CommandType
  identifiers : NameTable Identifier
  vars : NameTable Variable
  flags : NameTable Flag
deriving Inhabited

namespace Registries

def empty : Registries := ⟨∅, ∅, ∅, ∅⟩

/-- The built-in commands and the name of the empty command. -/
def builtinCommands : NameTable CommandType :=
  NameTable.ofList (("none", CommandType.none) :: Builtin.all.map (fun b => (b.name, b.type)))

def builtin : Registries := { empty with commands := builtinCommands }

def withOverrides (base own : Registries) : Registries where
  commands := base.commands.merge own.commands
  identifiers := base.identifiers.merge own.identifiers
  vars := base.vars.merge own.vars
  flags := base.flags.merge own.flags

/-- The least name of a command type. -/
def commandName? (r : Registries) (t : CommandType) : Option String :=
  r.commands.nameWhere? (· == t)

/-- The least name of a variable. -/
def variableName? (r : Registries) (v : Variable) : Option String :=
  r.vars.nameWhere? (· == v)

/-- The largest command type that has a name, or the empty command's. -/
def maxCommand (r : Registries) : CommandType :=
  r.commands.entries.foldl
    (fun top e => if top.handle < e.2.handle then e.2 else top) CommandType.none

end Registries

end CommandScript
