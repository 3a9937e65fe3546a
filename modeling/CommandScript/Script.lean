import CommandScript.Expr
import CommandScript.NameTable
/-! # Scripts

A script is a row of commands and what its text declared: labels, macros and constants. A macro's
body is a script of its own. A command's address is its place in the row; the place behind the last
command is the end of the script, and a label may name it.
-/
namespace CommandScript

structure Command where
  type : CommandType
  args : List Expr

instance : Inhabited Command := ⟨⟨.none, []⟩⟩

structure Script where
  commands : Array Command
  labels : NameTable Address
  macros : NameTable Script
  constants : NameTable Expr

namespace Script

def empty : Script := ⟨#[], ∅, ∅, ∅⟩

instance : Inhabited Script := ⟨empty⟩

/-- The number of commands, which is also the end of the script. -/
def size (s : Script) : Nat := s.commands.size

def push (s : Script) (c : Command) : Script := { s with commands := s.commands.push c }

def label? (s : Script) (name : String) : Option Address := s.labels.get? name

def command? (s : Script) (pc : Address) : Option Command := s.commands[pc]?

def labelsAt (s : Script) (pc : Address) : List String := s.labels.namesWhere (· == pc)

def declareLabel (s : Script) (name : String) : Script :=
  { s with labels := s.labels.insert name s.size }

def declareConstant (s : Script) (name : String) (e : Expr) : Script :=
  { s with constants := s.constants.insert name e }

def declareMacro (s : Script) (name : String) (body : Script) : Script :=
  { s with macros := s.macros.insert name body }

end Script

end CommandScript
