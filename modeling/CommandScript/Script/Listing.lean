import CommandScript.Registries
import CommandScript.Script
/-! # Listings

A script for the eye: each command on a line with its address, the labels of an address on lines of
their own in front of it, and the end of the script at last.
-/
namespace CommandScript

namespace Listing

/-- An address, in four digits at least. -/
def addressText (pc : Address) : String :=
  let digits := toString pc
  String.ofList (List.replicate (4 - digits.length) '0') ++ digits

/-- A type that no name stands for is shown by its number. -/
def commandName (names : Registries) (t : CommandType) : String :=
  (names.commandName? t).getD s!"cmd({t.handle.toNat})"

def commandText (names : Registries) (c : Command) : String :=
  let name := commandName names c.type
  if c.args.isEmpty then name else name ++ " " ++ ", ".intercalate (c.args.map Expr.text)

def line (pc : Address) (text : String) : String := addressText pc ++ "  " ++ text ++ "\n"

/-- The labels of an address. -/
def labels (s : Script) (pc : Address) : String :=
  String.join ((s.labelsAt pc).map (· ++ ":\n"))

/-- The entries of some commands, the first of which stands at `pc`, and the end entry. -/
def entries (s : Script) (names : Registries) (pc : Address) : List Command → String
  | [] => labels s pc ++ line pc "<end>"
  | c :: rest => labels s pc ++ line pc (commandText names c) ++ entries s names (pc + 1) rest

end Listing

def Script.listing (s : Script) (names : Registries) : String :=
  Listing.entries s names 0 s.commands.toList

end CommandScript
