import CommandScript.Registries
import CommandScript.Script
/-! # Scopes

While a macro's body is read, the script around it waits, and so on outwards. Names are looked up
from the inside out. A name in an expression is a constant if any open scope has it, then an
identifier, a variable or a flag of the host, and else a label.
-/
namespace CommandScript

structure Scopes where
  names : Registries
  current : Script
  /-- The scripts around the current one, the nearest first. -/
  enclosing : List Script

namespace Scopes

/-- The scopes of a script that has not begun. -/
def outermost (names : Registries) : Scopes := ⟨names, .empty, []⟩

/-- The scopes inside a macro's body that has not begun. -/
def inner (sc : Scopes) : Scopes := ⟨sc.names, .empty, sc.current :: sc.enclosing⟩

def withCurrent (sc : Scopes) (current : Script) : Scopes := { sc with current }

def all (sc : Scopes) : List Script := sc.current :: sc.enclosing

def constant? (sc : Scopes) (name : String) : Option Expr :=
  sc.all.findSome? (fun s => s.constants.get? name)

def macroNamed? (sc : Scopes) (name : String) : Option Script :=
  sc.all.findSome? (fun s => s.macros.get? name)

def resolve (sc : Scopes) (name : String) : Expr :=
  match sc.constant? name with
  | some e => e
  | none =>
    match sc.names.identifiers.get? name with
    | some i => .identifier i
    | none =>
      match sc.names.vars.get? name with
      | some v => .var v
      | none =>
        match sc.names.flags.get? name with
        | some f => .flag f
        | none => .label name

end Scopes

end CommandScript
