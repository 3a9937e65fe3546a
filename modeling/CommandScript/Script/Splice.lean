import CommandScript.Script
/-! # Splicing

Using a macro copies the commands of its body to the end of a script. Addresses inside the body
move along: a label that the body declares becomes its address in the copy, and an address that is
already known is shifted. Labels of other scripts are left for those scripts to settle.
-/
namespace CommandScript

/-- The tree in a copy that starts at `base`. -/
def Expr.rebase (labels : NameTable Address) (base : Address) : Expr → Expr
  | .label name =>
    match labels.get? name with
    | some pc => .address (base + pc)
    | none => .label name
  | .address pc => .address (base + pc)
  | .unary op e => .unary op (e.rebase labels base)
  | .binary op l r => .binary op (l.rebase labels base) (r.rebase labels base)
  | e => e

def Command.rebase (labels : NameTable Address) (base : Address) (c : Command) : Command :=
  { c with args := c.args.map (Expr.rebase labels base) }

def Script.splice (target body : Script) : Script :=
  { target with
    commands := target.commands ++ body.commands.map (Command.rebase body.labels target.size) }

end CommandScript
