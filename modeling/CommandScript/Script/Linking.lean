import CommandScript.Script
import CommandScript.SyntaxError
/-! # Linking

Linking puts addresses in the place of label names, command by command and from left to right. It
stops at the first label that is not declared: what it has replaced until then stays replaced, and
all that follows stays as it was.
-/
namespace CommandScript

/-- What linking made of a piece of a script. -/
structure Linked (α : Type) where
  value : α
  count : Nat
  missing : Option String

namespace Linked
variable {α β γ : Type}

def map (f : α → β) (l : Linked α) : Linked β := { l with value := f l.value }

/-- Two pieces in order. When the first has failed, the second stays as it was. -/
def pair (f : α → β → γ) (first : Linked α) (untouched : β) (second : Linked β) : Linked γ :=
  match first.missing with
  | some name => ⟨f first.value untouched, first.count, some name⟩
  | none => ⟨f first.value second.value, first.count + second.count, second.missing⟩

end Linked

def Expr.link (labels : NameTable Address) : Expr → Linked Expr
  | .label name =>
    match labels.get? name with
    | some pc => ⟨.address pc, 1, none⟩
    | none => ⟨.label name, 0, some name⟩
  | .unary op e => (e.link labels).map (.unary op)
  | .binary op l r => (l.link labels).pair (.binary op) r (r.link labels)
  | e => ⟨e, 0, none⟩

/-- Links the items of a list in order. -/
def linkList {α : Type} (link : α → Linked α) : List α → Linked (List α)
  | [] => ⟨[], 0, none⟩
  | a :: rest => (link a).pair List.cons rest (linkList link rest)

def Command.link (labels : NameTable Address) (c : Command) : Linked Command :=
  (linkList (Expr.link labels) c.args).map (fun args => { c with args })

/-- Links all commands of a script against its own labels. -/
def Script.link (s : Script) : Linked Script :=
  (linkList (Command.link s.labels) s.commands.toList).map
    (fun commands => { s with commands := commands.toArray })

end CommandScript
