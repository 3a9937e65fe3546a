/-! # Handles

A host knows its commands, identifiers, variables and flags by number. Each of the four has a
type of its own, so that a variable and a flag with the same number are never confused.
-/
namespace CommandScript

structure CommandType where
  handle : UInt32
deriving DecidableEq, Repr, Inhabited

structure Identifier where
  handle : UInt32
deriving DecidableEq, Repr, Inhabited

structure Variable where
  handle : UInt32
deriving DecidableEq, Repr, Inhabited

structure Flag where
  handle : UInt32
deriving DecidableEq, Repr, Inhabited

/-- Stands for an identifier argument that was left out. -/
def Identifier.missing : Identifier := ⟨0xFFFFFFFF⟩

/-- Stands for a variable argument that was left out. -/
def Variable.missing : Variable := ⟨0xFFFFFFFF⟩

/-- The commands that every script understands. -/
inductive Builtin where
  | nop
  | hostCall
  | goto
  | set
  | copy
  | setFlag
  | clearFlag
  | add
  | call
  | ret
  | jumpIf
  | jumpIfFlag
  | jumpIfNotFlag
deriving DecidableEq, Repr

namespace Builtin

def all : List Builtin :=
  [nop, hostCall, goto, set, copy, setFlag, clearFlag, add, call, ret, jumpIf, jumpIfFlag,
    jumpIfNotFlag]

def name : Builtin → String
  | nop => "nop"
  | hostCall => "hostCall"
  | goto => "goto"
  | set => "set"
  | copy => "copy"
  | setFlag => "setFlag"
  | clearFlag => "clearFlag"
  | add => "add"
  | call => "call"
  | ret => "ret"
  | jumpIf => "jumpIf"
  | jumpIfFlag => "jumpIfFlag"
  | jumpIfNotFlag => "jumpIfNotFlag"

def type : Builtin → CommandType
  | nop => ⟨1⟩
  | hostCall => ⟨2⟩
  | goto => ⟨3⟩
  | set => ⟨4⟩
  | copy => ⟨5⟩
  | setFlag => ⟨6⟩
  | clearFlag => ⟨7⟩
  | add => ⟨8⟩
  | call => ⟨9⟩
  | ret => ⟨10⟩
  | jumpIf => ⟨11⟩
  | jumpIfFlag => ⟨12⟩
  | jumpIfNotFlag => ⟨13⟩

def ofType? (t : CommandType) : Option Builtin := all.find? (fun b => b.type == t)

/-- How many arguments the command takes; a host call takes any number. -/
def arity : Builtin → Option Nat
  | nop | ret => some 0
  | hostCall => none
  | goto | call => some 1
  | set | copy | setFlag | clearFlag | add => some 2
  | jumpIf | jumpIfFlag | jumpIfNotFlag => some 3

theorem ofType?_type (b : Builtin) : ofType? b.type = some b := by cases b <;> rfl

theorem type_of_ofType? {t : CommandType} {b : Builtin} (h : ofType? t = some b) : b.type = t := by
  simpa using List.find?_some h

end Builtin

namespace CommandType

/-- The type of names that stand for no command at all. -/
def none : CommandType := ⟨0⟩

/-- Host commands are numbered from here on. -/
def firstHost : Nat := 14

def index (t : CommandType) : Nat := t.handle.toNat

def arity (t : CommandType) : Option Nat := (Builtin.ofType? t).bind Builtin.arity

theorem index_inj {t u : CommandType} : t.index = u.index ↔ t = u :=
  ⟨fun h => congrArg CommandType.mk (UInt32.toNat_inj.mp h), congrArg _⟩

theorem toUInt32_index (t : CommandType) : (⟨t.index.toUInt32⟩ : CommandType) = t :=
  congrArg CommandType.mk UInt32.ofNat_toNat

end CommandType

namespace Builtin

theorem index_type_lt (b : Builtin) : b.type.index < CommandType.firstHost := by
  cases b <;> decide

/-- The small handles above zero are those of the built-in commands. -/
theorem exists_type_of_index_lt {t : CommandType} (hnone : t ≠ .none)
    (hindex : t.index < CommandType.firstHost) : ∃ b : Builtin, b.type = t := by
  have hall : ∀ n < CommandType.firstHost, n ≠ 0 → ∃ b ∈ all, b.type.index = n := by decide
  have hzero : t.index ≠ 0 := fun hzero => hnone (CommandType.index_inj.mp hzero)
  obtain ⟨b, -, hb⟩ := hall _ hindex hzero
  exact ⟨b, CommandType.index_inj.mp hb⟩

end Builtin

end CommandScript
