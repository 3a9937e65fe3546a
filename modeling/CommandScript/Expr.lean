import CommandScript.Decimal.Layout
import CommandScript.Handle
/-! # Expressions

The trees that stand as command arguments. A name that is no constant, identifier, variable or flag
is the name of a label, and stays so until the label's address is known.
-/
namespace CommandScript

/-- A place in a script: the number of commands in front of it. -/
abbrev Address := Nat

/-- Floats are written out in full from `1e-4` up to `1e16`. -/
def floatLayout : Decimal.Layout where
  least := -4
  limit := 16
  tie := .up
  plus := false
  infinite := "inf"
  negativeInfinite := "-inf"
  undefined := "NaN"

def floatText (x : Float) : String := floatLayout.write x

inductive UnaryOp where
  | plus
  | minus
deriving DecidableEq, Repr

def UnaryOp.symbol : UnaryOp → String
  | plus => "+"
  | minus => "-"

def UnaryOp.ofSymbol? (s : String) : Option UnaryOp :=
  if s = "+" then some plus else if s = "-" then some minus else none

inductive BinaryOp where
  | add
  | sub
  | mul
  | div
  | mod
deriving DecidableEq, Repr

namespace BinaryOp

def symbol : BinaryOp → String
  | add => "+"
  | sub => "-"
  | mul => "*"
  | div => "/"
  | mod => "%"

def ofSymbol? (s : String) : Option BinaryOp :=
  if s = "+" then some add
  else if s = "-" then some sub
  else if s = "*" then some mul
  else if s = "/" then some div
  else if s = "%" then some mod
  else none

/-- Multiplication and its kin bind tighter than addition. -/
def isMultiplicative : BinaryOp → Bool
  | mul | div | mod => true
  | add | sub => false

end BinaryOp

inductive Expr where
  | integer (value : Int32)
  | float (value : Float)
  | string (text : String)
  | identifier (value : Identifier)
  | var (value : Variable)
  | flag (value : Flag)
  | label (name : String)
  | address (target : Address)
  | unary (op : UnaryOp) (operand : Expr)
  | binary (op : BinaryOp) (left right : Expr)

namespace Expr

instance : Inhabited Expr := ⟨integer 0⟩

/-- Whether some label's address is still to be found. -/
def hasLabel : Expr → Bool
  | label _ => true
  | unary _ e => e.hasLabel
  | binary _ l r => l.hasLabel || r.hasLabel
  | _ => false

/-- Binary operations are always in parentheses; strings are written as they are. -/
def text : Expr → String
  | integer n => toString n.toInt
  | float x => floatText x
  | string s => "\"" ++ s ++ "\""
  | identifier i => s!"ident({i.handle.toNat})"
  | var v => s!"var({v.handle.toNat})"
  | flag f => s!"flag({f.handle.toNat})"
  | label name => name
  | address a => s!"@{a}"
  | unary op e => op.symbol ++ e.text
  | binary op l r => "(" ++ l.text ++ " " ++ op.symbol ++ " " ++ r.text ++ ")"

end Expr

end CommandScript
