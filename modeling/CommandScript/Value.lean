import CommandScript.Expr
/-! # Values

What an expression comes to: a number, a text, a handle or an address.
-/
namespace CommandScript

inductive Value where
  | int (value : Int32)
  | float (value : Float)
  | str (text : String)
  | identifier (value : Identifier)
  | var (value : Variable)
  | flag (value : Flag)
  | address (target : Address)

namespace Value

instance : Inhabited Value := ⟨int 0⟩

/-- The leaf that denotes the value. -/
def toExpr : Value → Expr
  | int n => .integer n
  | float x => .float x
  | str s => .string s
  | identifier i => .identifier i
  | var v => .var v
  | flag f => .flag f
  | address a => .address a

def text (v : Value) : String := v.toExpr.text

def kind : Value → String
  | int _ => "integer"
  | float _ => "float"
  | str _ => "string"
  | identifier _ => "identifier"
  | var _ => "variable"
  | flag _ => "flag"
  | address _ => "address"

/-- Several values in a row. -/
def rowText (values : List Value) : String := ", ".intercalate (values.map text)

end Value

end CommandScript
