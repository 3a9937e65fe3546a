import CommandScript.Json.Printer
import CommandScript.Script
/-! # Dumps

A script as JSON, with all that it declares. A tree is an object with one member, named for the
kind of the tree.
-/
namespace CommandScript

/-- Floats are written out in full from `1e-5` up to `1e16`; what is no number is `null`. -/
def Json.floatLayout : Decimal.Layout where
  least := -5
  limit := 16
  tie := .toEven
  plus := true
  infinite := "null"
  negativeInfinite := "null"
  undefined := "null"

def UnaryOp.tag : UnaryOp → String
  | plus => "Plus"
  | minus => "Minus"

def BinaryOp.tag : BinaryOp → String
  | add => "Add"
  | sub => "Sub"
  | mul => "Mul"
  | div => "Div"
  | mod => "Mod"

def Expr.toJson : Expr → Json
  | .integer n => .record [("Integer", .int n.toInt)]
  | .float x => .record [("Float", .number (Json.floatLayout.write x))]
  | .string s => .record [("String", .text s)]
  | .identifier i => .record [("Identifier", .nat i.handle.toNat)]
  | .var v => .record [("Variable", .nat v.handle.toNat)]
  | .flag f => .record [("Flag", .nat f.handle.toNat)]
  | .label name => .record [("Label", .text name)]
  | .address a => .record [("Address", .nat a)]
  | .unary op e => .record [("Unary", .array [.text op.tag, e.toJson])]
  | .binary op l r => .record [("Binary", .array [.text op.tag, l.toJson, r.toJson])]

def Command.toJson (c : Command) : Json :=
  .record [("type", .nat c.type.index), ("args", .array (c.args.map Expr.toJson))]

mutual

def Script.toJson : Script → Json
  | ⟨commands, labels, ⟨macros⟩, constants⟩ =>
    .record
      [("commands", .array (commands.toList.map Command.toJson)),
        ("labels", .record (labels.entries.map (fun e => (e.1, .nat e.2)))),
        ("macros", .record (macrosToJson macros)),
        ("constants", .record (constants.entries.map (fun e => (e.1, e.2.toJson))))]

def macrosToJson : List (String × Script) → List (String × Json)
  | [] => []
  | (name, body) :: rest => (name, body.toJson) :: macrosToJson rest

end

def Script.dump (s : Script) : String := s.toJson.pretty 0 ++ "\n"

end CommandScript
