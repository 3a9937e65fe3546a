/-! # JSON values

Strings and numbers are kept as they are written, a string without its quotes: what they denote is
for the reader of the value to say, who may not care about all of them. The members of an object
stand in the order of the text, and a name may come more than once.
-/
namespace CommandScript

inductive Json where
  | null
  | bool (value : Bool)
  | number (lexeme : String)
  | string (raw : String)
  | array (items : List Json)
  | object (members : List (String × Json))

instance : Inhabited Json := ⟨.null⟩

end CommandScript
