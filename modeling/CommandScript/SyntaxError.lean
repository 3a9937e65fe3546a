import CommandScript.Token
/-! # Faults in a script's text -/
namespace CommandScript

inductive SyntaxError where
  | lex (cause : LexError)
  | unexpectedToken (text : String) (line : Nat)
  | unmatchedParen (line : Nat)
  | invalidNumber (text : String) (line : Nat)
  | unknownCommand (name : String) (line : Nat)
  | argumentCount (name : String) (expected found line : Nat)
  | unknownLabel (name : String)
  | duplicateLabel (name : String) (line : Nat)
  | unterminatedMacro (name : String) (line : Nat)
  | expectedName (after : String) (line : Nat)
  | lookaheadOverflow (requested capacity : Nat)
deriving DecidableEq, Repr

namespace SyntaxError

/-- A token where the grammar has no place for it; line and input ends are named in words. -/
def unexpected (t : Token) : SyntaxError :=
  match t.kind with
  | .newline => unexpectedToken "end of line" t.line
  | .eof => unexpectedToken "end of input" t.line
  | _ => unexpectedToken t.text t.line

def message (e : SyntaxError) : String :=
  "syntax error: " ++ match e with
    | lex cause => cause.message
    | unexpectedToken text line => s!"line {line}: unexpected token '{text}'"
    | unmatchedParen line => s!"line {line}: expected ')'"
    | invalidNumber text line => s!"line {line}: invalid number '{text}'"
    | unknownCommand name line => s!"line {line}: unknown command: '{name}'"
    | argumentCount name expected found line =>
      s!"line {line}: '{name}' expects {expected} arguments, found {found}"
    | unknownLabel name => s!"unknown label: '{name}'"
    | duplicateLabel name line => s!"line {line}: label '{name}' declared twice"
    | unterminatedMacro name line => s!"line {line}: macro '{name}' is missing 'endmacro'"
    | expectedName after line => s!"line {line}: expected a name after '{after}'"
    | lookaheadOverflow requested capacity =>
      s!"cannot look {requested} tokens ahead, buffer holds {capacity}"

end SyntaxError

end CommandScript
