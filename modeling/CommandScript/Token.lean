/-! # Tokens

The words of a script, each with the line it starts on, and the two ways in which text can fail to
be a word.
-/
namespace CommandScript

inductive TokenKind where
  | ident
  | number
  | string
  | operator
  | leftParen
  | rightParen
  | comma
  | colon
  | newline
  | macroStart
  | macroEnd
  | const
  | eof
deriving DecidableEq, Repr, Inhabited

structure Token where
  kind : TokenKind
  text : String
  line : Nat
deriving DecidableEq, Repr, Inhabited

namespace Token

/-- A command line ends at a newline or at the end of the input. -/
def endsLine (t : Token) : Bool := t.kind == .newline || t.kind == .eof

def isName (t : Token) : Bool := t.kind == .ident

end Token

inductive LexError where
  | unexpectedChar (char : Char) (line : Nat)
  | unterminatedString (line : Nat)
deriving DecidableEq, Repr

def LexError.message : LexError → String
  | unexpectedChar c line => s!"line {line}: unexpected character '" ++ c.toString ++ "'"
  | unterminatedString line => s!"line {line}: no closing '\"' found"

end CommandScript
