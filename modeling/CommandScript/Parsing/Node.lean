import CommandScript.Logged
import CommandScript.Parsing.Expression
import CommandScript.Parsing.Scopes
import CommandScript.Script.Splice
/-! # Reading a script

A script is a row of nodes: empty lines, labels, constants, macros and command lines. A command
line has any number of heads, each the name of a macro or of the empty command, and perhaps a
command with its arguments at the end. A node is read in the scopes around it and changes the
current one only.
-/
namespace CommandScript

open TokenStream
variable {τ : Type} [TokenStream τ]

theorem Token.ne_eof_of_not_endsLine {t : Token} (h : ¬t.endsLine) : t.kind ≠ .eof := by
  intro hk
  simp [Token.endsLine, hk] at h

theorem Token.ne_eof_of_isName {t : Token} (h : t.isName) : t.kind ≠ .eof := by
  intro hk
  simp [Token.isName, hk] at h

/-- What the nodes being read belong to. -/
inductive Opening where
  | root
  | macroBody (name : String) (line : Nat)

def Opening.terminator : Opening → TokenKind
  | root => .eof
  | macroBody .. => .macroEnd

/-- The fault of an input that ends before the nodes do. -/
def Opening.unfinished (o : Opening) (t : Token) : SyntaxError :=
  match o with
  | root => .unexpected t
  | macroBody name line => .unterminatedMacro name line

/-- A node either ends its scope or gives the scope a new shape. -/
inductive NodeEnd (s : τ) where
  | closed (rest : τ) (le : size rest ≤ size s)
  | extended (scope : Script) (rest : τ) (lt : size rest < size s)

namespace Grammar

/-- A name behind a keyword. -/
def declaredName (after : String) (s : τ) : Except SyntaxError (Parsed String s) := do
  let t ← first s
  if h : t.token.isName then
    return ⟨t.token.text, t.after, t.after_lt (Token.ne_eof_of_isName h)⟩
  else throw (.expectedName after t.token.line)

/-- Arguments up to and over the end of their line. -/
def arguments (resolve : String → Expr) (s : τ) : Except SyntaxError (Reached (List Expr) s) := do
  let t ← first s
  if t.token.endsLine then return ⟨[], t.after, t.after_le⟩
  else
    let e ← expression resolve t.here
    have he := Nat.lt_of_lt_of_le e.lt t.here_le
    let next ← first e.rest
    if next.token.kind = .comma then
      let ahead ← first next.after
      if ahead.token.endsLine then throw (.unexpected ahead.token)
      else
        have ha := Nat.lt_of_le_of_lt (Nat.le_trans ahead.here_le next.after_le) he
        let more ← arguments resolve ahead.here
        return ⟨e.value :: more.value, more.rest, Nat.le_trans more.le (Nat.le_of_lt ha)⟩
    else if next.token.endsLine then
      return ⟨[e.value], next.after, Nat.le_trans next.after_le (Nat.le_of_lt he)⟩
    else throw (.unexpected next.token)
termination_by size s

/-- Appends a command, if it has as many arguments as its type asks for. -/
def complete (scope : Script) (head : Token) (type : CommandType) (args : List Expr) :
    Except SyntaxError Script :=
  match type.arity with
  | some n =>
    if args.length = n then .ok (scope.push ⟨type, args⟩)
    else .error (.argumentCount head.text n args.length head.line)
  | none => .ok (scope.push ⟨type, args⟩)

mutual

/-- The line behind one of its heads. -/
def commandLine (sc : Scopes) (head : Token) (s : τ) : Logged SyntaxError (Reached Script s) :=
  if head.kind ≠ .ident then throw (.unexpected head)
  else
    match sc.names.commands.get? head.text with
    | some type =>
      if type = .none then heads sc s
      else do
        let args ← arguments sc.resolve s
        let scope ← complete sc.current head type args.value
        return ⟨scope, args.rest, args.le⟩
    | none =>
      match sc.macroNamed? head.text with
      | some body => do
        Logged.report (.macroSpliced head.text body.size)
        heads (sc.withCurrent (sc.current.splice body)) s
      | none => throw (.unknownCommand head.text head.line)
termination_by (size s, 1)

/-- The line from a place where it may end. -/
def heads (sc : Scopes) (s : τ) : Logged SyntaxError (Reached Script s) := do
  let t ← (first s : Except SyntaxError _)
  if h : t.token.endsLine then return ⟨sc.current, t.after, t.after_le⟩
  else
    have := t.after_lt (Token.ne_eof_of_not_endsLine h)
    let line ← commandLine sc t.token t.after
    return ⟨line.value, line.rest, Nat.le_trans line.le t.after_le⟩
termination_by (size s, 0)

end

/-- A label, whose name is known to be followed by a colon. -/
def labelDeclaration (sc : Scopes) (name : Token) (s : τ) :
    Logged SyntaxError (Reached Script s) := do
  let colon ← (first s : Except SyntaxError _)
  if sc.current.labels.contains name.text then throw (.duplicateLabel name.text name.line)
  else
    Logged.report (.labelDeclared name.text sc.current.size)
    return ⟨sc.current.declareLabel name.text, colon.after, colon.after_le⟩

def constantDeclaration (sc : Scopes) (keyword : Token) (s : τ) :
    Logged SyntaxError (Reached Script s) := do
  let name ← declaredName keyword.text s
  let e ← expression sc.resolve name.rest
  Logged.report (.constantDeclared name.value e.value)
  return ⟨sc.current.declareConstant name.value e.value, e.rest,
    Nat.le_of_lt (Nat.lt_trans e.lt name.lt)⟩

/-- A node that starts with a name: a label if a colon follows, and else a command line. -/
def named (sc : Scopes) (s : τ) : Logged SyntaxError (Parsed Script s) := do
  let ahead ← (second s : Except SyntaxError _)
  let name ← (first ahead.here : Except SyntaxError _)
  if h : name.token.isName then
    have lt := Nat.lt_of_lt_of_le (name.after_lt (Token.ne_eof_of_isName h)) ahead.here_le
    if ahead.token.kind = .colon then
      let r ← labelDeclaration sc name.token name.after
      return ⟨r.value, r.rest, Nat.lt_of_le_of_lt r.le lt⟩
    else
      let r ← commandLine sc name.token name.after
      return ⟨r.value, r.rest, Nat.lt_of_le_of_lt r.le lt⟩
  else throw (.unexpected name.token)

mutual

def node (opening : Opening) (sc : Scopes) (s : τ) : Logged SyntaxError (NodeEnd s) := do
  let t ← (first s : Except SyntaxError _)
  if t.token.kind = opening.terminator then return .closed t.after t.after_le
  else
    match hk : t.token.kind with
    | .macroStart =>
      have lt := t.after_lt_of_kind hk (by decide)
      let name ← declaredName t.token.text t.after
      have hn := Nat.lt_trans name.lt lt
      let body ← nodes (.macroBody name.value t.token.line) sc.inner name.rest
      Logged.report (.macroDeclared name.value body.value.size)
      return .extended (sc.current.declareMacro name.value body.value) body.rest
        (Nat.lt_of_le_of_lt body.le hn)
    | .const =>
      let r ← constantDeclaration sc t.token t.after
      return .extended r.value r.rest (Nat.lt_of_le_of_lt r.le (t.after_lt_of_kind hk (by decide)))
    | .ident =>
      let r ← named sc t.here
      return .extended r.value r.rest (Nat.lt_of_lt_of_le r.lt t.here_le)
    | .newline => return .extended sc.current t.after (t.after_lt_of_kind hk (by decide))
    | .eof => throw (opening.unfinished t.token)
    | _ => throw (.unexpected t.token)
termination_by (size s, 0)

/-- Nodes up to the end of their scope. -/
def nodes (opening : Opening) (sc : Scopes) (s : τ) : Logged SyntaxError (Reached Script s) := do
  match ← node opening sc s with
  | .closed rest le => return ⟨sc.current, rest, le⟩
  | .extended scope rest lt =>
    let r ← nodes opening (sc.withCurrent scope) rest
    return ⟨r.value, r.rest, Nat.le_trans r.le (Nat.le_of_lt lt)⟩
termination_by (size s, 1)

end

end Grammar

end CommandScript
