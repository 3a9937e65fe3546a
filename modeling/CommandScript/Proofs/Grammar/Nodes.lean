import CommandScript.Parsing.Node
import CommandScript.Proofs.Streams.Row
/-! # The grammar of nodes

A script's text is a sequence of nodes, each read in the scopes that the nodes before it have
built. The grammar is stated over plain lists of tokens, without look-ahead and without a choice
between nodes: it says what a node looks like and what it makes of the current script. Expressions
are taken as the expression reader takes them. The reader of nodes accepts exactly this grammar.
-/
namespace CommandScript

namespace Grammar

variable (ending : Except LexError EndMarker)

/-- An expression at the front of a row of tokens. -/
def ReadsExpr (resolve : String → Expr) (ts : List Token) (e : Expr) (rest : List Token) : Prop :=
  ∃ lt, expression resolve (TokenRow.mk ts ending) = .ok ⟨e, ⟨rest, ending⟩, lt⟩

/-- A command line ends at a newline, which belongs to it, or with the input. -/
inductive EndsLine : List Token → List Token → Prop
  | newline {t : Token} {ts : List Token} (h : t.kind = .newline) : EndsLine (t :: ts) ts
  | input {m : EndMarker} (h : ending = .ok m) : EndsLine [] []

/-- One or more expressions with commas between them, up to the end of the line. -/
inductive ReadsArgs (resolve : String → Expr) : List Token → List Expr → List Token → Prop
  | last {ts ts' rest : List Token} {e : Expr} (he : ReadsExpr ending resolve ts e ts')
    (hend : EndsLine ending ts' rest) : ReadsArgs resolve ts [e] rest
  | more {ts ts' rest : List Token} {comma : Token} {e : Expr} {es : List Expr}
    (he : ReadsExpr ending resolve ts e (comma :: ts')) (hcomma : comma.kind = .comma)
    (hmore : ReadsArgs resolve ts' es rest) : ReadsArgs resolve ts (e :: es) rest

/-- What stands behind the name of a command: the end of the line, or arguments. -/
def ReadsTail (resolve : String → Expr) (ts : List Token) (args : List Expr) (rest : List Token) :
    Prop :=
  args = [] ∧ EndsLine ending ts rest ∨ ReadsArgs ending resolve ts args rest

/-- A command line from a place where it may end, and the script that it makes of the current one.
A head that names the empty command does nothing, and one that names no command but a macro appends
a copy of the macro's body. Any other command is the last head and takes the rest of the line. -/
inductive ReadsLine : Scopes → List Token → Script → List Token → Prop
  | ended {sc : Scopes} {ts rest : List Token} (hend : EndsLine ending ts rest) :
    ReadsLine sc ts sc.current rest
  | emptyHead {sc : Scopes} {head : Token} {ts rest : List Token} {s : Script}
    (hname : head.kind = .ident) (hcmd : sc.names.commands.get? head.text = some .none)
    (hmore : ReadsLine sc ts s rest) : ReadsLine sc (head :: ts) s rest
  | macroHead {sc : Scopes} {head : Token} {ts rest : List Token} {body s : Script}
    (hname : head.kind = .ident) (hcmd : sc.names.commands.get? head.text = none)
    (hfound : sc.macroNamed? head.text = some body)
    (hmore : ReadsLine (sc.withCurrent (sc.current.splice body)) ts s rest) :
    ReadsLine sc (head :: ts) s rest
  | command {sc : Scopes} {head : Token} {ts rest : List Token} {type : CommandType}
    {args : List Expr} (hname : head.kind = .ident)
    (hcmd : sc.names.commands.get? head.text = some type) (htype : type ≠ .none)
    (hargs : ReadsTail ending sc.resolve ts args rest)
    (harity : ∀ n, type.arity = some n → args.length = n) :
    ReadsLine sc (head :: ts) (sc.current.push ⟨type, args⟩) rest

/-- A sequence of nodes, and the script that they make of the current one in order. -/
inductive ReadsNodes : Scopes → List Token → Script → List Token → Prop
  | done {sc : Scopes} {ts : List Token} : ReadsNodes sc ts sc.current ts
  | blank {sc : Scopes} {t : Token} {ts rest : List Token} {s : Script} (hline : t.kind = .newline)
    (hmore : ReadsNodes sc ts s rest) : ReadsNodes sc (t :: ts) s rest
  | label {sc : Scopes} {name colon : Token} {ts rest : List Token} {s : Script}
    (hname : name.kind = .ident) (hcolon : colon.kind = .colon)
    (hnew : sc.current.label? name.text = none)
    (hmore : ReadsNodes (sc.withCurrent (sc.current.declareLabel name.text)) ts s rest) :
    ReadsNodes sc (name :: colon :: ts) s rest
  | constant {sc : Scopes} {keyword name : Token} {ts ts' rest : List Token} {e : Expr} {s : Script}
    (hkeyword : keyword.kind = .const) (hname : name.kind = .ident)
    (he : ReadsExpr ending sc.resolve ts e ts')
    (hmore : ReadsNodes (sc.withCurrent (sc.current.declareConstant name.text e)) ts' s rest) :
    ReadsNodes sc (keyword :: name :: ts) s rest
  | macroBody {sc : Scopes} {keyword name close : Token} {ts ts' rest : List Token}
    {body s : Script} (hkeyword : keyword.kind = .macroStart) (hname : name.kind = .ident)
    (hbody : ReadsNodes sc.inner ts body (close :: ts')) (hclose : close.kind = .macroEnd)
    (hmore : ReadsNodes (sc.withCurrent (sc.current.declareMacro name.text body)) ts' s rest) :
    ReadsNodes sc (keyword :: name :: ts) s rest
  | line {sc : Scopes} {head : Token} {ts ts' rest : List Token} {scope s : Script}
    (hname : head.kind = .ident) (hline : ReadsLine ending sc (head :: ts) scope ts')
    (hmore : ReadsNodes (sc.withCurrent scope) ts' s rest) : ReadsNodes sc (head :: ts) s rest

/-- Where the nodes of a scope end: with the input, or at the word that closes a macro. -/
inductive Closes : Opening → List Token → List Token → Prop
  | root {m : EndMarker} (h : ending = .ok m) : Closes .root [] []
  | macroBody {name : String} {line : Nat} {t : Token} {rest : List Token}
    (h : t.kind = .macroEnd) : Closes (.macroBody name line) (t :: rest) rest

theorem complete_eq_ok {scope s : Script} {head : Token} {type : CommandType} {args : List Expr} :
    complete scope head type args = .ok s ↔
      s = scope.push ⟨type, args⟩ ∧ ∀ n, type.arity = some n → args.length = n := by
  unfold complete
  cases type.arity with
  | none => simp [eq_comm]
  | some n =>
    dsimp only
    split
    · rename_i hlen
      simp [hlen, eq_comm]
    · rename_i hlen
      simp [hlen]

end Grammar

end CommandScript
