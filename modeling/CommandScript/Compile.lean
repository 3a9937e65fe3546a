import CommandScript.Parsing.Node
import CommandScript.Script.Linking
/-! # Compiling

A script's nodes are read first; then its labels are linked. Macro bodies keep the labels that they
do not declare: each use of the macro settles them where it stands.
-/
namespace CommandScript

/-- Reports a linking that found every label. -/
def Linked.settle (l : Linked Script) : Logged SyntaxError Script := do
  match l.missing with
  | some name => throw (.unknownLabel name)
  | none =>
    Logged.report (.labelsResolved l.count l.value.labels.size)
    return l.value

/-- Reads a stream's nodes without linking them. -/
def readScript {τ : Type} [TokenStream τ] (names : Registries) (s : τ) :
    Logged SyntaxError Script := do
  let r ← Grammar.nodes .root (.outermost names) s
  return r.value

def compileStream {τ : Type} [TokenStream τ] (names : Registries) (s : τ) :
    Logged SyntaxError Script := do
  let read ← readScript names s
  let script ← read.link.settle
  Logged.report (.scriptCompiled script.size script.labels.size script.macros.size)
  return script

def compileSource {σ : Type} [FiniteSource σ] (names : Registries) (config : LookaheadConfig)
    (source : σ) : Logged SyntaxError Script :=
  compileStream names (Lookahead.ofSource source config)

def compile (text : String) (names : Registries) (config : LookaheadConfig) :
    Logged SyntaxError Script :=
  compileSource names config (Lexer.ofString text)

end CommandScript
