import CommandScript.Value
/-! # Events

What a host may want to know about the work as it goes on. Each event has a level, a message and
some named fields; a field is a number, a quoted text, or something shown in its own notation.
-/
namespace CommandScript

inductive Level where
  | error
  | warn
  | info
  | debug
  | trace
deriving DecidableEq, Repr

namespace Level

/-- How much has to be asked for before events of the level are shown. -/
def verbosity : Level → Nat
  | error => 0
  | warn => 1
  | info => 2
  | debug => 3
  | trace => 4

def name : Level → String
  | error => "ERROR"
  | warn => "WARN"
  | info => "INFO"
  | debug => "DEBUG"
  | trace => "TRACE"

end Level

inductive Field where
  | number (value : Nat)
  | quoted (text : String)
  | shown (text : String)
deriving DecidableEq, Repr

inductive Event where
  | zeroFlag (flag : String)
  | builtinHandle (command : String) (handle : CommandType)
  | narrowLookahead (batch capacity : Nat)
  | configLoaded (commands identifiers vars flags : Nat)
  | macroDeclared (name : String) (commands : Nat)
  | constantDeclared (name : String) (value : Expr)
  | labelDeclared (name : String) (pc : Address)
  | macroSpliced (name : String) (commands : Nat)
  | labelsResolved (linked labels : Nat)
  | scriptCompiled (commands labels macros : Nat)
  | handlerReplaced (command : CommandType)
  | tableBuilt (slots commands : Nat)
  | frameStarted (pc : Address)
  | dispatched (pc : Address) (command : CommandType)
  | frameFinished (pc : Address)
  | unknownLabel (label : String)
  | hostCalled (args : List Value)
  | dryRun (pc : Address) (command : String) (args : List Value)

namespace Event

def level : Event → Level
  | unknownLabel .. => .error
  | zeroFlag .. | builtinHandle .. | narrowLookahead .. => .warn
  | hostCalled .. | dryRun .. => .info
  | configLoaded .. | macroDeclared .. | constantDeclared .. | labelsResolved .. | scriptCompiled ..
  | handlerReplaced .. | tableBuilt .. | frameStarted .. | frameFinished .. => .debug
  | labelDeclared .. | macroSpliced .. | dispatched .. => .trace

def message : Event → String
  | zeroFlag .. => "flag has handle 0 and can never test true"
  | builtinHandle .. => "host command uses a built-in handle"
  | narrowLookahead .. => "lookahead capacity does not exceed the batch size"
  | configLoaded .. => "host config loaded"
  | macroDeclared .. => "macro declared"
  | constantDeclared .. => "constant declared"
  | labelDeclared .. => "label declared"
  | macroSpliced .. => "macro spliced"
  | labelsResolved .. => "labels resolved"
  | scriptCompiled .. => "script compiled"
  | handlerReplaced .. => "handler replaced"
  | tableBuilt .. => "runtime built"
  | frameStarted .. => "frame start"
  | dispatched .. => "dispatch"
  | frameFinished .. => "frame finished"
  | unknownLabel .. => "unknown label"
  | hostCalled .. => "host call"
  | dryRun .. => "dry run"

def fields : Event → List (String × Field)
  | zeroFlag flag => [("flag", .quoted flag)]
  | builtinHandle command handle => [("command", .quoted command), ("handle", .number handle.index)]
  | narrowLookahead batch capacity => [("batch", .number batch), ("capacity", .number capacity)]
  | configLoaded commands identifiers vars flags =>
    [("commands", .number commands), ("identifiers", .number identifiers),
      ("variables", .number vars), ("flags", .number flags)]
  | macroDeclared name commands | macroSpliced name commands =>
    [("name", .shown name), ("commands", .number commands)]
  | constantDeclared name value => [("name", .shown name), ("value", .shown value.text)]
  | labelDeclared name pc => [("name", .shown name), ("pc", .number pc)]
  | labelsResolved linked labels => [("linked", .number linked), ("labels", .number labels)]
  | scriptCompiled commands labels macros =>
    [("commands", .number commands), ("labels", .number labels), ("macros", .number macros)]
  | handlerReplaced command => [("command", .shown (toString command.index))]
  | tableBuilt slots commands => [("slots", .number slots), ("commands", .number commands)]
  | frameStarted pc | frameFinished pc => [("pc", .number pc)]
  | dispatched pc command => [("pc", .number pc), ("command", .shown (toString command.index))]
  | unknownLabel label => [("label", .quoted label)]
  | hostCalled args => [("args", .shown (Value.rowText args))]
  | dryRun pc command args =>
    [("pc", .number pc), ("command", .shown command), ("args", .shown (Value.rowText args))]

end Event

end CommandScript
