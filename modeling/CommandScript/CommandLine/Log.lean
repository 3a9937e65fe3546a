import CommandScript.Event
import CommandScript.Text.Quoted
/-! # Log lines

An event takes a line: its level, right-aligned, its message, and its fields by name.
-/
namespace CommandScript.CommandLine

def fieldText : Field → String
  | .number n => toString n
  | .quoted s => Text.quote s
  | .shown s => s

def levelText (l : Level) : String :=
  String.ofList (List.replicate (5 - l.name.length) ' ') ++ l.name

def eventLine (e : Event) : String :=
  levelText e.level ++ " " ++ e.message ++
    String.join (e.fields.map (fun f => " " ++ f.1 ++ "=" ++ fieldText f.2)) ++ "\n"

/-- The least severe level that is shown: warnings, and one level more for each request. -/
def shownLevel : Nat → Level
  | 0 => .warn
  | 1 => .info
  | 2 => .debug
  | _ => .trace

/-- The lines of the events that are severe enough. -/
def logText (verbosity : Nat) (events : List Event) : String :=
  String.join
    ((events.filter (fun e => e.level.verbosity ≤ (shownLevel verbosity).verbosity)).map eventLine)

end CommandScript.CommandLine
