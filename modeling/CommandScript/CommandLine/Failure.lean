import CommandScript.HostConfig
import CommandScript.Machine.DispatchTable
import CommandScript.SyntaxError
/-! # Failures of the program

A failure says what was being done and gives the chain of its causes, the nearest first. A single
cause is set in by four columns; several are numbered. Further lines of a cause are set in as deep
as its first.
-/
namespace CommandScript.CommandLine

/-- Why a file could not be read or written. -/
inductive FileFault where
  | missing
  | directory
  | notDirectory
  | denied
  | nameTooLong
  | noSpace
  | notText
  | other (text : String)
deriving DecidableEq, Repr

def FileFault.message : FileFault → String
  | missing => "No such file or directory (os error 2)"
  | denied => "Permission denied (os error 13)"
  | notDirectory => "Not a directory (os error 20)"
  | directory => "Is a directory (os error 21)"
  | noSpace => "No space left on device (os error 28)"
  | nameTooLong => "File name too long (os error 36)"
  | notText => "stream did not contain valid UTF-8"
  | other text => text

/-- Why a file could not be created: it was not to be had, or did not take its content. -/
inductive WriteFault where
  | opening (cause : FileFault)
  | writing (cause : FileFault)
deriving DecidableEq, Repr

structure Failure where
  doing : String
  causes : List String
deriving DecidableEq, Repr

namespace Failure

def ofFile (doing : String) (e : FileFault) : Failure := ⟨doing, [e.message]⟩

def ofWrite (path : String) : WriteFault → Failure
  | .opening cause => ofFile ("Creating " ++ path) cause
  | .writing cause => ofFile "Writing compiled script" cause

def ofConfig (doing : String) (e : ConfigError) : Failure := ⟨doing, [e.message, e.cause]⟩

def ofSyntax (doing : String) (e : SyntaxError) : Failure :=
  ⟨doing, e.message :: match e with
    | .lex cause => [cause.message]
    | _ => []⟩

def ofBuild (doing : String) (e : BuildError) : Failure := ⟨doing, [e.message]⟩

def ofRun (doing : String) (e : RuntimeError) : Failure :=
  ⟨doing, e.message :: match e with
    | .bind cause => [cause.message]
    | .eval cause => [cause.message]
    | _ => []⟩

/-- A cause behind its lead, with further lines set in by the given depth. -/
def indented (lead : String) (depth : Nat) (cause : String) : String :=
  lead ++ String.ofList (cause.toList.flatMap
    (fun c => if c = '\n' then c :: List.replicate depth ' ' else [c]))

def numbered : Nat → List String → List String
  | _, [] => []
  | n, cause :: rest =>
    let number := toString n
    let lead := String.ofList (List.replicate (5 - number.length) ' ') ++ number ++ ": "
    indented lead 7 cause :: numbered (n + 1) rest

def text (f : Failure) : String :=
  "Error: " ++ f.doing ++
    (match f.causes with
      | [] => ""
      | [cause] => "\n\nCaused by:\n" ++ indented "    " 4 cause
      | causes => "\n\nCaused by:\n" ++ "\n".intercalate (numbered 0 causes)) ++
    "\n"

end Failure

end CommandScript.CommandLine
