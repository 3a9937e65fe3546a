import CommandScript.CommandLine.Program
/-! # Entry point

Carries the program's plan out on the file system and the standard streams.
-/
namespace CommandScript.CommandLine

/-- The code of a path that leads through something that is no directory. Codes may be negative. -/
def notDirectoryCode (code : UInt32) : Bool := code.toInt32.toInt.natAbs == 20

def FileFault.ofError : IO.Error → FileFault
  | .noFileOrDirectory .. => .missing
  | .inappropriateType _ code _ => if notDirectoryCode code then .notDirectory else .directory
  | .permissionDenied .. => .denied
  | .invalidArgument (some _) .. => .nameTooLong
  | .resourceExhausted none .. => .noSpace
  | .userError _ => .notText
  | e => .other (toString e)

def attempt {α : Type} (x : IO α) : IO (Except FileFault α) := do
  match ← x.toBaseIO with
  | .ok a => return .ok a
  | .error e => return .error (.ofError e)

/-- Writes a new file, or over one that is there. -/
def createFile (path content : String) : IO (Except WriteFault Unit) := do
  match ← attempt (IO.FS.Handle.mk path .write) with
  | .error e => return .error (.opening e)
  | .ok handle =>
    match ← attempt (do handle.putStr content; handle.flush) with
    | .error e => return .error (.writing e)
    | .ok _ => return .ok ()

def Plan.perform : Plan → IO UInt32
  | .read path next => do (next (← attempt (IO.FS.readFile path))).perform
  | .create path content next => do (next (← createFile path content)).perform
  | .print text next => do
    (← IO.getStdout).putStr text
    next.perform
  | .report text next => do
    (← IO.getStderr).putStr text
    next.perform
  | .leave code => return code.toUInt32

end CommandScript.CommandLine

def main (args : List String) : IO UInt32 := (CommandScript.CommandLine.program args).perform
