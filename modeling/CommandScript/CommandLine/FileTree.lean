import CommandScript.CommandLine.Failure
import CommandScript.NameTable
/-! # File trees

A directory with text files in it and below it, inside a system of which little is known. The
directories of a tree are those that hold a file and those that are listed. A path leads on step by
step, and fails at the first step that cannot be taken.
-/
namespace CommandScript.CommandLine

structure FileTree where
  files : NameTable String
  folders : List String := []

/-- What takes content without keeping it. -/
inductive Device where
  | null
  | full
  | output
  | reports
deriving DecidableEq, Repr

/-- Where a path leads: into the tree, or into the system around it. -/
inductive Place where
  | inside (steps : List String)
  | system (steps : List String)
deriving DecidableEq, Repr

/-- What is left of creating a file. -/
structure Written where
  files : FileTree
  output : String := ""
  reports : String := ""

def Device.ofSteps? : List String → Option Device
  | ["dev", "null"] => some null
  | ["dev", "full"] => some full
  | ["dev", "stdout"] => some output
  | ["dev", "stderr"] => some reports
  | _ => none

namespace FileTree

def ofList (files : List (String × String)) : FileTree := { files := NameTable.ofList files }

/-- What is known of the system: the usual directories, and that one file is always empty. -/
def system : FileTree where
  files := NameTable.ofList [("dev/null", "")]
  folders := ["bin", "etc", "home", "lib", "proc", "root", "sys", "tmp", "usr", "var"]

/-- The name of a file that the given steps lead to from the root of the tree. -/
def nameOf (steps : List String) : String := "/".intercalate steps

def isFile (t : FileTree) (steps : List String) : Bool := t.files.contains (nameOf steps)

def isDirectory (t : FileTree) (steps : List String) : Bool :=
  steps.isEmpty || t.folders.contains (nameOf steps) ||
    t.files.entries.any (fun f => f.1.startsWith (nameOf steps ++ "/"))

/-- A name has at most this many bytes. -/
def maxName : Nat := 255

/-- A path has at most this many bytes. -/
def maxPath : Nat := 4095

/-- A step that names nothing new. -/
def isTurn (step : String) : Bool := step == "" || step == "." || step == ".."

/-- What comes of steps that start above the root. -/
def above (steps : List String) : FileFault :=
  match steps.find? (fun s => !isTurn s) with
  | none => .directory
  | some name => if maxName < name.utf8ByteSize then .nameTooLong else .missing

/-- Goes on from a place in the tree. Each step, also one that stays, starts in a directory. -/
def walk (t : FileTree) (place : List String) : List String → Except FileFault (List String)
  | [] => .ok place
  | step :: rest =>
    if t.isFile place then .error .notDirectory
    else if !t.isDirectory place then .error .missing
    else if step = "" ∨ step = "." then t.walk place rest
    else if step = ".." then
      if place.isEmpty then .error (above rest) else t.walk place.dropLast rest
    else if maxName < step.utf8ByteSize then .error .nameTooLong
    else t.walk (place ++ [step]) rest

/-- Steps that begin with an empty one start at the root of the system. -/
def follow (t : FileTree) : List String → Except FileFault Place
  | "" :: rest => (system.walk [] rest).map .system
  | steps => (t.walk [] steps).map .inside

/-- The tree that a place belongs to, and the steps to it. -/
def locate (t : FileTree) : Place → FileTree × List String
  | .inside steps => (t, steps)
  | .system steps => (system, steps)

def checkLength (path : String) : Except FileFault Unit :=
  if maxPath < path.utf8ByteSize then .error .nameTooLong else .ok ()

def read (t : FileTree) (path : String) : Except FileFault String := do
  checkLength path
  let (tree, steps) := t.locate (← t.follow (path.splitOn "/"))
  if tree.isDirectory steps then throw .directory
  else
    match tree.files.get? (nameOf steps) with
    | some text => return text
    | none => throw .missing

/-- A path without the slashes at its end. -/
def trimmed (path : String) : String :=
  String.ofList ((path.toList.reverse.dropWhile (· == '/')).reverse)

/-- Where a new file may be put. A slash at the end asks for a directory, and then the last name is
not even looked up. -/
def vacancy (t : FileTree) (path : String) : Except FileFault Place := do
  checkLength path
  let steps := (trimmed path).splitOn "/"
  if path.endsWith "/" then
    let _ ← t.follow (steps.dropLast ++ ["."])
    throw .directory
  else
    let place ← t.follow steps
    let (tree, steps) := t.locate place
    if tree.isDirectory steps then throw .directory else return place

/-- Creates a file, over one that is there. -/
def create (t : FileTree) (path content : String) : Except WriteFault Written :=
  match t.vacancy path with
  | .error e => .error (.opening e)
  | .ok (.inside steps) =>
    .ok { files := { t with files := t.files.insert (nameOf steps) content } }
  | .ok (.system steps) =>
    match Device.ofSteps? steps with
    | none => .error (.opening .denied)
    | some .null => .ok { files := t }
    | some .full => .error (.writing .noSpace)
    | some .output => .ok { files := t, output := content }
    | some .reports => .ok { files := t, reports := content }

def text? (t : FileTree) (path : String) : Option String :=
  match t.read path with
  | .ok text => some text
  | .error _ => none

end FileTree

end CommandScript.CommandLine
