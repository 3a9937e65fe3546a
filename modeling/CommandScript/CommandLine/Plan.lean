import CommandScript.CommandLine.Failure
import CommandScript.CommandLine.FileTree
/-! # Plans

What a program wants of the world, one wish after the other: files to read and to create, text to
print and to report, and a code to leave with. What follows a wish may depend on how it was met.
-/
namespace CommandScript.CommandLine

inductive Plan where
  | read (path : String) (next : Except FileFault String → Plan)
  | create (path content : String) (next : Except WriteFault Unit → Plan)
  | print (text : String) (next : Plan)
  | report (text : String) (next : Plan)
  | leave (code : Nat)

def Plan.fail (f : Failure) : Plan := .report f.text (.leave 1)

/-- All that a plan leaves behind. -/
structure Outcome where
  code : Nat
  output : String
  reports : String
  files : FileTree

/-- Carries a plan out on a file tree. -/
def Plan.runIn (files : FileTree) : Plan → Outcome
  | .read path next => (next (files.read path)).runIn files
  | .create path content next =>
    match files.create path content with
    | .ok w =>
      let o := (next (.ok ())).runIn w.files
      { o with output := w.output ++ o.output, reports := w.reports ++ o.reports }
    | .error e => (next (.error e)).runIn files
  | .print text next =>
    let o := next.runIn files
    { o with output := text ++ o.output }
  | .report text next =>
    let o := next.runIn files
    { o with reports := text ++ o.reports }
  | .leave code => ⟨code, "", "", files⟩

end CommandScript.CommandLine
