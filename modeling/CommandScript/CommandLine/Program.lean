import CommandScript.CommandLine.Log
import CommandScript.CommandLine.Options
import CommandScript.CommandLine.Plan
import CommandScript.Compile
import CommandScript.Machine.Run
import CommandScript.Script.Dump
import CommandScript.Script.Listing
/-! # The program

Reads a script and its host's description, compiles it, writes what was asked for and runs it. In
such a run the commands of the host do nothing but report their arguments.
-/
namespace CommandScript.CommandLine

def versionText : String := "fxscript 0.1.0\n"

def usageText : String :=
  "Usage: fxscript [OPTIONS] <INPUT>\n\n" ++
  "Options:\n" ++
  "  -c, --config <CONFIG>  JSON file with host command/identifier/variable/flag tables\n" ++
  "  -e, --emit <EMIT>      Artifact to write: listing or json\n" ++
  "  -o, --output <OUTPUT>  Write the artifact here instead of stdout\n" ++
  "  -r, --run [<LABEL>]    Execute the script, from LABEL if given, host commands as dry runs\n" ++
  "  -v, --verbose...       More log output (-v info, -vv debug, -vvv trace)\n" ++
  "  -h, --help             Print help\n" ++
  "  -V, --version          Print version\n"

/-- More steps than anyone waits for. -/
def stepLimit : Nat := 0x4000000000000000

/-- A host command that only reports what it was given. -/
def dryRun (name : String) : Handler Memory := fun args => do
  let values ← Action.evaluate args
  Action.report (.dryRun (← Action.frame).pc name values)
  return .next

/-- The types of the host's commands, up to the largest one that has a name. -/
def hostTypes (names : Registries) : List CommandType :=
  (List.range' CommandType.firstHost (names.maxCommand.index + 1 - CommandType.firstHost)).map
    (fun n => ⟨n.toUInt32⟩)

/-- A dry run for every command of the host, named or not. -/
def dryRuns (names : Registries) : List (CommandType × Handler Memory) :=
  (hostTypes names).map (fun t => (t, dryRun ((names.commandName? t).getD "?")))

def assemble (names : Registries) (script : Script) : Logged BuildError (Machine Memory) := do
  let (events, assembly) := (Assembly.ofScript script).registerAll (dryRuns names)
  Logged.reportAll events
  assembly.build

/-- The variables that a run has written, by name. -/
def variableLines (names : Registries) (m : Memory) : String :=
  let named := m.storage.cells.map (fun c => ((names.variableName? c.1).getD "?", c.2.toInt))
  let sorted := named.mergeSort (fun a b => a.1 < b.1 || (a.1 == b.1 && a.2 ≤ b.2))
  String.join (sorted.map (fun e => e.1 ++ " = " ++ toString e.2 ++ "\n"))

/-- Reports the events of some work and goes on with its result. -/
def Plan.after {ε α : Type} (o : Options) (x : Logged ε α) (bad : ε → Failure) (good : α → Plan) :
    Plan :=
  .report (logText o.verbosity x.events) <|
    match x.result with
    | .ok a => good a
    | .error e => .fail (bad e)

def runPlan (o : Options) (names : Registries) (script : Script) (entry : Option String) : Plan :=
  .after o (assemble names script) (.ofBuild "Building dispatch table") fun machine =>
    let r := match entry with
      | some label => machine.startAt stepLimit label .empty
      | none => machine.start stepLimit 0 .empty
    .after o ⟨r.events, r.result⟩ (.ofRun "Running script") fun _ =>
      .print (variableLines names r.frame.env) (.leave 0)

def artifactText (names : Registries) (script : Script) : Artifact → String
  | .listing => script.listing names
  | .json => script.dump

/-- Runs the script if that was asked for. -/
def runStage (o : Options) (names : Registries) (script : Script) : Plan :=
  match o.run with
  | some entry => runPlan o names script entry
  | none => .leave 0

/-- Writes what was asked for; a script that is not run is listed. -/
def writeStage (o : Options) (names : Registries) (script : Script) : Plan :=
  if o.emit.isSome || o.run.isNone then
    let text := artifactText names script (o.emit.getD .listing)
    match o.output with
    | none => .print text (runStage o names script)
    | some path => .create path text fun
      | .ok _ => runStage o names script
      | .error e => .fail (.ofWrite path e)
  else runStage o names script

def compileStage (o : Options) (source : String) (config : HostConfig) : Plan :=
  .after o (compile source config.registries config.lookahead)
    (.ofSyntax ("Compiling " ++ o.input)) (writeStage o config.registries)

def configStage (o : Options) (source : String) : Plan :=
  match o.config with
  | none => compileStage o source .default
  | some path => .read path fun
    | .error e => .fail (.ofFile ("Reading config " ++ path) e)
    | .ok text =>
      .after o (HostConfig.load text) (.ofConfig ("Loading config " ++ path))
        (compileStage o source)

def program (args : List String) : Plan :=
  match Options.parse args with
  | .error .usage => .report ("error: invalid arguments\n\n" ++ usageText) (.leave 2)
  | .error .help => .print usageText (.leave 0)
  | .error .version => .print versionText (.leave 0)
  | .ok o => .read o.input fun
    | .error e => .fail (.ofFile ("Reading " ++ o.input) e)
    | .ok source => configStage o source

end CommandScript.CommandLine
