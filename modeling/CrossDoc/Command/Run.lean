import CrossDoc.Command.Help
import CrossDoc.Command.Options
import CrossDoc.Config.Validation
import CrossDoc.Log.Logger
import CrossDoc.Run.Generator

/-!
# The documentation command

Sets up logging, reads the options, builds and checks the configuration, and
generates the documentation.  The exit code is 1 if anything of that fails, 2
if the analysis reported errors and the configuration asks to fail then, and 0
otherwise.
-/

namespace CrossDoc

namespace Command

def exitSuccess : Nat := 0

def exitFailure : Nat := 1

def exitAnalysisErrors : Nat := 2

def error (message : Text) : Traced Unit := Traced.log .error "cli" message

def configurationError (e : ConfigError) : Text := "configuration error: " ++ e.toText

/-- What is said about a completed run. -/
def summary (c : Config) (r : Report) : Text :=
  "Documented " ++ Text.ofNat r.declarations ++ " declaration(s) on " ++
    Text.ofNat r.platforms ++ " platform(s), " ++ Text.ofNat r.pages ++
    " page(s) written to " ++ c.outputDir

/-- Runs a configuration that has been checked. -/
def runConfig (c : Config) (disk : Disk) : Traced (Nat × Disk) := do
  if c.skip then
    Traced.log .info "cli" "skip parameter is true so no output will be produced"
    return (exitSuccess, disk)
  else
    let g : Generator := { config := c, analyzer := .ofListings disk, disk := disk }
    match ← g.generate with
    -- The plugins of every run have no foreign implementations, so this is a failure.
    | (.error _, disk) => return (exitFailure, disk)
    | (.ok report, disk) =>
        Traced.log .info "cli" (summary c report)
        if report.analysisErrors && c.failOnError then
          error "analysis reported errors and fail-on-error is set"
          return (exitAnalysisErrors, disk)
        else return (exitSuccess, disk)

/-- Runs the command: the exit code and the disk afterwards, but for what a
logger makes of the reports. -/
def run (o : CommandOptions) (disk : Disk) : Traced (Nat × Disk) := do
  if !o.errors.isEmpty then
    o.errors.forM error
    return (exitFailure, disk)
  else
    match ← o.buildConfig disk with
    | .error e =>
        error (configurationError e)
        return (exitFailure, disk)
    | .ok c =>
        match c.validate with
        | .error e =>
            error (configurationError e)
            return (exitFailure, disk)
        | .ok () => runConfig c disk

/-- Runs the command with a logger: the exit code, the logger and the outlet
afterwards.  The logger gets what the run reports when the run is over.  Before
that no line reaches a file: a file sink holds lines back up to an error, and
behind an error a run neither reads nor writes. -/
def runLogged (clock : Log.Clock) (o : CommandOptions) (logger : Log.Logger) (out : Log.Outlet) :
    Nat × Log.Logger × Log.Outlet :=
  let run := run o out.disk
  let (code, disk) := run.value
  (code, logger.logAll clock (Event.records run.events) { out with disk := disk })

/-- The paths that a run looks at, on a disk that holds the configuration file:
sources, class path, include files, and where it writes. -/
def inputPaths (o : CommandOptions) (log : Log.Options) (disk : Disk) : List Text :=
  let passPaths (p : Pass) := p.sourceRoots ++ p.classpath ++ p.includes
  let paths := match (o.buildConfig disk).value with
    | .ok c => c.passes.flatMap passPaths ++ [c.outputDir]
    | .error _ => []
  (paths ++ [log.logFile]).filter fun p => !p.isEmpty

/-- What a process leaves behind. -/
structure Outcome where
  exitCode : Nat
  stderr : Text
  disk : Disk
deriving DecidableEq, Repr

/-- The whole process, given its arguments, the value of the environment
variable for logging (empty if it is not set), and the files it finds. -/
def process (clock : Log.Clock) (args : List Text) (env : Text) (disk : Disk) : Outcome :=
  let (logger, out) := Log.Logger.fresh.init (.ofArgs args env) { disk := disk }
  let o := CommandOptions.ofArgs args
  if o.showHelp then ⟨exitSuccess, out.stderr ++ help, out.disk⟩
  else
    let (code, logger, out) := runLogged clock o logger out
    let (_, out) := logger.flush out
    ⟨code, out.stderr, out.disk⟩

end Command

end CrossDoc
