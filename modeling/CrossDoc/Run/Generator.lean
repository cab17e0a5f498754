import CrossDoc.Plugin.Builtin
import CrossDoc.Run.Pool

/-!
# Generating documentation

A run goes through eight stages: the passes are analyzed, plugins installed,
modules translated, merged and transformed, pages created and transformed, and
the result rendered.  Each stage announces itself; the first failure ends the
run and is reported once.  Only the use of an implementation of another type
than that of its point makes a run break off, without a report.
-/

namespace CrossDoc

/-- The stages of a run, in their order. -/
inductive Stage where
  | setup
  | plugins
  | translate
  | merge
  | transformModule
  | createPages
  | transformPages
  | render
deriving DecidableEq, Repr, Inhabited

namespace Stage

def name : Stage → Text
  | .setup => "Setting up analysis environments"
  | .plugins => "Initializing plugins"
  | .translate => "Creating documentation models"
  | .merge => "Merging documentation models"
  | .transformModule => "Transforming documentation model"
  | .createPages => "Creating pages"
  | .transformPages => "Transforming pages"
  | .render => "Rendering"

def all : List Stage :=
  [.setup, .plugins, .translate, .merge, .transformModule, .createPages, .transformPages,
    .render]

end Stage

/-- How the analysis of a pass can go wrong. -/
inductive AnalysisFault where
  | failed (message : Text)
  /-- It broke off with a message. -/
  | thrown (message : Text)
deriving DecidableEq, Repr, Inhabited

/-- Analyzes the pass at a position. -/
abbrev Analyzer := Nat → Pass → AnalysisSettings → Traced (Except AnalysisFault (Option Environment))

/-- An analysis breaks off where it cannot tell whether a path exists. -/
def AnalysisError.fault (e : AnalysisError) : AnalysisFault :=
  match e with
  | .unknownStatus _ _ => .thrown e.message
  | _ => .failed e.message

/-- Analyzes the listings of a pass. -/
def Analyzer.ofListings (disk : Disk) : Analyzer := fun _ _ settings => do
  match ← (Listing.analyze disk settings).run with
  | .ok e => return .ok (some e)
  | .error e => return .error e.fault

/-- A summary of a completed run. -/
structure Report where
  platforms : Nat := 0
  /-- The modules that were merged. -/
  modules : Nat := 0
  /-- The declarations that are documented. -/
  declarations : Nat := 0
  pages : Nat := 0
  analysisErrors : Bool := false
  warnings : Nat := 0
  errors : Nat := 0
deriving DecidableEq, Repr, Inhabited

/-- All that a run starts from. -/
structure Generator where
  config : Config
  analyzer : Analyzer
  /-- Plugins besides those of every run. -/
  extraPlugins : List Plugin := []
  disk : Disk := {}

namespace Generator

/-- A computation of a run: it reports, and may fail or break off. -/
abbrev StageM := ExceptT Fault Traced

def enter (s : Stage) : StageM Unit := Traced.notice .progress s.name

/-- Calls an extension in a stage. -/
def call {α : Type} (stage : Stage) (point : Point) (answer : Traced (Except Fault α)) :
    StageM α := do
  match ← (liftM (point.call Except.isOk answer) : StageM (Except Fault α)) with
  | .ok a => return a
  | .error fault => throw (.failed (fault.during stage.name))

/-! ## Analysis -/

/-- What is said before a pass is analyzed. -/
def setupReport (p : Pass) : Traced Unit := do
  let settings := p.analysisSettings
  let entries := settings.classpath.length
  Traced.log .debug "analysis"
    ("setting up " ++ p.platform.displayName ++ ", " ++ Text.ofNat settings.sourceRoots.length ++
      " source root(s), " ++ Text.ofNat entries ++ " classpath entr" ++
      (if entries = 1 then "y" else "ies"))
  p.samples.forM fun sample => Traced.notice .debug ("Samples: " ++ sample)
  p.externalLinks.forM fun link =>
    Traced.notice .debug
      ("External documentation: " ++ link.url ++ " (package list " ++ link.packageList ++ ")")

/-- Analyzes one pass. -/
def analyzePass (analyzer : Analyzer) (position : Nat) (p : Pass) : StageM AnalyzedPass := do
  setupReport p
  match ← ((analyzer position p p.analysisSettings).relay :
      Traced (Except AnalysisFault (Option Environment))) with
  | .ok environment => return ⟨p.platform, p, environment⟩
  | .error (.failed message) =>
      throw (.failed (.ofStage Stage.setup.name
        ("cannot analyze " ++ p.platform.displayName ++ ": " ++ message)))
  | .error (.thrown message) =>
      throw (.failed (.ofStage Stage.setup.name (Text.untilNul message)))

/-- Analyzes passes, the first of which is at `position`. -/
def analyzeFrom (analyzer : Analyzer) : Nat → List Pass → StageM (List AnalyzedPass)
  | _, [] => pure []
  | position, p :: rest => do
      let a ← analyzePass analyzer position p
      return a :: (← analyzeFrom analyzer (position + 1) rest)

def setup (g : Generator) : StageM (List AnalyzedPass) := do
  if let some root := g.config.cacheRoot then
    Traced.notice .debug ("Cache root: " ++ root)
  analyzeFrom g.analyzer 0 g.config.passes

/-! ## Plugins -/

/-- The plugins of a run: those of every run and the extra ones, without those
that the configuration disables. -/
def plugins (g : Generator) : List Plugin :=
  (Plugin.builtin ++ g.extraPlugins).filter fun p => !g.config.isDisabled p.name

/-- Reports the plugins that are disabled. -/
def reportDisabled (g : Generator) : Traced Unit :=
  (Plugin.builtin ++ g.extraPlugins).forM fun p => do
    if g.config.isDisabled p.name then
      Traced.log .debug "plugin" ("plugin '" ++ p.name ++ "' is disabled")

/-- The failures of some single points, those that are not filled exactly once.
An implementation of another type breaks this off. -/
def unfilled (r : Registry Extension) : List Point → Except Fault (List Failure)
  | [] => .ok []
  | p :: rest =>
      match r.resolveSingle p.name p.cardinality p.type with
      | .ok _ => unfilled r rest
      | .error (.failed f) => do return f :: (← unfilled r rest)
      | .error (.thrown message) => .error (.thrown message)

/-- Installs the plugins and checks that every single point is filled. -/
def installPlugins (g : Generator) : StageM (Registry Extension) := do
  match ← ((Plugin.installAll g.plugins g.config).run :
      Traced (Except PluginError (Registry Extension))) with
  | .error e => throw (.failed e.toFailure)
  | .ok r =>
      r.pointNames.forM fun point =>
        (Traced.log .debug "plugin"
          (point ++ ": " ++ Text.ofNat (r.ids point).length ++ " extension(s)") : Traced Unit)
      match unfilled r Point.singles with
      | .error fault => throw fault
      | .ok (f :: _) => throw (.failed f)
      | .ok [] => return r

/-! ## Extensions of a point -/

/-- The only implementation of a single point. -/
def single (r : Registry Extension) (p : Point) : StageM p.Interface :=
  liftExcept do
    let e ← r.resolveSingle p.name p.cardinality p.type
    e.cast p

/-- The implementations of a point in order, with their ids. -/
def chain (r : Registry Extension) (p : Point) : StageM (List (Text × p.Interface)) :=
  liftExcept do
    let es ← r.resolveAll p.name p.type
    return (r.ids p.name).zip (← es.mapM (·.cast p))

/-! ## Models -/

/-- The module of the symbols and that of the files of one pass. -/
def translatePass (c : RunContext) (a : AnalyzedPass)
    (symbols files : AnalyzedPass → RunContext → Traced (Except Fault DocModule)) :
    Traced (Except Fault (DocModule × DocModule)) := do
  Traced.log .debug "analysis" ("translating " ++ a.platform.displayName)
  match ← Point.symbolTranslator.call Except.isOk (symbols a c) with
  | .error fault => return .error fault
  | .ok symbolModule =>
      match ← Point.fileTranslator.call Except.isOk (files a c) with
      | .error fault => return .error fault
      | .ok fileModule => return .ok (symbolModule, fileModule)

/-- The modules of all passes: first those of the symbols, then those of the
files, each in the order of the passes. -/
def translate (r : Registry Extension) (c : RunContext) : StageM (List DocModule) := do
  let symbols ← single r .symbolTranslator
  let files ← single r .fileTranslator
  let jobs := c.passes.map fun a => translatePass c a symbols files
  let result ← (Pool.run 0 Stage.translate.name jobs : Traced (PoolResult (DocModule × DocModule)))
  match result.answer with
  | .error failure => throw (.failed failure)
  | .ok pairs => return pairs.map Prod.fst ++ pairs.map Prod.snd

def merge (r : Registry Extension) (c : RunContext) (ms : List DocModule) : StageM DocModule := do
  let run ← single r .merger
  call .merge .merger (run ms c)

/-- Applies transforms one after the other. -/
def applyChain {α : Type} (stage : Stage) (point : Point) (module : Text) (c : RunContext) :
    List (Text × (α → RunContext → Traced (Except Fault α))) → α → StageM α
  | [], a => pure a
  | (id, run) :: rest, a => do
      Traced.log .debug module ("applying " ++ id)
      let next ← call stage point (run a c)
      applyChain stage point module c rest next

def transformModule (r : Registry Extension) (c : RunContext) (m : DocModule) :
    StageM DocModule := do
  applyChain .transformModule .moduleTransformer "transform" c (← chain r .moduleTransformer) m

/-! ## Pages -/

def createPages (r : Registry Extension) (c : RunContext) (m : DocModule) : StageM PageTree := do
  let run ← single r .pageCreator
  call .createPages .pageCreator (run m c)

def transformPages (r : Registry Extension) (c : RunContext) (t : PageTree) :
    StageM PageTree := do
  applyChain .transformPages .pageTransformer "pages" c (← chain r .pageTransformer) t

/-- Renders the pages.  The disk changes even if rendering fails. -/
def render (r : Registry Extension) (c : RunContext) (t : PageTree) :
    Traced (Except Fault Unit × Disk) := do
  match ← (single r .renderer).run with
  | .error fault => return (.error fault, c.disk)
  | .ok run =>
      match ← Point.renderer.call (·.1.isOk) (run t c c.disk) with
      | (.ok (), disk) => return (.ok (), disk)
      | (.error fault, disk) =>
          return (.error (.failed (fault.during Stage.render.name)), disk)

/-! ## The run -/

def noPasses : Failure :=
  .ofConfiguration "no platforms to document: at least one pass must be configured"

/-- What is ready for rendering. -/
structure Prepared where
  registry : Registry Extension
  context : RunContext
  tree : PageTree
  report : Report

/-- All stages before rendering. -/
def prepare (g : Generator) : StageM Prepared := do
  enter .setup
  let passes ← g.setup
  enter .plugins
  let r ← g.installPlugins
  if g.config.passes.isEmpty then throw (.failed noPasses)
  let c : RunContext := ⟨g.config, passes, g.disk⟩
  enter .translate
  let ms ← translate r c
  enter .merge
  let merged ← merge r c ms
  enter .transformModule
  let m ← transformModule r c merged
  enter .createPages
  let created ← createPages r c m
  enter .transformPages
  let t ← transformPages r c created
  return ⟨r, c, t, {
    platforms := g.config.passes.length
    modules := ms.length
    declarations := m.count
    pages := t.count }⟩

/-- All stages, with the report but for its counts of messages. -/
def runStages (g : Generator) : Traced (Except Fault Report × Disk) := do
  match ← g.prepare.run with
  | .error fault => return (.error fault, g.disk)
  | .ok p =>
      Traced.notice .progress Stage.render.name
      match ← render p.registry p.context p.tree with
      | (.error fault, disk) => return (.error fault, disk)
      | (.ok (), disk) => return (.ok p.report, disk)

def plural (n : Nat) (word : Text) : Text :=
  Text.ofNat n ++ " " ++ word ++ (if n = 1 then [] else ['s'])

/-- The closing line of a run, a warning if there were errors. -/
def closing (warnings errors : Nat) : Log.Record :=
  ⟨if 0 < errors then .warn else .info, Event.noticeModule,
    "Generation completed with " ++ plural warnings "warning" ++ " and " ++
      plural errors "error"⟩

/-- Generates the documentation.  The counts of the report are those of the
messages of the stages. -/
def generate (g : Generator) : Traced (Except Fault Report × Disk) := do
  g.reportDisabled
  let run := g.runStages
  let (result, disk) ← run
  match result with
  | .error (.failed failure) =>
      Traced.notice .error failure.toText
      return (.error (.failed failure), disk)
  | .error (.thrown message) => return (.error (.thrown message), disk)
  | .ok report =>
      let warnings := Event.warnings run.events
      let errors := Event.errors run.events
      Traced.emit (.record (closing warnings errors))
      return (.ok { report with
        analysisErrors := Event.hasErrors run.events
        warnings := warnings
        errors := errors }, disk)

end Generator

end CrossDoc
