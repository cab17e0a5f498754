import CrossDoc.Config.Basic
import CrossDoc.Files.Disk
import CrossDoc.Listing.Parser

/-!
# Analysis of a pass

The analysis reads all listings below the source roots of a pass.  Symbol
listings (`.api`) are gathered by package, file listings (`.japi`) stay apart.
Missing paths end the analysis; what is wrong inside a listing is only
reported.
-/

namespace CrossDoc

/-- What the analysis needs to know about a pass. -/
structure AnalysisSettings where
  family : Family := .jvm
  classpath : List Text := []
  sourceRoots : List Text := []
  languageVersion : Text := []
  apiVersion : Text := []
  jdkVersion : Int := 6
deriving DecidableEq, Repr, Inhabited

/-- Marks the class path entry that stands for the runtime classes. -/
def jdkEntryStart : Text := "jdk:"

/-- The settings of a pass.  A pass for the JVM has the runtime classes on its
class path unless it asks not to. -/
def Pass.analysisSettings (p : Pass) : AnalysisSettings where
  family := p.family
  classpath :=
    if p.family = .jvm ∧ p.noJdkLink = false then
      p.classpath ++ [jdkEntryStart ++ Text.ofInt p.jdkVersion]
    else p.classpath
  sourceRoots := p.sourceRoots
  languageVersion := p.languageVersion
  apiVersion := p.apiVersion
  jdkVersion := p.jdkVersion

/-- What the analysis found. -/
structure Environment where
  groups : List SymbolGroup := []
  files : List SourceFile := []
deriving Repr, Inhabited

namespace Environment

/-- Adds symbols to the group of a package, or a group at the end. -/
def addToGroup (package : Text) (symbols : List Symbol) : List SymbolGroup → List SymbolGroup
  | [] => [⟨package, symbols⟩]
  | g :: rest =>
      if g.package = package then ⟨g.package, g.symbols ++ symbols⟩ :: rest
      else g :: addToGroup package symbols rest

/-- Adds the symbols of a symbol listing to the group of its package. -/
def addSymbolListing (e : Environment) (f : SourceFile) : Environment :=
  { e with groups := addToGroup f.package f.symbols e.groups }

def addSourceFile (e : Environment) (f : SourceFile) : Environment :=
  { e with files := e.files ++ [f] }

end Environment

/-- Why the analysis cannot go on. -/
inductive AnalysisError where
  | missingClasspath (entry : Text)
  | missingRoot (root : Text)
  | unreadable (path : Text)
  /-- It cannot be told whether a path exists. -/
  | unknownStatus (path : Text) (error : FileError)
deriving DecidableEq, Repr, Inhabited

def AnalysisError.message : AnalysisError → Text
  | .missingClasspath entry => "classpath entry does not exist: " ++ entry
  | .missingRoot root => "source root does not exist: " ++ root
  | .unreadable path => "cannot read " ++ path
  | .unknownStatus path error =>
      "filesystem error: status: " ++ error.message ++ " [" ++ path ++ "]"

namespace Listing

def symbolExtension : Text := ".api"

def fileExtension : Text := ".japi"

def isListing (path : Text) : Bool :=
  Path.extension path == symbolExtension || Path.extension path == fileExtension

/-- Demands that a path exists; `missing` is the error if it does not. -/
def checkExists (disk : Disk) (missing : AnalysisError) (path : Text) :
    Except AnalysisError Unit :=
  match disk.probe path with
  | .ok (some _) => .ok ()
  | .ok none => .error missing
  | .error e => .error (.unknownStatus path e)

/-- The listings at or below a path, in the order of their paths. -/
def listingsBelow (disk : Disk) (root : Text) : List Text :=
  if disk.isFile root then if isListing root then [root] else []
  else ((disk.filesBelow root).filter isListing).mergeSort Path.le

/-- Reads one listing into the environment. -/
def readListing (disk : Disk) (e : Environment) (path : Text) :
    ExceptT AnalysisError Traced Environment := do
  match disk.read? path with
  | none => throw (.unreadable path)
  | some text =>
      Traced.log .trace "analysis" ("parsing " ++ path)
      let (file, diagnostics) := parse text (Path.collapsed path)
      Traced.diagnose diagnostics
      if Path.extension path = symbolExtension then return e.addSymbolListing file
      else return e.addSourceFile file

def readListings (disk : Disk) :
    Environment → List Text → ExceptT AnalysisError Traced Environment
  | e, [] => pure e
  | e, path :: rest => do readListings disk (← readListing disk e path) rest

def readRoots (disk : Disk) :
    Environment → List Text → ExceptT AnalysisError Traced Environment
  | e, [] => pure e
  | e, root :: rest => do
      match checkExists disk (.missingRoot root) root with
      | .error error => throw error
      | .ok () => readRoots disk (← readListings disk e (listingsBelow disk root)) rest

/-- Demands that the entries of a class path exist. -/
def checkClasspath (disk : Disk) (classpath : List Text) : Except AnalysisError Unit :=
  (classpath.filter fun e => !Text.startsWith jdkEntryStart e).forM fun e =>
    checkExists disk (.missingClasspath e) e

/-- Analyzes the sources of a pass. -/
def analyze (disk : Disk) (settings : AnalysisSettings) :
    ExceptT AnalysisError Traced Environment := do
  match checkClasspath disk settings.classpath with
  | .error error => throw error
  | .ok () =>
      let e ← readRoots disk {} settings.sourceRoots
      Traced.log .debug "analysis"
        ("analyzed " ++ Text.ofNat e.groups.length ++ " package group(s) and " ++
          Text.ofNat e.files.length ++ " source file(s) for " ++ settings.family.name)
      return e

end Listing

end CrossDoc
