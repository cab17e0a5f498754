import CrossDoc.Config.Loading
import CrossDoc.Log.Options

/-!
# Command line options

The arguments of the documentation command.  Logging options are left to
`Log.Options`; whatever neither of the two knows is an error.  Options go
before the settings of a configuration file, and a pass is described either by
options or by a file.
-/

namespace CrossDoc

/-- What the command line asks for. -/
structure CommandOptions where
  /-- Empty for no file. -/
  configFile : Text := []
  outputDir : Option Text := none
  format : Option Text := none
  skip : Bool := false
  failOnError : Bool := false
  generateIndexPages : Bool := false
  includeNonPublic : Bool := false
  moduleName : Text := []
  sources : List Text := []
  classpath : List Text := []
  platform : Text := []
  showHelp : Bool := false
  /-- What is wrong with the arguments. -/
  errors : List Text := []
deriving DecidableEq, Repr, Inhabited

namespace CommandOptions

/-- What an argument sets, if it is an option with a value. -/
def readValue? (o : CommandOptions) (arg : Text) : Option CommandOptions :=
  let value := (arg.dropWhile (· != '=')).drop 1
  if Text.startsWith "--config=" arg then some { o with configFile := value }
  else if Text.startsWith "--output=" arg || Text.startsWith "-o=" arg then
    some { o with outputDir := some value }
  else if Text.startsWith "--format=" arg then some { o with format := some value }
  else if Text.startsWith "--module=" arg then some { o with moduleName := value }
  else if Text.startsWith "--source=" arg then some { o with sources := o.sources ++ [value] }
  else if Text.startsWith "--classpath=" arg then
    some { o with classpath := o.classpath ++ [value] }
  else if Text.startsWith "--platform=" arg then some { o with platform := value }
  else none

/-- What an argument sets, if it is an option without a value. -/
def readSwitch? (o : CommandOptions) (arg : Text) : Option CommandOptions :=
  if arg = "--help" ∨ arg = "-h" then some { o with showHelp := true }
  else if arg = "--skip" then some { o with skip := true }
  else if arg = "--fail-on-error" then some { o with failOnError := true }
  else if arg = "--generate-index-pages" then some { o with generateIndexPages := true }
  else if arg = "--include-non-public" then some { o with includeNonPublic := true }
  else none

/-- An argument that does not start with a dash is a source root. -/
def isSource (arg : Text) : Bool :=
  match arg with
  | [] => false
  | c :: _ => c != '-'

/-- Reads one argument. -/
def readArg (o : CommandOptions) (arg : Text) : CommandOptions :=
  if Log.Options.isLogOption arg then o
  else match o.readSwitch? arg with
    | some o => o
    | none =>
        match o.readValue? arg with
        | some o => o
        | none =>
            if isSource arg then { o with sources := o.sources ++ [arg] }
            else { o with errors := o.errors ++ ["unknown option '" ++ arg ++ "'"] }

/-- Reads the arguments after the program name. -/
def ofArgs (args : List Text) : CommandOptions := args.foldl readArg {}

/-- The options describe a pass of their own. -/
def describesPass (o : CommandOptions) : Bool :=
  !o.moduleName.isEmpty || !o.sources.isEmpty || !o.classpath.isEmpty || !o.platform.isEmpty

/-- The pass that the options describe. -/
def pass (o : CommandOptions) (family : Family) : Pass where
  moduleName := o.moduleName
  sourceRoots := o.sources
  classpath := o.classpath
  family := family
  includeNonPublic := o.includeNonPublic

/-- The configuration with what the options say about the whole run. -/
def overrideGlobals (o : CommandOptions) (c : Config) : Config :=
  { c with
    outputDir := o.outputDir.getD c.outputDir
    format := o.format.getD c.format
    skip := c.skip || o.skip
    failOnError := c.failOnError || o.failOnError
    generateIndexPages := c.generateIndexPages || o.generateIndexPages }

/-- The configuration with what the options say about passes. -/
def overridePasses (o : CommandOptions) (c : Config) : Except ConfigError Config :=
  if o.describesPass then
    if !c.passes.isEmpty then .error ⟨.passFromTwoSides, 0⟩
    else match Family.ofName? o.platform with
      | none => .error ⟨.unknownPlatform o.platform, 0⟩
      | some family => .ok { c with passes := c.passes ++ [o.pass family] }
  else if o.includeNonPublic then
    .ok { c with passes := c.passes.map fun p => { p with includeNonPublic := true } }
  else .ok c

/-- The configuration of a run: that of the file, if there is one, and the
options. -/
def buildConfig (o : CommandOptions) (disk : Disk) : Traced (Except ConfigError Config) := do
  let loaded : Except ConfigError Config ←
    if o.configFile.isEmpty then pure (.ok {}) else Config.load disk o.configFile
  match loaded with
  | .error e => return .error e
  | .ok c => return o.overridePasses (o.overrideGlobals c)

end CommandOptions

end CrossDoc
