import CrossDoc.Log.Record

/-!
# Logging options

The logging part of a command line.  Where the command line sets neither a
level nor a filter, an environment variable may set one of them.
-/

namespace CrossDoc.Log

/-- How a run logs. -/
structure Options where
  level : Level := .info
  format : Format := .text
  filterSpec : Text := []
  /-- Empty for no file. -/
  logFile : Text := []
  console : Bool := true
  colors : Bool := true
deriving DecidableEq, Repr, Inhabited

namespace Options

/-- The number of letters of `-v`, `-vv` and so on; zero for anything
else. -/
def verbosity : Text → Nat
  | '-' :: vs => if vs.all (· == 'v') then vs.length else 0
  | _ => 0

/-- The arguments that belong to logging. -/
def isLogOption (arg : Text) : Bool :=
  Text.startsWith "--log-level=" arg || Text.startsWith "--log-filter=" arg ||
    Text.startsWith "--log-file=" arg || Text.startsWith "--log-format=" arg ||
    arg == "-q" || arg == "--quiet" || arg == "--verbose" || 0 < verbosity arg

/-- What has been read of the arguments. -/
structure Reading where
  options : Options := {}
  hasLevel : Bool := false
  hasFilter : Bool := false
  verbosity : Nat := 0
deriving DecidableEq, Repr

/-- Reads one argument; an argument that has nothing to do with logging
changes nothing. -/
def readArg (r : Reading) (arg : Text) : Reading :=
  match Text.dropPrefix? "--log-level=" arg with
  | some v =>
      { r with options := { r.options with level := Level.ofName v }, hasLevel := true }
  | none =>
  match Text.dropPrefix? "--log-filter=" arg with
  | some v => { r with options := { r.options with filterSpec := v }, hasFilter := true }
  | none =>
  match Text.dropPrefix? "--log-file=" arg with
  | some v => { r with options := { r.options with logFile := v } }
  | none =>
  match Text.dropPrefix? "--log-format=" arg with
  | some v => { r with options := { r.options with format := Format.ofName v } }
  | none =>
      if arg = "-q" ∨ arg = "--quiet" then
        { r with options := { r.options with level := .warn }, hasLevel := true }
      else if arg = "--verbose" then { r with verbosity := max r.verbosity 1 }
      else { r with verbosity := max r.verbosity (Options.verbosity arg) }

/-- Lets the verbosity set the level if no argument names one. -/
def applyVerbosity (r : Reading) : Reading :=
  if !r.hasLevel && 0 < r.verbosity then
    { r with
      options := { r.options with level := if 2 ≤ r.verbosity then .trace else .debug }
      hasLevel := true }
  else r

/-- Lets the environment set the level or the filter if no argument does.  A
value with an equals sign or a comma is a filter. -/
def applyEnvironment (env : Text) (r : Reading) : Options :=
  if r.hasLevel || r.hasFilter || env.isEmpty then r.options
  else if env.contains '=' || env.contains ',' then { r.options with filterSpec := env }
  else { r.options with level := Level.ofName env }

/-- The logging options of a command line and the value of the environment
variable, empty if it is not set. -/
def ofArgs (args : List Text) (env : Text) : Options :=
  applyEnvironment env (applyVerbosity (args.foldl readArg {}))

end Options

end CrossDoc.Log
