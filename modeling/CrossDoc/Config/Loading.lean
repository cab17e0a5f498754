import CrossDoc.Config.Reader
import CrossDoc.Files.Disk
import CrossDoc.Trace

/-!
# Loading configurations

Reads a configuration and reports the keys it passes over as warnings.
-/

namespace CrossDoc.Config

/-- Reports the keys that are passed over. -/
def reportIgnored : List (Nat × Text) → Traced Unit
  | [] => pure ()
  | (line, key) :: rest => do
      Traced.log .warn "config"
        ("line " ++ Text.ofNat line ++ ": ignoring unknown key '" ++ key ++ "'")
      reportIgnored rest

/-- Reads a configuration text. -/
def read (t : Text) : Traced (Except ConfigError Config) := do
  reportIgnored (ignoredKeys t)
  return parse t

/-- Reads the configuration file at a path; what is wrong with it is reported
under the path. -/
def load (disk : Disk) (path : Text) : Traced (Except ConfigError Config) := do
  match disk.read? path with
  | none => return .error ⟨.cannotOpen path, 0⟩
  | some t =>
      Traced.log .debug "config" ("loading " ++ path)
      match ← read t with
      | .ok config => return .ok config
      | .error e => return .error { e with problem := .inFile path e.problem }

end CrossDoc.Config
