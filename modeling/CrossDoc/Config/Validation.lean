import CrossDoc.Config.Basic
import CrossDoc.Config.Error

/-!
# Configuration checks

A configuration can be run when it names a format, every pass names a module,
no two passes have one platform, and all links and package options say what
they are about.  The first problem found is the answer.
-/

namespace CrossDoc

namespace SourceLink

def problem? (l : SourceLink) : Option PassProblem :=
  if l.path.contains '\\' then some (.sourceLinkSeparator l.path)
  else if l.url.isEmpty then some (.sourceLinkUrl l.path)
  else none

end SourceLink

/-- The first problem of a pass, where `seen` are the platforms of the passes
before it. -/
def Pass.problem? (seen : List Platform) (p : Pass) : Option PassProblem :=
  if p.moduleName.isEmpty then some .missingModule
  else if seen.contains p.platform then some (.duplicatePlatform p.platform)
  else match p.sourceLinks.findSome? SourceLink.problem? with
    | some problem => some problem
    | none =>
        if p.externalLinks.any (·.url.isEmpty) then some .externalLinkUrl
        else if p.packageOptions.any (·.packagePrefix.isEmpty) then some .packagePrefix
        else none

namespace Config

/-- The first problem of a list of passes, the first of which is `number`. -/
def passProblem? (number : Nat) (seen : List Platform) : List Pass → Option ConfigProblem
  | [] => none
  | p :: rest =>
      match p.problem? seen with
      | some problem => some (.inPass number problem)
      | none => passProblem? (number + 1) (p.platform :: seen) rest

def problem? (c : Config) : Option ConfigProblem :=
  if c.format.isEmpty then some .emptyFormat else passProblem? 1 [] c.passes

/-- Checks a configuration before it is run. -/
def validate (c : Config) : Except ConfigError Unit :=
  match c.problem? with
  | some problem => .error ⟨problem, 0⟩
  | none => .ok ()

end Config

end CrossDoc
