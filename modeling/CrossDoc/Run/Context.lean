import CrossDoc.Listing.Analysis
import CrossDoc.Run.Failure

/-!
# What extensions see

The configuration of the run, its passes with what their analysis found, and
the files they may read.
-/

namespace CrossDoc

/-- A pass and what its analysis found. -/
structure AnalyzedPass where
  platform : Platform
  pass : Pass
  environment : Option Environment := none
deriving Repr, Inhabited

/-- What the extensions of a run see. -/
structure RunContext where
  config : Config := {}
  passes : List AnalyzedPass := []
  disk : Disk := {}
deriving Repr, Inhabited

namespace RunContext

/-- The pass of a platform, the first of them. -/
def passFor? (c : RunContext) (p : Platform) : Option Pass :=
  (c.passes.find? fun a => a.platform == p).map (·.pass)

/-- The options of a package on a platform that has a pass. -/
def optionsFor? (c : RunContext) (p : Platform) (package : Text) : Option PackageOptions :=
  (c.passFor? p).map (·.optionsFor package)

end RunContext

end CrossDoc
