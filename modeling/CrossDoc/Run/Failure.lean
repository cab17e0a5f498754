import CrossDoc.Text

/-!
# Failures

A run ends early with a `Failure`: either the configuration cannot be run, or
a stage failed while it was executing.  A call can also break off by throwing;
where an extension does, `Fault.during` turns that into a failure of the
running stage.
-/

namespace CrossDoc

inductive FailureKind where
  | configuration
  | stage
deriving DecidableEq, Repr, Inhabited

/-- Why a run ended early. -/
structure Failure where
  kind : FailureKind := .stage
  /-- The stage that was running, empty if none is known. -/
  stage : Text := []
  message : Text := []
deriving DecidableEq, Repr, Inhabited

namespace Failure

def ofConfiguration (message : Text) : Failure := ⟨.configuration, [], message⟩

def ofStage (stage message : Text) : Failure := ⟨.stage, stage, message⟩

def toText (f : Failure) : Text :=
  match f.kind with
  | .configuration => "configuration error: " ++ f.message
  | .stage => "stage '" ++ f.stage ++ "' failed: " ++ f.message

end Failure

/-- How a call can go wrong. -/
inductive Fault where
  /-- It answered with a failure. -/
  | failed (f : Failure)
  /-- It broke off with a message. -/
  | thrown (message : Text)
deriving DecidableEq, Repr, Inhabited

/-- The failure of a stage in which a call went wrong.  A failure that already
names its stage keeps it. -/
def Fault.during (stage : Text) : Fault → Failure
  | .failed f => if f.kind = .stage ∧ f.stage = [] then { f with stage := stage } else f
  | .thrown message => .ofStage stage (Text.untilNul message)

end CrossDoc
