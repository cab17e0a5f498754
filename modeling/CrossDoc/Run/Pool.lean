import CrossDoc.Run.Failure
import CrossDoc.Trace

/-!
# Running the jobs of a stage

Each pass is translated by a job of a pool.  Answers keep the order in
which the jobs were submitted.  After a job that fails no further job is
begun; its failure is that of the whole run.
-/

namespace CrossDoc

/-- The jobs that wait for a worker, the next one first. -/
structure JobQueue (α : Type) where
  jobs : List α := []
deriving DecidableEq, Repr

namespace JobQueue

variable {α : Type}

def push (q : JobQueue α) (job : α) : JobQueue α := ⟨q.jobs ++ [job]⟩

/-- The next job and the queue without it. -/
def pop? (q : JobQueue α) : Option (α × JobQueue α) :=
  match q.jobs with
  | [] => none
  | job :: rest => some (job, ⟨rest⟩)

def size (q : JobQueue α) : Nat := q.jobs.length

end JobQueue

/-- What came of a run of jobs. -/
structure PoolResult (α : Type) where
  answer : Except Failure (List α)
  /-- A job failed. -/
  cancelled : Bool
  /-- The number of jobs that succeeded. -/
  completed : Nat

/-- The failure of a job in a stage; one without a stage is given it. -/
def Fault.inJob (stage : Text) : Fault → Failure
  | .failed f => if f.stage = [] then { f with stage := stage } else f
  | .thrown message => .ofStage stage (Text.untilNul message)

namespace Pool

/-- The number of workers for some jobs; a limit of zero is none. -/
def workers (limit jobs : Nat) : Nat := if limit = 0 then jobs else min jobs limit

/-- Runs jobs one after the other, the first of which has the number `index`,
up to the first that fails. -/
def runFrom {α : Type} (stage : Text) :
    Nat → List (Traced (Except Fault α)) → Traced (List α × Option Failure)
  | _, [] => pure ([], none)
  | index, job :: rest => do
      match ← job with
      | .ok a =>
          let (as, failure) ← runFrom stage (index + 1) rest
          return (a :: as, failure)
      | .error fault =>
          Traced.log .debug "docgen"
            ("translation job " ++ Text.ofNat index ++ " failed, cancelling the rest")
          return ([], some (fault.inJob stage))

/-- Runs jobs with at most `limit` workers. -/
def run {α : Type} (limit : Nat) (stage : Text) (jobs : List (Traced (Except Fault α))) :
    Traced (PoolResult α) := do
  Traced.log .debug "docgen"
    ("translating " ++ Text.ofNat jobs.length ++ " platform(s) with " ++
      Text.ofNat (workers limit jobs.length) ++ " worker(s)")
  match ← runFrom stage 0 jobs with
  | (as, none) => return ⟨.ok as, false, as.length⟩
  | (as, some failure) => return ⟨.error failure, true, as.length⟩

end Pool

end CrossDoc
