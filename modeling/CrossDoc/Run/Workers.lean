import CrossDoc.Run.Pool

/-!
# Workers side by side

The jobs of a stage are run by several workers at once.  They share the queue
of the jobs, the record of each job, the flag that cancels the rest and the
count of completed jobs.  A worker acts in small steps, each of which touches
the shared memory at one place; between two of its steps the others may act.
Which worker acts next is not decided here: a schedule is any list of the
numbers of workers.
-/

namespace CrossDoc

/-- The failure that a worker records for a fault. -/
def Fault.recorded (stage : Text) : Fault → Failure
  | .failed f => f
  | .thrown message => .ofStage stage (Text.untilNul message)

/-- The failure with the stage in which it happened, unless it names one. -/
def Failure.tagged (stage : Text) (f : Failure) : Failure :=
  if f.stage = [] then { f with stage := stage } else f

namespace Pool

variable {α : Type}

/-- A task under the number with which it was submitted. -/
structure Job (α : Type) where
  index : Nat
  task : Traced (Except Fault α)

/-- What became of a job so far. -/
structure JobRecord (α : Type) where
  /-- The answer of the task, once it ran. -/
  result : Option (Except Failure α) := none
  /-- The job was taken from the queue after the rest had been cancelled. -/
  skipped : Bool := false

namespace JobRecord

def failure? (r : JobRecord α) : Option Failure :=
  match r.result with
  | some (.error f) => some f
  | _ => none

def answer? (r : JobRecord α) : Option α :=
  match r.result with
  | some (.ok a) => some a
  | _ => none

end JobRecord

/-- How the pool ends when all workers have left. -/
inductive Ending (α : Type) where
  | all (as : List α)
  | failed (f : Failure)
  /-- A job has no result although none failed. -/
  | cancelled

def Ending.answer (stage : Text) : Ending α → Except Failure (List α)
  | .all as => .ok as
  | .failed f => .error f
  | .cancelled => .error (.ofStage stage "translation was cancelled")

/-- The memory that the workers share. -/
structure Memory (α : Type) where
  queue : JobQueue (Job α) := {}
  records : List (JobRecord α) := []
  cancelled : Bool := false
  completed : Nat := 0
  /-- What the pool itself reports, without the reports of the tasks. -/
  events : List Event := []

namespace Memory

/-- The report with which a run of some jobs begins. -/
def starting (limit jobs : Nat) : Event :=
  .record ⟨.debug, "docgen",
    "translating " ++ Text.ofNat jobs ++ " platform(s) with " ++
      Text.ofNat (workers limit jobs) ++ " worker(s)"⟩

/-- The report of a failing job that cancels the rest. -/
def cancelling (index : Nat) : Event :=
  .record ⟨.debug, "docgen",
    "translation job " ++ Text.ofNat index ++ " failed, cancelling the rest"⟩

def record (m : Memory α) (index : Nat) (result : Except Failure α) : Memory α :=
  { m with records := m.records.modify index fun r => { r with result := some result } }

def skip (m : Memory α) (index : Nat) : Memory α :=
  { m with records := m.records.modify index fun r => { r with skipped := true } }

/-- Sets the flag.  Only the failure that finds it unset is reported. -/
def cancel (m : Memory α) (index : Nat) : Memory α :=
  if m.cancelled then m
  else { m with cancelled := true, events := m.events ++ [cancelling index] }

def count (m : Memory α) : Memory α := { m with completed := m.completed + 1 }

/-- The end that the records lead to: the first failure in the order of
submission, or else all answers. -/
def ending (stage : Text) (m : Memory α) : Ending α :=
  match m.records.findSome? JobRecord.failure? with
  | some f => .failed (f.tagged stage)
  | none =>
      match m.records.mapM JobRecord.answer? with
      | some as => .all as
      | none => .cancelled

def result (stage : Text) (m : Memory α) : PoolResult α :=
  ⟨(m.ending stage).answer stage, m.cancelled, m.completed⟩

end Memory

/-- Where a worker stands. -/
inductive Worker (α : Type) where
  /-- About to take the next job. -/
  | ready
  /-- It took a job and has not looked at the flag yet. -/
  | holding (job : Job α)
  | running (job : Job α)
  /-- It recorded the failure of a job and has not set the flag yet. -/
  | failed (index : Nat)
  /-- It recorded an answer and has not counted it yet. -/
  | answered
  /-- It found the queue empty and left. -/
  | gone

namespace Worker

/-- The next action of a worker, unless it has left. -/
def act (stage : Text) (m : Memory α) : Worker α → Option (Worker α × Memory α)
  | .ready =>
      match m.queue.pop? with
      | none => some (.gone, m)
      | some (job, queue) => some (.holding job, { m with queue := queue })
  | .holding job =>
      if m.cancelled then some (.ready, m.skip job.index) else some (.running job, m)
  | .running job =>
      match job.task.value with
      | .ok a => some (.answered, m.record job.index (.ok a))
      | .error fault =>
          some (.failed job.index, m.record job.index (.error (fault.recorded stage)))
  | .failed index => some (.ready, m.cancel index)
  | .answered => some (.ready, m.count)
  | .gone => none

end Worker

/-- The workers and what they share. -/
structure State (α : Type) where
  workers : List (Worker α)
  memory : Memory α

namespace State

/-- All jobs wait in the queue, and all workers are ready. -/
def start (limit : Nat) (tasks : List (Traced (Except Fault α))) : State α where
  workers := .replicate (Pool.workers limit tasks.length) .ready
  memory :=
    { queue := tasks.zipIdx.foldl (fun q (task, index) => q.push ⟨index, task⟩) {},
      records := tasks.map fun _ => {},
      events := [Memory.starting limit tasks.length] }

/-- One worker acts, the others stay where they are. -/
def step (stage : Text) (s : State α) (i : Nat) : Option (State α) := do
  let worker ← s.workers[i]?
  let (worker, memory) ← worker.act stage s.memory
  return ⟨s.workers.set i worker, memory⟩

/-- The state after the workers of a schedule have acted one after the other. -/
def follow (stage : Text) (s : State α) (schedule : List Nat) : Option (State α) :=
  schedule.foldlM (step stage) s

/-- All workers have left. -/
def Finished (s : State α) : Prop := ∀ w ∈ s.workers, w = .gone

end State

end Pool

end CrossDoc
