import CrossDoc.Proofs.PoolWorkers
import CrossDoc.Proofs.StageWork
import Mathlib.Algebra.Ring.Nat

/-!
# Runs of the pool

A run in which a task fails ends with a failure, one in which none fails has all
the answers, and the order in which the workers act decides no more than which
of several failing tasks get to run.  Where only one can fail, the run answers
as it does with one job after the other.
-/

namespace CrossDoc

theorem Fault.tagged_recorded (stage : Text) (fault : Fault) :
    (fault.recorded stage).tagged stage = fault.inJob stage := by
  cases fault with
  | failed f => rfl
  | thrown message =>
      unfold Failure.tagged
      split <;> rfl

namespace Pool

variable {α : Type} {stage : Text} {limit : Nat} {tasks : List (Traced (Except Fault α))}

/-! ## Every run comes to an end -/

/-- The number of actions a worker takes before it can take a job again, and one
for leaving. -/
def Worker.left : Worker α → Nat
  | .gone => 0
  | .ready => 1
  | .failed _ | .answered => 2
  | .running _ => 3
  | .holding _ => 4

theorem Worker.Acts.left_lt {w w' : Worker α} {m m' : Memory α} (h : w.Acts stage m w' m') :
    4 * m'.queue.size + w'.left < 4 * m.queue.size + w.left := by
  cases h with
  | take first =>
      simp only [JobQueue.size, first, List.length_cons, left]
      omega
  | _ => simp [left]

namespace State

variable {s s' : State α} {i : Nat} {schedule : List Nat}

/-- A bound for the number of actions until all workers have left. -/
def left (s : State α) : Nat := 4 * s.memory.queue.size + (s.workers.map Worker.left).sum

theorem left_start : (start limit tasks).left =
    4 * tasks.length + Pool.workers limit tasks.length := by
  rw [left, JobQueue.size, queue_start, List.length_map, List.length_zipIdx]
  simp [start, Worker.left]

theorem left_step (h : s.step stage i = some s') : s'.left < s.left := by
  obtain ⟨w, w', others, hworkers, hworkers', ha⟩ := exists_acts_of_step h
  have hlt := ha.left_lt
  rw [left, left, (hworkers.map _).sum_nat, (hworkers'.map _).sum_nat, List.map_cons,
    List.map_cons, List.sum_cons, List.sum_cons]
  omega

/-- No schedule goes on for ever. -/
theorem length_follow_le (h : s.follow stage schedule = some s') :
    schedule.length + s'.left ≤ s.left := by
  induction schedule generalizing s with
  | nil =>
      cases h
      simp
  | cons i rest ih =>
      obtain ⟨next, hstep, hrest⟩ := Option.bind_eq_some_iff.mp h
      have hlt := left_step hstep
      have hle := ih hrest
      rw [List.length_cons]
      omega

/-- Unless all have left, some worker can act. -/
theorem exists_step (stage : Text) (h : ¬ s.Finished) : ∃ i s', s.step stage i = some s' := by
  simp only [Finished, not_forall] at h
  obtain ⟨w, hw, hgone⟩ := h
  obtain ⟨i, hi⟩ := List.getElem?_of_mem hw
  obtain ⟨⟨w', m'⟩, hact⟩ := Worker.exists_act stage s.memory hgone
  exact ⟨i, ⟨s.workers.set i w', m'⟩, by simp [step, hi, hact]⟩

/-- From every state the workers can go on until all have left. -/
theorem exists_finished (stage : Text) (s : State α) :
    ∃ schedule s', s.follow stage schedule = some s' ∧ s'.Finished := by
  by_cases h : s.Finished
  · exact ⟨[], s, rfl, h⟩
  · obtain ⟨i, next, hstep⟩ := exists_step stage h
    have := left_step hstep
    obtain ⟨schedule, s', hfollow, hs'⟩ := exists_finished stage next
    exact ⟨i :: schedule, s', by rw [follow_cons, hstep]; exact hfollow, hs'⟩
termination_by s.left

end State

/-! ## How a run ends -/

/-- Task `k` fails with this fault. -/
def Fails (tasks : List (Traced (Except Fault α))) (k : Nat) (fault : Fault) : Prop :=
  ∃ task, tasks[k]? = some task ∧ task.value = .error fault

/-- Unless one fails, the tasks have answers. -/
theorem exists_answers (h : ∀ k fault, ¬ Fails tasks k fault) :
    ∃ as : List α, tasks.map Traced.value = as.map .ok := by
  induction tasks with
  | nil => exact ⟨[], rfl⟩
  | cons task rest ih =>
      obtain ⟨as, has⟩ := ih fun k fault hk => h (k + 1) fault hk
      cases hvalue : task.value with
      | error fault => exact absurd ⟨task, rfl, hvalue⟩ (h 0 fault)
      | ok a => exact ⟨a :: as, by rw [List.map_cons, List.map_cons, hvalue, has]⟩

theorem not_fails_of_answers {as : List α} (h : tasks.map Traced.value = as.map .ok) (k : Nat)
    (fault : Fault) : ¬ Fails tasks k fault := by
  rintro ⟨task, htask, hvalue⟩
  have hmap := congrArg (·[k]?) h
  simp only [List.getElem?_map, htask, Option.map_some, hvalue] at hmap
  cases has : as[k]? <;> rw [has] at hmap <;> cases hmap

/-! ### One job after the other -/

theorem value_runFrom_of_answers {as : List α} (h : tasks.map Traced.value = as.map .ok)
    (index : Nat) : (runFrom stage index tasks).value = (as, none) := by
  induction tasks generalizing as index with
  | nil =>
      cases as with
      | nil => rfl
      | cons a rest => cases h
  | cons task rest ih =>
      cases as with
      | nil => cases h
      | cons a as =>
          obtain ⟨hvalue, hrest⟩ := List.cons.inj h
          rw [runFrom, Traced.value_bind, hvalue]
          dsimp only
          rw [Traced.value_bind, ih hrest]
          rfl

theorem value_runFrom_of_fails {k : Nat} {fault : Fault} (h : Fails tasks k fault)
    (hfirst : ∀ j < k, ∀ fault, ¬ Fails tasks j fault) (index : Nat) :
    (runFrom stage index tasks).value.2 = some (fault.inJob stage) := by
  induction tasks generalizing k index with
  | nil =>
      obtain ⟨task, htask, -⟩ := h
      cases htask
  | cons task rest ih =>
      rw [runFrom, Traced.value_bind]
      cases k with
      | zero =>
          obtain ⟨_, htask, hvalue⟩ := h
          cases htask
          rw [hvalue]
          rfl
      | succ k =>
          cases hvalue : task.value with
          | error other => exact absurd ⟨task, rfl, hvalue⟩ (hfirst 0 k.succ_pos other)
          | ok a =>
              dsimp only
              rw [Traced.value_bind]
              exact ih (k := k) h (fun j hj => hfirst (j + 1) (Nat.succ_lt_succ hj)) (index + 1)

/-- Run one after the other, tasks that have answers give them. -/
theorem answer_run_of_answers {as : List α} (h : tasks.map Traced.value = as.map .ok) :
    (run limit stage tasks).value.answer = .ok as := by
  rw [Generator.answer_poolRun, value_runFrom_of_answers h]

/-- Run one after the other, the first task that fails decides. -/
theorem answer_run_of_fails {k : Nat} {fault : Fault} (h : Fails tasks k fault)
    (hfirst : ∀ j < k, ∀ fault, ¬ Fails tasks j fault) :
    (run limit stage tasks).value.answer = .error (fault.inJob stage) := by
  rw [Generator.answer_poolRun, value_runFrom_of_fails h hfirst]

/-- Run one after the other, tasks are answered just if each of them has an answer. -/
theorem answer_run_eq_ok_iff {as : List α} :
    (run limit stage tasks).value.answer = .ok as ↔ tasks.map Traced.value = as.map .ok := by
  classical
  refine ⟨fun h => ?_, answer_run_of_answers⟩
  by_cases hfails : ∃ k fault, Fails tasks k fault
  · obtain ⟨fault, hk⟩ := Nat.find_spec hfails
    rw [answer_run_of_fails hk fun j hj fault hfault => Nat.find_min hfails hj ⟨fault, hfault⟩] at h
    cases h
  · obtain ⟨bs, hbs⟩ := exists_answers (by simpa using hfails)
    rw [answer_run_of_answers hbs] at h
    rw [← Except.ok.inj h]
    exact hbs

/-! ### Side by side -/

namespace Memory

variable {m : Memory α}

/-- The first failure among the records. -/
theorem findSome?_failure {f : Failure} :
    m.records.findSome? JobRecord.failure? = some f ↔
      ∃ k, m.Ran k (.error f) ∧ ∀ j < k, ∀ g, ¬ m.Ran j (.error g) := by
  rw [List.findSome?_eq_some_iff]
  constructor
  · rintro ⟨l₁, r, l₂, hl, hr, hnone⟩
    refine ⟨l₁.length, ⟨r, by rw [hl]; simp, JobRecord.failure?_eq.mp hr⟩, ?_⟩
    rintro j hj g ⟨r', hr', hresult⟩
    rw [hl, List.getElem?_append_left hj] at hr'
    cases (hnone r' (List.mem_of_getElem? hr')).symm.trans (JobRecord.failure?_eq.mpr hresult)
  · rintro ⟨k, ⟨r, hr, hresult⟩, hfirst⟩
    obtain ⟨hk, rfl⟩ := List.getElem?_eq_some_iff.mp hr
    refine ⟨m.records.take k, _, m.records.drop (k + 1), ?_, JobRecord.failure?_eq.mpr hresult, ?_⟩
    · rw [← List.drop_eq_getElem_cons hk, List.take_append_drop]
    · intro r' hr'
      obtain ⟨j, hj, rfl⟩ := List.mem_take_iff_getElem.mp hr'
      cases hg : m.records[j].failure? with
      | none => rfl
      | some g =>
          have hjk : j < k := by omega
          exact absurd ⟨_, List.getElem?_eq_getElem _, JobRecord.failure?_eq.mp hg⟩
            (hfirst j hjk g)

end Memory

namespace Memory

variable {m : Memory α}

/-- Job `k` ran and succeeded. -/
def succeeded (m : Memory α) (k : Nat) : Bool := m.records[k]?.any JobRecord.isAnswered

theorem succeeded_iff {k : Nat} : m.succeeded k = true ↔ ∃ a, m.Ran k (.ok a) := by
  simp only [succeeded, JobRecord.isAnswered, Option.any_eq_true, Option.isSome_iff_exists,
    JobRecord.answer?_eq, Ran]
  constructor
  · rintro ⟨r, hr, a, ha⟩
    exact ⟨a, r, hr, ha⟩
  · rintro ⟨a, r, hr, ha⟩
    exact ⟨r, hr, a, ha⟩

theorem countP_succeeded :
    (List.range m.records.length).countP m.succeeded = m.records.countP JobRecord.isAnswered := by
  unfold succeeded
  induction m.records with
  | nil => rfl
  | cons r rest ih =>
      rw [List.length_cons, List.range_succ_eq_map, List.countP_cons, List.countP_map,
        List.countP_cons, ← ih]
      rfl

/-- All answers are there just if every record holds one. -/
theorem mapM_answer {as : List α} :
    m.records.mapM JobRecord.answer? = some as ↔
      m.records.map JobRecord.answer? = as.map some := by
  induction m.records generalizing as with
  | nil => cases as <;> simp
  | cons r rest ih =>
      rw [List.mapM_cons, List.map_cons]
      cases as with
      | nil => simp [Option.bind_eq_some_iff]
      | cons a as =>
          rw [List.map_cons, List.cons.injEq, ← ih]
          simp [Option.bind_eq_some_iff]

/-- The end is all answers just if every record holds one. -/
theorem ending_all {as : List α} :
    m.ending stage = .all as ↔ m.records.map JobRecord.answer? = as.map some := by
  rw [← mapM_answer, ending]
  split
  · next f hfailed =>
    -- A record of a failure holds no answer.
    obtain ⟨k, ⟨r, hr, hresult⟩, -⟩ := findSome?_failure.mp hfailed
    rw [mapM_answer]
    constructor
    · intro h
      cases h
    · intro h
      have hmap := congrArg (·[k]?) h
      simp only [List.getElem?_map, hr, Option.map_some, JobRecord.answer?, hresult] at hmap
      cases has : as[k]? <;> rw [has] at hmap <;> cases hmap
  · split
    · next found hfound => rw [hfound, Ending.all.injEq, Option.some.injEq]
    · next hnone =>
      rw [hnone]
      constructor <;> intro h <;> cases h

theorem ending_failed {f : Failure} :
    m.ending stage = .failed f ↔
      ∃ g, m.records.findSome? JobRecord.failure? = some g ∧ g.tagged stage = f := by
  unfold ending
  split
  · next g hg => simp [hg]
  · next hnone =>
    rw [hnone]
    split <;> simp

theorem exists_ending_failed (stage : Text) {k : Nat} {g : Failure} (h : m.Ran k (.error g)) :
    ∃ f, m.ending stage = .failed f := by
  obtain ⟨r, hr, hresult⟩ := h
  cases hfirst : m.records.findSome? JobRecord.failure? with
  | some f => exact ⟨_, ending_failed.mpr ⟨f, hfirst, rfl⟩⟩
  | none =>
      have hnone := List.findSome?_eq_none_iff.mp hfirst r (List.mem_of_getElem? hr)
      cases hnone.symm.trans (JobRecord.failure?_eq.mpr hresult)

theorem result_ok {as : List α} :
    (m.result stage).answer = .ok as ↔ m.ending stage = .all as := by
  unfold result Ending.answer
  dsimp only
  split <;> simp_all

theorem result_error {f : Failure} (h : m.ending stage ≠ .cancelled) :
    (m.result stage).answer = .error f ↔ m.ending stage = .failed f := by
  unfold result Ending.answer
  dsimp only
  split <;> simp_all

section Recorded

variable (hrecorded : ∀ k x, m.Ran k x → ∃ t, tasks[k]? = some t ∧ x = recordedAnswer stage t)

include hrecorded

/-- The failures that are recorded are those of tasks that ran and failed. -/
theorem ran_error_iff {k : Nat} {f : Failure} :
    m.Ran k (.error f) ↔
      ∃ fault, (∃ x, m.Ran k x) ∧ Fails tasks k fault ∧ fault.recorded stage = f := by
  constructor
  · intro hran
    obtain ⟨task, htask, hx⟩ := hrecorded k _ hran
    obtain ⟨fault, hfault, hf⟩ := recordedAnswer_error.mp hx.symm
    exact ⟨fault, ⟨_, hran⟩, ⟨task, htask, hfault⟩, hf⟩
  · rintro ⟨fault, ⟨x, hran⟩, ⟨task, htask, hfault⟩, rfl⟩
    obtain ⟨task', htask', rfl⟩ := hrecorded k x hran
    cases htask.symm.trans htask'
    rwa [recordedAnswer_error.mpr ⟨fault, hfault, rfl⟩] at hran

/-- The run ends with the failure of the first task that ran and failed. -/
theorem ending_failed_iff {f : Failure} :
    m.ending stage = .failed f ↔
      ∃ k fault, (∃ x, m.Ran k x) ∧ Fails tasks k fault ∧
        (∀ j < k, (∃ x, m.Ran j x) → ∀ other, ¬ Fails tasks j other) ∧
          f = fault.inJob stage := by
  rw [ending_failed]
  simp only [findSome?_failure]
  constructor
  · rintro ⟨g, ⟨k, hran, hfirst⟩, rfl⟩
    obtain ⟨fault, hk, hfault, rfl⟩ := (ran_error_iff hrecorded).mp hran
    refine ⟨k, fault, hk, hfault, fun j hj hran other hother => ?_, fault.tagged_recorded stage⟩
    exact hfirst j hj _ ((ran_error_iff hrecorded).mpr ⟨other, hran, hother, rfl⟩)
  · rintro ⟨k, fault, hk, hfault, hfirst, rfl⟩
    refine ⟨fault.recorded stage,
      ⟨k, (ran_error_iff hrecorded).mpr ⟨fault, hk, hfault, rfl⟩, fun j hj g hran => ?_⟩,
      fault.tagged_recorded stage⟩
    obtain ⟨other, hj', hother, -⟩ := (ran_error_iff hrecorded).mp hran
    exact hfirst j hj hj' other hother

variable {as : List α} (hsize : m.records.length = tasks.length)

include hsize

theorem values_of_records (h : m.records.map JobRecord.answer? = as.map some) :
    tasks.map Traced.value = as.map .ok := by
  have hlength : m.records.length = as.length := by simpa using congrArg List.length h
  refine List.ext_getElem (by simp [← hlength, hsize]) fun k hk hk' => ?_
  rw [List.length_map] at hk hk'
  have hanswer : m.records[k].answer? = some as[k] := by
    simpa [List.getElem?_eq_getElem, hsize, hk, hk'] using congrArg (·[k]?) h
  obtain ⟨task, htask, hx⟩ := hrecorded k (.ok as[k])
    ⟨_, List.getElem?_eq_getElem _, JobRecord.answer?_eq.mp hanswer⟩
  obtain ⟨_, rfl⟩ := List.getElem?_eq_some_iff.mp htask
  rw [List.getElem_map, List.getElem_map]
  exact recordedAnswer_ok.mp hx.symm

theorem records_of_values (hran : ∀ k < tasks.length, ∃ x, m.Ran k x)
    (h : tasks.map Traced.value = as.map .ok) :
    m.records.map JobRecord.answer? = as.map some := by
  have hlength : tasks.length = as.length := by simpa using congrArg List.length h
  refine List.ext_getElem (by simp [← hlength, hsize]) fun k hk hk' => ?_
  rw [List.length_map] at hk hk'
  have hvalue : tasks[k].value = .ok as[k] := by
    simpa [List.getElem?_eq_getElem, hlength, hk, hk'] using congrArg (·[k]?) h
  obtain ⟨x, r, hr, hx⟩ := hran k (hsize ▸ hk)
  obtain ⟨task, htask, rfl⟩ := hrecorded k x ⟨r, hr, hx⟩
  obtain ⟨_, rfl⟩ := List.getElem?_eq_some_iff.mp htask
  obtain ⟨_, rfl⟩ := List.getElem?_eq_some_iff.mp hr
  rw [List.getElem_map, List.getElem_map]
  exact JobRecord.answer?_eq.mpr (hx.trans (congrArg some (recordedAnswer_ok.mpr hvalue)))

end Recorded

/-- What the workers of a pool leave behind when all of them are gone. -/
structure Outcome (limit : Nat) (stage : Text) (tasks : List (Traced (Except Fault α)))
    (m : Memory α) : Prop where
  /-- Every job was taken, and either ran or was skipped. -/
  drained : m.queue.jobs = []
  settled : ∀ k < tasks.length, (∃ x, m.Ran k x) ∨ m.Skipped k
  /-- What is recorded for a job is what its task came to. -/
  recorded : ∀ k x, m.Ran k x → ∃ t, tasks[k]? = some t ∧ x = recordedAnswer stage t
  /-- All answers are returned, in the order of submission, just if no task fails. -/
  ok_iff : ∀ as, (m.result stage).answer = .ok as ↔ tasks.map Traced.value = as.map .ok
  /-- Otherwise the failure is that of the first task that ran and failed. -/
  error_iff : ∀ f, (m.result stage).answer = .error f ↔
    ∃ k fault, (∃ x, m.Ran k x) ∧ Fails tasks k fault ∧
      (∀ j < k, (∃ x, m.Ran j x) → ∀ other, ¬ Fails tasks j other) ∧ f = fault.inJob stage
  /-- No run ends because a job has no result although none failed. -/
  not_cancelled : m.ending stage ≠ .cancelled
  /-- The flag is set just if a task ran and failed. -/
  cancelled_iff : (m.result stage).cancelled = true ↔
    ∃ k fault, (∃ x, m.Ran k x) ∧ Fails tasks k fault
  /-- At most one failure is reported, that of the job which set the flag. -/
  reported : if m.cancelled then
      ∃ k f, m.Ran k (.error f) ∧ m.events = [starting limit tasks.length, cancelling k]
    else m.events = [starting limit tasks.length]
  /-- The jobs that are counted are those that ran and succeeded. -/
  completed_eq : (m.result stage).completed = (List.range tasks.length).countP m.succeeded
  /-- If no two tasks fail, the answer is that of one task after the other. -/
  sequential : (∀ j k f g, Fails tasks j f → Fails tasks k g → j = k) →
    (m.result stage).answer = (run limit stage tasks).value.answer

end Memory

namespace State

variable {s : State α}

/-- When all workers have left, no job is open any more. -/
theorem not_open_of_finished (h : Placed stage tasks s.workers s.memory) (hs : s.Finished) :
    s.memory.queue.jobs = [] ∧ ∀ k, ¬ s.memory.Open k := by
  have hidle : s.workers.filterMap Worker.job? = [] := by
    refine List.filterMap_eq_nil_iff.mpr fun w hw => ?_
    rw [hs w hw]
    rfl
  have hqueue : s.memory.queue.jobs = [] := by
    cases hw : s.workers with
    | cons w rest =>
        refine h.drained ?_
        rw [← hs w (hw ▸ List.mem_cons_self), hw]
        exact List.mem_cons_self
    | nil =>
        -- Without workers there are no tasks, and a job would have one.
        refine List.eq_nil_iff_forall_not_mem.mpr fun job hjob => ?_
        have htask := h.task job (List.mem_append_left _ hjob)
        rw [h.staffed hw] at htask
        cases htask
  refine ⟨hqueue, fun k hk => ?_⟩
  have hpending := (h.open_iff k).mp hk
  rw [pending, hqueue, hidle] at hpending
  cases hpending

theorem reported_of_flagged {ws : List (Worker α)} {m : Memory α} (h : Flagged limit tasks ws m) :
    if m.cancelled then
      ∃ k f, m.Ran k (.error f) ∧
        m.events = [Memory.starting limit tasks.length, Memory.cancelling k]
    else m.events = [Memory.starting limit tasks.length] := by
  split
  · next hflag => exact h.cause hflag
  · next hflag => exact h.quiet (Bool.eq_false_iff.mpr hflag)

section Ended

variable (h : Invariant limit stage tasks s.workers s.memory) (hs : s.Finished)

include h hs

/-- In the end every job ran or was skipped. -/
theorem ran_or_skipped {k : Nat} (hk : k < tasks.length) :
    (∃ x, s.memory.Ran k x) ∨ s.memory.Skipped k :=
  (Memory.open_or_ran_or_skipped (h.placed.size ▸ hk)).resolve_left
    ((not_open_of_finished h.placed hs).2 k)

/-- In the end no worker still has to set the flag. -/
theorem cancelled_iff_ran_fails : s.memory.cancelled = true ↔
    ∃ k fault, (∃ x, s.memory.Ran k x) ∧ Fails tasks k fault := by
  constructor
  · intro hflag
    obtain ⟨k, f, hran, -⟩ := h.flagged.cause hflag
    obtain ⟨fault, hran, hfault, -⟩ := (Memory.ran_error_iff h.placed.ran).mp hran
    exact ⟨k, fault, hran, hfault⟩
  · rintro ⟨k, fault, hran, hfault⟩
    have hfailed := (Memory.ran_error_iff h.placed.ran).mpr ⟨fault, hran, hfault, rfl⟩
    refine (h.flagged.noticed k _ hfailed).resolve_right fun hmem => ?_
    cases hs _ hmem

/-- If a task fails then one runs and fails, since workers skip jobs only after that. -/
theorem exists_ran_fails {k : Nat} {fault : Fault} (hk : Fails tasks k fault) :
    ∃ j other, (∃ x, s.memory.Ran j x) ∧ Fails tasks j other := by
  have hlt : k < tasks.length := by
    obtain ⟨task, htask, -⟩ := hk
    exact (List.getElem?_eq_some_iff.mp htask).1
  rcases ran_or_skipped h hs hlt with hran | hskipped
  · exact ⟨k, fault, hran, hk⟩
  · exact (cancelled_iff_ran_fails h hs).mp (h.flagged.skipped k hskipped)

theorem answer_eq_ok_iff (as : List α) :
    (s.memory.result stage).answer = .ok as ↔ tasks.map Traced.value = as.map .ok := by
  rw [Memory.result_ok, Memory.ending_all]
  refine ⟨Memory.values_of_records h.placed.ran h.placed.size, fun has => ?_⟩
  refine Memory.records_of_values h.placed.ran h.placed.size (fun k hk => ?_) has
  refine (ran_or_skipped h hs hk).resolve_right fun hskipped => ?_
  obtain ⟨j, fault, -, hfault⟩ :=
    (cancelled_iff_ran_fails h hs).mp (h.flagged.skipped k hskipped)
  exact not_fails_of_answers has j fault hfault

theorem ending_ne_cancelled : s.memory.ending stage ≠ .cancelled := by
  intro hend
  by_cases hfails : ∃ k fault, Fails tasks k fault
  · obtain ⟨k, fault, hk⟩ := hfails
    obtain ⟨j, other, hran, hj⟩ := exists_ran_fails h hs hk
    obtain ⟨f, hf⟩ := Memory.exists_ending_failed stage
      ((Memory.ran_error_iff h.placed.ran).mpr ⟨other, hran, hj, rfl⟩)
    cases hf.symm.trans hend
  · obtain ⟨as, has⟩ := exists_answers (by simpa using hfails)
    cases (Memory.result_ok.mp ((answer_eq_ok_iff h hs as).mpr has)).symm.trans hend

theorem answer_eq_error_iff (f : Failure) :
    (s.memory.result stage).answer = .error f ↔
      ∃ k fault, (∃ x, s.memory.Ran k x) ∧ Fails tasks k fault ∧
        (∀ j < k, (∃ x, s.memory.Ran j x) → ∀ other, ¬ Fails tasks j other) ∧
          f = fault.inJob stage :=
  (Memory.result_error (ending_ne_cancelled h hs)).trans (Memory.ending_failed_iff h.placed.ran)

/-- In the end no worker still has to count. -/
theorem completed_eq_countP :
    s.memory.completed = (List.range tasks.length).countP s.memory.succeeded := by
  have hanswered : s.workers.countP Worker.isAnswered = 0 := by
    refine List.countP_eq_zero.mpr fun w hw => ?_
    rw [hs w hw]
    exact Bool.false_ne_true
  rw [← h.placed.size, Memory.countP_succeeded, ← h.counted, hanswered]
  rfl

/-- The only task that fails cannot be skipped. -/
theorem answer_eq_answer_run (hone : ∀ j k f g, Fails tasks j f → Fails tasks k g → j = k) :
    (s.memory.result stage).answer = (run limit stage tasks).value.answer := by
  by_cases hfails : ∃ k fault, Fails tasks k fault
  · obtain ⟨k, fault, hk⟩ := hfails
    obtain ⟨j, other, hran, hj⟩ := exists_ran_fails h hs hk
    have hfirst : ∀ i < j, ∀ f, ¬ Fails tasks i f :=
      fun i hi f hf => hi.ne (hone i j f other hf hj)
    rw [answer_run_of_fails hj hfirst]
    exact (answer_eq_error_iff h hs _).mpr ⟨j, other, hran, hj, fun i hi _ => hfirst i hi, rfl⟩
  · obtain ⟨as, has⟩ := exists_answers (by simpa using hfails)
    rw [(answer_eq_ok_iff h hs as).mpr has, answer_run_of_answers has]

theorem outcome_of_invariant : s.memory.Outcome limit stage tasks where
  drained := (not_open_of_finished h.placed hs).1
  settled _ hk := ran_or_skipped h hs hk
  recorded := h.placed.ran
  ok_iff := answer_eq_ok_iff h hs
  error_iff := answer_eq_error_iff h hs
  not_cancelled := ending_ne_cancelled h hs
  cancelled_iff := cancelled_iff_ran_fails h hs
  reported := reported_of_flagged h.flagged
  completed_eq := completed_eq_countP h hs
  sequential := answer_eq_answer_run h hs

end Ended

/-- **Whatever the order in which the workers act, the pool does what running
one task after the other does.**  No schedule goes on for ever, and every one can
be completed.  When all workers have left, all answers are returned in the order
of submission just if no task fails; otherwise the failure of the first task that
ran and failed, with the stage unless it names one.  No run ends for want of a
result, the completed jobs are those that ran and succeeded, and if no two tasks
fail the answer does not depend on the order. -/
theorem outcome_follow {schedule : List Nat}
    (h : (start limit tasks).follow stage schedule = some s) :
    schedule.length ≤ 4 * tasks.length + Pool.workers limit tasks.length ∧
      (∃ rest s', s.follow stage rest = some s' ∧ s'.Finished) ∧
        (s.Finished → s.memory.Outcome limit stage tasks) := by
  refine ⟨?_, exists_finished stage s, outcome_of_invariant ?_⟩
  · rw [← left_start]
    exact Nat.le_of_add_right_le (length_follow_le h)
  · exact invariant_follow (invariant_start limit tasks) h

/-- Four tasks, the second of which breaks off. -/
def sampleTasks : List (Traced (Except Fault Nat)) :=
  [pure (.ok 0), pure (.error (.thrown "no memory")), pure (.ok 2), pure (.ok 3)]

/-- Two workers have taken the first two tasks.  The second task breaks off, and
the first one still runs; a worker takes the third before the flag is set, and
skips it and the last one after that. -/
def sampleSchedule : List Nat := [0, 1, 1, 1, 0, 0, 0, 0, 1, 0, 0, 0, 0, 1]

theorem outcome_follow_sample : ∃ s : State Nat,
    (start 2 sampleTasks).follow "merge" sampleSchedule = some s ∧ s.Finished ∧
      s.memory.Outcome 2 "merge" sampleTasks ∧ s.memory.completed = 1 ∧
      (s.memory.result "merge").answer = (run 2 "merge" sampleTasks).value.answer := by
  have hend : ((start 2 sampleTasks).follow "merge" sampleSchedule).map
      (fun s => (s.workers, s.memory.completed)) = some ([.gone, .gone], 1) := rfl
  obtain ⟨s, hs, heq⟩ := Option.map_eq_some_iff.mp hend
  obtain ⟨hworkers, hcompleted⟩ := Prod.mk.inj heq
  have hfinished : s.Finished := by
    simp [Finished, hworkers]
  have houtcome := (outcome_follow hs).2.2 hfinished
  refine ⟨s, hs, hfinished, houtcome, hcompleted, houtcome.sequential fun j k f g hj hk => ?_⟩
  -- Only the second task fails.
  have hsecond : ∀ i fault, Fails sampleTasks i fault → i = 1 := by
    rintro i fault ⟨task, htask, hvalue⟩
    match i, htask with
    | 0, htask => cases htask; cases hvalue
    | 1, _ => rfl
    | 2, htask => cases htask; cases hvalue
    | 3, htask => cases htask; cases hvalue
  rw [hsecond j f hj, hsecond k g hk]

end State

end Pool

end CrossDoc
