import CrossDoc.Run.Workers
import Mathlib.Data.List.Perm.Basic

/-!
# The workers of a pool

A job is in exactly one place: it waits in the queue, a worker has it, or it ran
or was skipped.  Workers skip jobs only after the flag was set, and the flag is
set only by a job that failed.  Every action of a worker keeps it so, whatever
the others do in between.
-/

namespace CrossDoc

namespace Pool

variable {α : Type} {stage : Text} {limit : Nat} {tasks : List (Traced (Except Fault α))}

/-- The answer that is recorded for a task. -/
def recordedAnswer (stage : Text) (task : Traced (Except Fault α)) : Except Failure α :=
  task.value.mapError (Fault.recorded stage)

theorem recordedAnswer_ok {task : Traced (Except Fault α)} {a : α} :
    recordedAnswer stage task = .ok a ↔ task.value = .ok a := by
  unfold recordedAnswer
  cases task.value <;> simp [Except.mapError]

theorem recordedAnswer_error {task : Traced (Except Fault α)} {f : Failure} :
    recordedAnswer stage task = .error f ↔
      ∃ fault, task.value = .error fault ∧ fault.recorded stage = f := by
  unfold recordedAnswer
  cases task.value <;> simp [Except.mapError]

/-! ## The records of the jobs -/

namespace JobRecord

theorem failure?_eq {r : JobRecord α} {f : Failure} :
    r.failure? = some f ↔ r.result = some (.error f) := by
  unfold failure?
  split <;> simp_all

theorem answer?_eq {r : JobRecord α} {a : α} : r.answer? = some a ↔ r.result = some (.ok a) := by
  unfold answer?
  split <;> simp_all

def isAnswered (r : JobRecord α) : Bool := r.answer?.isSome

end JobRecord

namespace Memory

/-- Job `k` ran, and its worker recorded this answer. -/
def Ran (m : Memory α) (k : Nat) (answer : Except Failure α) : Prop :=
  ∃ r, m.records[k]? = some r ∧ r.result = some answer

/-- Job `k` was taken after the rest had been cancelled, and did not run. -/
def Skipped (m : Memory α) (k : Nat) : Prop :=
  ∃ r, m.records[k]? = some r ∧ r.result = none ∧ r.skipped = true

/-- Nothing came of job `k` yet. -/
def Open (m : Memory α) (k : Nat) : Prop :=
  ∃ r, m.records[k]? = some r ∧ r.result = none ∧ r.skipped = false

variable {m : Memory α} {j k : Nat} {x y : Except Failure α}

/-- Every job is open, ran or was skipped. -/
theorem open_or_ran_or_skipped (h : k < m.records.length) :
    m.Open k ∨ (∃ x, m.Ran k x) ∨ m.Skipped k := by
  have hr := List.getElem?_eq_getElem h
  cases hx : m.records[k].result with
  | some x => exact .inr (.inl ⟨x, _, hr, hx⟩)
  | none =>
      cases hs : m.records[k].skipped with
      | true => exact .inr (.inr ⟨_, hr, hx, hs⟩)
      | false => exact .inl ⟨_, hr, hx, hs⟩

theorem ran_record (h : m.Open j) :
    (m.record j x).Ran k y ↔ (k = j ∧ y = x) ∨ m.Ran k y := by
  obtain ⟨r, hr, hnone, -⟩ := h
  by_cases hk : j = k
  · subst hk
    simp [Ran, record, hr, hnone, eq_comm]
  · simp [Ran, record, hk, Ne.symm hk]

theorem open_record : (m.record j x).Open k ↔ k ≠ j ∧ m.Open k := by
  by_cases hk : j = k
  · subst hk
    simp [Open, record]
  · simp [Open, record, hk, Ne.symm hk]

theorem skipped_record (h : m.Open j) : (m.record j x).Skipped k ↔ m.Skipped k := by
  obtain ⟨r, hr, hnone, hskipped⟩ := h
  by_cases hk : j = k
  · subst hk
    simp [Skipped, record, hr, hskipped]
  · simp [Skipped, record, hk]

theorem ran_skip : (m.skip j).Ran k x ↔ m.Ran k x := by
  by_cases hk : j = k
  · subst hk
    simp [Ran, skip]
  · simp [Ran, skip, hk]

theorem open_skip : (m.skip j).Open k ↔ k ≠ j ∧ m.Open k := by
  by_cases hk : j = k
  · subst hk
    simp [Open, skip]
  · simp [Open, skip, hk, Ne.symm hk]

@[simp] theorem queue_record : (m.record j x).queue = m.queue := rfl

@[simp] theorem queue_skip : (m.skip j).queue = m.queue := rfl

@[simp] theorem queue_count : m.count.queue = m.queue := rfl

@[simp] theorem queue_cancel : (m.cancel j).queue = m.queue := by
  unfold cancel
  split <;> rfl

@[simp] theorem records_cancel : (m.cancel j).records = m.records := by
  unfold cancel
  split <;> rfl

@[simp] theorem completed_cancel : (m.cancel j).completed = m.completed := by
  unfold cancel
  split <;> rfl

@[simp] theorem cancelled_cancel : (m.cancel j).cancelled = true := by
  unfold cancel
  split
  · assumption
  · rfl

/-- One more job is answered if its task succeeded. -/
theorem countP_record (h : m.Open j) :
    (m.record j x).records.countP JobRecord.isAnswered =
      m.records.countP JobRecord.isAnswered + if x.isOk then 1 else 0 := by
  obtain ⟨r, hr, hnone, -⟩ := h
  obtain ⟨hj, rfl⟩ := List.getElem?_eq_some_iff.mp hr
  obtain ⟨l₁, r, l₂, hl, rfl, hmodify⟩ :=
    List.exists_of_modify (fun r : JobRecord α => { r with result := some x }) hj
  have hr : r.result = none := by
    simpa [hl] using hnone
  rw [record, hmodify, hl]
  cases x <;>
    simp [List.countP_append, List.countP_cons, JobRecord.isAnswered, JobRecord.answer?, hr,
      Except.isOk, Except.toBool, Nat.add_assoc]

theorem countP_skip :
    (m.skip j).records.countP JobRecord.isAnswered =
      m.records.countP JobRecord.isAnswered := by
  by_cases hj : j < m.records.length
  · obtain ⟨l₁, r, l₂, hl, -, hmodify⟩ :=
      List.exists_of_modify (fun r : JobRecord α => { r with skipped := true }) hj
    rw [skip, hmodify, hl]
    simp only [List.countP_append, List.countP_cons]
    rfl
  · rw [skip, List.modify_eq_self (Nat.not_lt.mp hj)]

end Memory

/-! ## What an action does -/

namespace Worker

/-- The actions of a worker, by what it meets. -/
inductive Acts (stage : Text) (m : Memory α) : Worker α → Worker α → Memory α → Prop
  | leave (drained : m.queue.jobs = []) : Acts stage m .ready .gone m
  | take {job : Job α} {rest : List (Job α)} (first : m.queue.jobs = job :: rest) :
      Acts stage m .ready (.holding job) { m with queue := ⟨rest⟩ }
  | skip {job : Job α} (flag : m.cancelled = true) :
      Acts stage m (.holding job) .ready (m.skip job.index)
  | begin {job : Job α} (flag : m.cancelled = false) :
      Acts stage m (.holding job) (.running job) m
  | fail {job : Job α} {fault : Fault} (failed : job.task.value = .error fault) :
      Acts stage m (.running job) (.failed job.index)
        (m.record job.index (.error (fault.recorded stage)))
  | answer {job : Job α} {a : α} (succeeded : job.task.value = .ok a) :
      Acts stage m (.running job) .answered (m.record job.index (.ok a))
  | cancel {index : Nat} : Acts stage m (.failed index) .ready (m.cancel index)
  | count : Acts stage m .answered .ready m.count

variable {m m' : Memory α} {w w' : Worker α}

theorem acts_of_act (h : w.act stage m = some (w', m')) : w.Acts stage m w' m' := by
  cases w with
  | ready =>
      simp only [act, JobQueue.pop?] at h
      cases hq : m.queue.jobs with
      | nil =>
          rw [hq] at h
          cases h
          exact .leave hq
      | cons job rest =>
          rw [hq] at h
          cases h
          exact .take hq
  | holding job =>
      simp only [act] at h
      cases flag : m.cancelled with
      | true =>
          rw [flag] at h
          cases h
          exact .skip flag
      | false =>
          rw [flag] at h
          cases h
          exact .begin flag
  | running job =>
      simp only [act] at h
      cases hvalue : job.task.value with
      | ok a =>
          rw [hvalue] at h
          cases h
          exact .answer hvalue
      | error fault =>
          rw [hvalue] at h
          cases h
          exact .fail hvalue
  | failed index =>
      cases h
      exact .cancel
  | answered =>
      cases h
      exact .count
  | gone => cases h

/-- A worker never has to wait for another one. -/
theorem exists_act (stage : Text) (m : Memory α) (h : w ≠ .gone) :
    ∃ next, w.act stage m = some next := by
  cases w with
  | ready => simp only [act]; split <;> exact ⟨_, rfl⟩
  | holding job => simp only [act]; split <;> exact ⟨_, rfl⟩
  | running job => simp only [act]; split <;> exact ⟨_, rfl⟩
  | failed index => exact ⟨_, rfl⟩
  | answered => exact ⟨_, rfl⟩
  | gone => exact absurd rfl h

/-- The job that a worker has taken and not finished. -/
def job? : Worker α → Option (Job α)
  | .holding job | .running job => some job
  | _ => none

def isAnswered : Worker α → Bool
  | .answered => true
  | _ => false

end Worker

namespace State

variable {s s' : State α} {i : Nat}

/-- A step is an action of one worker beside the others. -/
theorem exists_acts_of_step (h : s.step stage i = some s') :
    ∃ w w' others, s.workers.Perm (w :: others) ∧ s'.workers.Perm (w' :: others) ∧
      w.Acts stage s.memory w' s'.memory := by
  obtain ⟨w, hw, h⟩ := Option.bind_eq_some_iff.mp h
  obtain ⟨⟨w', m'⟩, hact, h⟩ := Option.bind_eq_some_iff.mp h
  cases h
  obtain ⟨hi, rfl⟩ := List.getElem?_eq_some_iff.mp hw
  refine ⟨_, w', s.workers.take i ++ s.workers.drop (i + 1), ?_, ?_, Worker.acts_of_act hact⟩
  · conv_lhs => rw [← List.take_append_drop i s.workers, List.drop_eq_getElem_cons hi]
    exact List.perm_middle
  · rw [List.set_eq_take_append_cons_drop, if_pos hi]
    exact List.perm_middle

end State

/-! ## Where the jobs are -/

/-- The jobs of which nothing came yet: those in the queue and those that
workers have. -/
def pending (ws : List (Worker α)) (m : Memory α) : List (Job α) :=
  m.queue.jobs ++ ws.filterMap Worker.job?

/-- Each job is in one place, and what is recorded for it is its own answer. -/
structure Placed (stage : Text) (tasks : List (Traced (Except Fault α)))
    (ws : List (Worker α)) (m : Memory α) : Prop where
  size : m.records.length = tasks.length
  staffed : ws = [] → tasks = []
  task : ∀ job ∈ pending ws m, tasks[job.index]? = some job.task
  once : ((pending ws m).map Job.index).Nodup
  open_iff : ∀ k, m.Open k ↔ k ∈ (pending ws m).map Job.index
  ran : ∀ k x, m.Ran k x → ∃ t, tasks[k]? = some t ∧ x = recordedAnswer stage t
  drained : .gone ∈ ws → m.queue.jobs = []

namespace Placed

variable {w w' : Worker α} {ws ws' : List (Worker α)} {m m' : Memory α} {job : Job α}

/-- Nothing came of a further job. -/
theorem keep (h : Placed stage tasks ws m) (hrecords : m'.records = m.records)
    (hpending : (pending ws' m').Perm (pending ws m)) (hstaffed : ws' = [] → ws = [])
    (hdrained : .gone ∈ ws' → m'.queue.jobs = []) : Placed stage tasks ws' m' where
  size := hrecords ▸ h.size
  staffed hws := h.staffed (hstaffed hws)
  task job hjob := h.task job (hpending.mem_iff.mp hjob)
  once := (hpending.map _).nodup_iff.mpr h.once
  open_iff k := by
    rw [(hpending.map Job.index).mem_iff, ← h.open_iff]
    simp only [Memory.Open, hrecords]
  ran k x := by
    simp only [Memory.Ran, hrecords]
    exact h.ran k x
  drained := hdrained

/-- The job that a worker had was run or skipped. -/
theorem settle (h : Placed stage tasks (w :: ws) m) (hjob : w.job? = some job)
    (hfree : w'.job? = none) (hstays : w' ≠ .gone) (hqueue : m'.queue = m.queue)
    (hsize : m'.records.length = m.records.length)
    (hopen : ∀ k, m'.Open k ↔ k ≠ job.index ∧ m.Open k)
    (hran : ∀ k x, m'.Ran k x →
      (k = job.index ∧ x = recordedAnswer stage job.task) ∨ m.Ran k x) :
    Placed stage tasks (w' :: ws) m' := by
  have hpending : (pending (w :: ws) m).Perm (job :: pending (w' :: ws) m') := by
    simpa only [pending, List.filterMap_cons, hjob, hfree, hqueue] using List.perm_middle
  have htask := fun job hjob => h.task job (hpending.mem_iff.mpr hjob)
  have honce := (hpending.map Job.index).nodup_iff.mp h.once
  rw [List.map_cons, List.nodup_cons] at honce
  refine ⟨hsize.trans h.size, fun hws => (List.cons_ne_nil _ _ hws).elim,
    fun j hj => htask j (List.mem_cons_of_mem job hj), honce.2, fun k => ?_, fun k x hk => ?_,
    fun hgone => ?_⟩
  · rw [hopen, h.open_iff, (hpending.map Job.index).mem_iff, List.map_cons, List.mem_cons]
    constructor
    · rintro ⟨hne, heq | hk⟩
      · exact absurd heq hne
      · exact hk
    · intro hk
      refine ⟨?_, .inr hk⟩
      rintro rfl
      exact honce.1 hk
  · rcases hran k x hk with ⟨rfl, rfl⟩ | hk
    · exact ⟨job.task, htask job List.mem_cons_self, rfl⟩
    · exact h.ran k x hk
  · rw [hqueue]
    rcases List.mem_cons.mp hgone with heq | hgone
    · exact absurd heq.symm hstays
    · exact h.drained (List.mem_cons_of_mem w hgone)

theorem perm (h : Placed stage tasks ws m) (hp : ws.Perm ws') : Placed stage tasks ws' m :=
  h.keep rfl ((hp.symm.filterMap _).append_left _)
    (fun hnil => by rw [hnil] at hp; exact hp.eq_nil) fun hgone => h.drained (hp.mem_iff.mpr hgone)

/-- A job that a worker has is open. -/
theorem isOpen (h : Placed stage tasks (w :: ws) m) (hw : w.job? = some job) :
    m.Open job.index := by
  refine (h.open_iff _).mpr (List.mem_map_of_mem ?_)
  exact List.mem_append_right _ (List.mem_filterMap.mpr ⟨w, List.mem_cons_self, hw⟩)

theorem act (h : Placed stage tasks (w :: ws) m) (ha : w.Acts stage m w' m') :
    Placed stage tasks (w' :: ws) m' := by
  have hdrained : .gone ∈ ws → m.queue.jobs = [] :=
    fun hgone => h.drained (List.mem_cons_of_mem w hgone)
  cases ha with
  | leave drained => exact h.keep rfl (.refl _) (by simp) fun _ => drained
  | take first =>
      refine h.keep rfl ?_ (by simp) ?_
      · simp only [pending, first, List.filterMap_cons, Worker.job?]
        exact List.perm_middle
      · intro hgone
        rcases List.mem_cons.mp hgone with heq | hgone
        · cases heq
        · cases first.symm.trans (hdrained hgone)
  | skip _ =>
      exact h.settle rfl rfl (by simp) rfl (List.length_modify ..) (fun k => Memory.open_skip)
        fun k x hk => .inr (Memory.ran_skip.mp hk)
  | begin _ => exact h.keep rfl (.refl _) (by simp) (by simpa using hdrained)
  | fail failed =>
      refine h.settle rfl rfl (by simp) rfl (List.length_modify ..)
        (fun k => Memory.open_record) fun k x hk => ?_
      rcases (Memory.ran_record (h.isOpen rfl)).mp hk with ⟨rfl, rfl⟩ | hk
      · exact .inl ⟨rfl, (recordedAnswer_error.mpr ⟨_, failed, rfl⟩).symm⟩
      · exact .inr hk
  | answer succeeded =>
      refine h.settle rfl rfl (by simp) rfl (List.length_modify ..)
        (fun k => Memory.open_record) fun k x hk => ?_
      rcases (Memory.ran_record (h.isOpen rfl)).mp hk with ⟨rfl, rfl⟩ | hk
      · exact .inl ⟨rfl, (recordedAnswer_ok.mpr succeeded).symm⟩
      · exact .inr hk
  | cancel =>
      refine h.keep Memory.records_cancel ?_ (by simp) (by simpa using hdrained)
      simp only [pending, Memory.queue_cancel]
      exact .refl _
  | count => exact h.keep rfl (.refl _) (by simp) (by simpa using hdrained)

end Placed

/-! ## Who sets the flag -/

/-- Only a job that failed sets the flag, only the flag makes workers skip, and
the flag is reported once. -/
structure Flagged (limit : Nat) (tasks : List (Traced (Except Fault α)))
    (ws : List (Worker α)) (m : Memory α) : Prop where
  skipped : ∀ k, m.Skipped k → m.cancelled = true
  cause : m.cancelled = true → ∃ k f, m.Ran k (.error f) ∧
    m.events = [Memory.starting limit tasks.length, Memory.cancelling k]
  quiet : m.cancelled = false → m.events = [Memory.starting limit tasks.length]
  failed : ∀ k, .failed k ∈ ws → ∃ f, m.Ran k (.error f)
  noticed : ∀ k f, m.Ran k (.error f) → m.cancelled = true ∨ .failed k ∈ ws

namespace Flagged

variable {w w' : Worker α} {ws ws' : List (Worker α)} {m m' : Memory α}

/-- Neither the records nor the flag change. -/
theorem keep (h : Flagged limit tasks ws m) (hrecords : m'.records = m.records)
    (hflag : m'.cancelled = m.cancelled) (hevents : m'.events = m.events)
    (hws : ∀ k, .failed k ∈ ws' ↔ .failed k ∈ ws) : Flagged limit tasks ws' m' := by
  refine ⟨?_, ?_, ?_, ?_, ?_⟩ <;>
    simp only [Memory.Skipped, Memory.Ran, hrecords, hflag, hevents, hws]
  · exact h.skipped
  · exact h.cause
  · exact h.quiet
  · exact h.failed
  · exact h.noticed

theorem perm (h : Flagged limit tasks ws m) (hp : ws.Perm ws') : Flagged limit tasks ws' m :=
  h.keep rfl rfl rfl fun _ => hp.symm.mem_iff

/-- A worker records what the task of an open job came to. -/
theorem record {k : Nat} {x : Except Failure α} (h : Flagged limit tasks (w :: ws) m)
    (hopen : m.Open k) (hw : ∀ j, w ≠ .failed j)
    (hw' : ∀ j, w' = .failed j ↔ j = k ∧ ∃ f, x = .error f) :
    Flagged limit tasks (w' :: ws) (m.record k x) where
  skipped j hj := h.skipped j ((Memory.skipped_record hopen).mp hj)
  cause hflag := by
    obtain ⟨j, f, hran, hevents⟩ := h.cause hflag
    exact ⟨j, f, (Memory.ran_record hopen).mpr (.inr hran), hevents⟩
  quiet := h.quiet
  failed j hj := by
    rcases List.mem_cons.mp hj with heq | hj
    · obtain ⟨rfl, f, rfl⟩ := (hw' j).mp heq.symm
      exact ⟨f, (Memory.ran_record hopen).mpr (.inl ⟨rfl, rfl⟩)⟩
    · obtain ⟨f, hran⟩ := h.failed j (List.mem_cons_of_mem w hj)
      exact ⟨f, (Memory.ran_record hopen).mpr (.inr hran)⟩
  noticed j f hj := by
    rcases (Memory.ran_record hopen).mp hj with ⟨rfl, rfl⟩ | hj
    · exact .inr (List.mem_cons.mpr (.inl ((hw' j).mpr ⟨rfl, f, rfl⟩).symm))
    · refine (h.noticed j f hj).imp_right fun hmem => ?_
      rcases List.mem_cons.mp hmem with heq | hmem
      · exact absurd heq.symm (hw j)
      · exact List.mem_cons_of_mem w' hmem

theorem act (h : Flagged limit tasks (w :: ws) m) (hplaced : Placed stage tasks (w :: ws) m)
    (ha : w.Acts stage m w' m') : Flagged limit tasks (w' :: ws) m' := by
  cases ha with
  | leave _ => exact h.keep rfl rfl rfl (by simp)
  | take _ => exact h.keep rfl rfl rfl (by simp)
  | skip flag =>
      refine ⟨fun _ _ => flag, fun _ => ?_, fun hflag => ?_, fun k hk => ?_, fun _ _ _ => .inl flag⟩
      · obtain ⟨j, f, hran, hevents⟩ := h.cause flag
        exact ⟨j, f, Memory.ran_skip.mpr hran, hevents⟩
      · cases flag.symm.trans hflag
      · obtain ⟨f, hran⟩ := h.failed k (by simpa using hk)
        exact ⟨f, Memory.ran_skip.mpr hran⟩
  | begin _ => exact h.keep rfl rfl rfl (by simp)
  | fail _ => exact h.record (hplaced.isOpen rfl) (by simp) (by simp [eq_comm])
  | answer _ => exact h.record (hplaced.isOpen rfl) (by simp) (by simp)
  | @cancel index =>
      have hran : ∀ k x, (m.cancel index).Ran k x ↔ m.Ran k x := by simp [Memory.Ran]
      refine ⟨fun _ _ => Memory.cancelled_cancel, fun _ => ?_, fun hflag => ?_, fun k hk => ?_,
        fun _ _ _ => .inl Memory.cancelled_cancel⟩
      · simp only [hran]
        cases flag : m.cancelled with
        | true => simpa [Memory.cancel, flag] using h.cause flag
        | false =>
            -- The job of this worker is the one that sets the flag.
            obtain ⟨f, hfailed⟩ := h.failed index List.mem_cons_self
            exact ⟨index, f, hfailed, by simp [Memory.cancel, flag, h.quiet flag]⟩
      · cases Memory.cancelled_cancel.symm.trans hflag
      · simp only [hran]
        exact h.failed k (List.mem_cons_of_mem _ (by simpa using hk))
  | count => exact h.keep rfl rfl rfl (by simp)

end Flagged

/-! ## All that holds during a run -/

/-- What holds between two actions. -/
structure Invariant (limit : Nat) (stage : Text) (tasks : List (Traced (Except Fault α)))
    (ws : List (Worker α)) (m : Memory α) : Prop where
  placed : Placed stage tasks ws m
  flagged : Flagged limit tasks ws m
  /-- The answers that are recorded and not counted are those of workers about to count. -/
  counted : m.completed + ws.countP Worker.isAnswered = m.records.countP JobRecord.isAnswered

namespace Invariant

variable {w w' : Worker α} {ws ws' : List (Worker α)} {m m' : Memory α}

theorem perm (h : Invariant limit stage tasks ws m) (hp : ws.Perm ws') :
    Invariant limit stage tasks ws' m where
  placed := h.placed.perm hp
  flagged := h.flagged.perm hp
  counted := hp.countP_eq Worker.isAnswered ▸ h.counted

theorem counted_act (h : Invariant limit stage tasks (w :: ws) m) (ha : w.Acts stage m w' m') :
    m'.completed + (w' :: ws).countP Worker.isAnswered =
      m'.records.countP JobRecord.isAnswered := by
  have hcounted := h.counted
  rw [List.countP_cons] at hcounted ⊢
  cases ha with
  | leave _ | take _ | begin _ => exact hcounted
  | skip _ =>
      rw [Memory.countP_skip]
      exact hcounted
  | fail _ | answer _ =>
      rw [Memory.countP_record (h.placed.isOpen rfl), ← hcounted]
      rfl
  | cancel =>
      rw [Memory.records_cancel, Memory.completed_cancel]
      exact hcounted
  | count =>
      -- The worker that was about to count has counted.
      calc m.completed + 1 + (ws.countP Worker.isAnswered + 0)
          = m.completed + (ws.countP Worker.isAnswered + 1) := by omega
        _ = m.records.countP JobRecord.isAnswered := hcounted

/-- Every action of a worker keeps the invariant. -/
theorem act (h : Invariant limit stage tasks (w :: ws) m) (ha : w.Acts stage m w' m') :
    Invariant limit stage tasks (w' :: ws) m' where
  placed := h.placed.act ha
  flagged := h.flagged.act h.placed ha
  counted := h.counted_act ha

end Invariant

namespace State

variable {s s' : State α} {i : Nat} {schedule : List Nat}

theorem queue_start :
    (start limit tasks).memory.queue.jobs = tasks.zipIdx.map fun (task, index) => ⟨index, task⟩ := by
  have hpush : ∀ (l : List (Traced (Except Fault α) × Nat)) (q : JobQueue (Job α)),
      (l.foldl (fun q (task, index) => q.push ⟨index, task⟩) q).jobs =
        q.jobs ++ l.map fun (task, index) => ⟨index, task⟩ := by
    intro l
    induction l with
    | nil => exact fun q => (List.append_nil _).symm
    | cons x rest ih =>
        intro q
        rw [List.foldl_cons, ih, List.map_cons]
        exact List.append_assoc q.jobs [⟨x.2, x.1⟩] _
  exact hpush _ _

theorem pending_start : pending (start limit tasks).workers (start limit tasks).memory =
    tasks.zipIdx.map fun (task, index) => ⟨index, task⟩ := by
  have hready : ∀ n, (List.replicate n (.ready : Worker α)).filterMap Worker.job? = [] := by
    intro n
    refine List.filterMap_eq_nil_iff.mpr fun w hw => ?_
    rw [List.eq_of_mem_replicate hw]
    rfl
  rw [pending, queue_start]
  exact (congrArg _ (hready _)).trans (List.append_nil _)

/-- The numbers of the jobs are those below the number of tasks. -/
theorem index_pending_start :
    (pending (start limit tasks).workers (start limit tasks).memory).map Job.index =
      List.range' 0 tasks.length := by
  rw [pending_start, List.map_map]
  exact List.zipIdx_map_snd 0 tasks

theorem getElem?_records_start {k : Nat} {r : JobRecord α} :
    (start limit tasks).memory.records[k]? = some r ↔ k < tasks.length ∧ r = {} := by
  simp only [start, List.getElem?_map, Option.map_eq_some_iff, exists_and_right, eq_comm (a := r)]
  simp only [List.getElem?_eq_some_iff, exists_prop, exists_comm, exists_eq', and_true]

theorem placed_start (limit : Nat) (tasks : List (Traced (Except Fault α))) :
    Placed stage tasks (start limit tasks).workers (start limit tasks).memory where
  size := List.length_map _
  staffed h := by
    have hworkers : Pool.workers limit tasks.length = 0 := by simpa [start] using h
    refine List.eq_nil_of_length_eq_zero ?_
    unfold Pool.workers at hworkers
    split at hworkers <;> omega
  task job hjob := by
    rw [pending_start] at hjob
    obtain ⟨⟨task, index⟩, hmem, rfl⟩ := List.mem_map.mp hjob
    exact List.mk_mem_zipIdx_iff_getElem?.mp hmem
  once := index_pending_start ▸ List.nodup_range' ..
  open_iff k := by
    rw [index_pending_start]
    simp [Memory.Open, getElem?_records_start]
  ran k x := by
    simp [Memory.Ran, getElem?_records_start]
  drained hgone := by
    cases List.eq_of_mem_replicate hgone

theorem invariant_start (limit : Nat) (tasks : List (Traced (Except Fault α))) :
    Invariant limit stage tasks (start limit tasks).workers (start limit tasks).memory where
  placed := placed_start limit tasks
  flagged :=
    { skipped := by simp [Memory.Skipped, getElem?_records_start]
      cause := by simp [start]
      quiet := fun _ => rfl
      failed := by simp [start]
      noticed := by simp [Memory.Ran, getElem?_records_start] }
  counted := by
    simp [start, List.countP_replicate, Worker.isAnswered, JobRecord.isAnswered,
      JobRecord.answer?]

theorem invariant_step (h : Invariant limit stage tasks s.workers s.memory)
    (hs : s.step stage i = some s') : Invariant limit stage tasks s'.workers s'.memory := by
  obtain ⟨w, w', others, hworkers, hworkers', ha⟩ := exists_acts_of_step hs
  exact ((h.perm hworkers).act ha).perm hworkers'.symm

theorem follow_cons : s.follow stage (i :: schedule) =
    (s.step stage i).bind fun s' => s'.follow stage schedule := rfl

/-- Whatever the schedule, the invariant holds. -/
theorem invariant_follow (h : Invariant limit stage tasks s.workers s.memory)
    (hs : s.follow stage schedule = some s') :
    Invariant limit stage tasks s'.workers s'.memory := by
  induction schedule generalizing s with
  | nil =>
      cases hs
      exact h
  | cons i rest ih =>
      obtain ⟨next, hstep, hrest⟩ := Option.bind_eq_some_iff.mp hs
      exact ih (invariant_step h hstep) hrest

end State

end Pool

end CrossDoc
