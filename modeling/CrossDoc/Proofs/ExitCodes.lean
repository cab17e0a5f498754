import CrossDoc.Command.Run
import CrossDoc.Proofs.LogFiles
import CrossDoc.Proofs.StageOrder

/-!
# What a run of the command tells and leaves behind

The exit code says whether something went wrong before or while the
documentation was generated, and else whether the analysis reported errors that
count.  As long as a run does not come to rendering the disk stays as it is, but
for the files that the logger writes to.
-/

namespace CrossDoc

/-! ## Errors of the analysis -/

namespace Event

theorem hasErrors_append (es fs : List Event) :
    hasErrors (es ++ fs) = (hasErrors es || hasErrors fs) := List.any_append

theorem hasErrors_forM {α : Type} {xs : List α} {f : α → Traced Unit}
    (h : ∀ x ∈ xs, hasErrors (f x).events = false) : hasErrors (xs.forM f).events = false := by
  induction xs with
  | nil => rfl
  | cons x rest ih =>
      obtain ⟨hx, hrest⟩ := List.forall_mem_cons.mp h
      show hasErrors (f x >>= fun _ => rest.forM f).events = false
      rw [Traced.events_bind, hasErrors_append, hx, ih hrest]
      rfl

end Event

namespace Config

theorem hasErrors_reportIgnored : ∀ ignored : List (Nat × Text),
    Event.hasErrors (reportIgnored ignored).events = false
  | [] => rfl
  | (line, key) :: rest => by
      rw [reportIgnored, Traced.events_bind, Event.hasErrors_append, hasErrors_reportIgnored rest]
      rfl

theorem hasErrors_load (disk : Disk) (path : Text) :
    Event.hasErrors (load disk path).events = false := by
  unfold load
  split
  · rfl
  · next t _ =>
    have hread : Event.hasErrors (read t).events = false := by
      rw [read, Traced.events_bind, Event.hasErrors_append, hasErrors_reportIgnored]
      rfl
    rw [Traced.events_bind, Traced.events_bind, Event.hasErrors_append, Event.hasErrors_append,
      hread]
    split <;> rfl

end Config

theorem CommandOptions.hasErrors_buildConfig (o : CommandOptions) (disk : Disk) :
    Event.hasErrors (o.buildConfig disk).events = false := by
  unfold buildConfig
  split
  · rfl
  · rw [Traced.events_bind, Event.hasErrors_append, Config.hasErrors_load]
    cases (Config.load disk o.configFile).value <;> rfl

namespace Generator

theorem hasErrors_reportDisabled (g : Generator) :
    Event.hasErrors g.reportDisabled.events = false := by
  unfold reportDisabled
  refine Event.hasErrors_forM fun p _ => ?_
  split <;> rfl

/-- Besides its stages a run reports no diagnostics. -/
theorem hasErrors_generate (g : Generator) :
    Event.hasErrors g.generate.events = Event.hasErrors g.runStages.events := by
  unfold generate
  rw [Traced.events_bind, Traced.events_bind, Event.hasErrors_append, Event.hasErrors_append,
    hasErrors_reportDisabled, Bool.false_or]
  split
  split <;> exact Bool.or_false _

/-- The report of a run tells whether the analysis reported errors. -/
theorem analysisErrors_generate {g : Generator} {report : Report}
    (h : g.generate.value.1 = .ok report) :
    report.analysisErrors = Event.hasErrors g.generate.events := by
  rw [hasErrors_generate]
  unfold generate at h
  rw [Traced.value_bind, Traced.value_bind] at h
  split at h
  split at h
  · cases h
  · cases h
  · cases h
    rfl

/-- The disk changes by rendering only. -/
theorem disk_generate {g : Generator} (h : ∀ p, g.prepare.run.value ≠ .ok p) :
    g.generate.value.2 = g.disk := by
  cases hprepare : g.prepare.run.value with
  | ok p => exact absurd hprepare (h p)
  | error fault =>
      unfold generate
      rw [Traced.value_bind, Traced.value_bind, (runStages_of_prepare_error hprepare).1]
      cases fault <;> rfl

end Generator

namespace Command

/-! ## The way of a run -/

/-- The generator of a run with a configuration. -/
def generator (c : Config) (disk : Disk) : Generator :=
  { config := c, analyzer := .ofListings disk, disk := disk }

/-- The run gets as far as a configuration: the options have no errors, and what they build is
valid. -/
structure Accepts (o : CommandOptions) (disk : Disk) (c : Config) : Prop where
  noErrors : o.errors = []
  builds : (o.buildConfig disk).value = .ok c
  valid : c.validate = .ok ()

/-- The run comes to rendering: it is not skipped, and all stages before that one succeed. -/
structure ComesToRendering (c : Config) (disk : Disk) : Prop where
  notSkipped : c.skip = false
  prepared : ∃ p, (generator c disk).prepare.run.value = .ok p

/-- What makes a run fail. -/
inductive Fails (o : CommandOptions) (disk : Disk) : Prop where
  | options (errors : o.errors ≠ []) : Fails o disk
  | configuration {e : ConfigError} (error : (o.buildConfig disk).value = .error e) : Fails o disk
  | validation {c : Config} {e : ConfigError} (builds : (o.buildConfig disk).value = .ok c)
      (error : c.validate = .error e) : Fails o disk
  | pipeline {c : Config} {f : Failure} (accepts : Accepts o disk c) (notSkipped : c.skip = false)
      (error : (generator c disk).generate.value.1 = .error (.failed f)) : Fails o disk

/-- The analysis reported errors, and the configuration asks to fail then. -/
structure ReportsErrors (o : CommandOptions) (disk : Disk) : Prop where
  reported : Event.hasErrors (run o disk).events = true
  counts : ∃ c, Accepts o disk c ∧ c.skip = false ∧ c.failOnError = true

variable {o : CommandOptions} {disk : Disk} {c : Config}

theorem value_run_of_errors (h : o.errors ≠ []) : (run o disk).value = (exitFailure, disk) := by
  unfold run
  rw [if_pos (by simpa using h), Traced.value_bind]
  rfl

/-- Without errors in the options the configuration decides. -/
theorem run_of_noErrors (disk : Disk) (h : o.errors = []) :
    (run o disk).value =
        (match (o.buildConfig disk).value with
        | .error _ => (exitFailure, disk)
        | .ok c =>
            match c.validate with
            | .error _ => (exitFailure, disk)
            | .ok () => (runConfig c disk).value) ∧
      Event.hasErrors (run o disk).events =
        (match (o.buildConfig disk).value with
        | .error _ => false
        | .ok c =>
            match c.validate with
            | .error _ => false
            | .ok () => Event.hasErrors (runConfig c disk).events) := by
  unfold run
  rw [if_neg (by simp [h]), Traced.value_bind, Traced.events_bind, Event.hasErrors_append,
    o.hasErrors_buildConfig, Bool.false_or]
  cases (o.buildConfig disk).value with
  | error e => exact ⟨rfl, rfl⟩
  | ok c =>
      dsimp only
      cases c.validate with
      | error e => exact ⟨rfl, rfl⟩
      | ok _ => exact ⟨rfl, rfl⟩

theorem Accepts.run_eq (h : Accepts o disk c) :
    (run o disk).value = (runConfig c disk).value ∧
      Event.hasErrors (run o disk).events = Event.hasErrors (runConfig c disk).events := by
  have hrun := run_of_noErrors disk h.noErrors
  rw [h.builds] at hrun
  dsimp only at hrun
  rw [h.valid] at hrun
  exact hrun

/-- A configuration that is accepted decides about the run; without one the run fails at once. -/
theorem accepts_or_fails (o : CommandOptions) (disk : Disk) :
    (∃ c, Accepts o disk c) ∨ Fails o disk ∧ (run o disk).value = (exitFailure, disk) := by
  by_cases herrors : o.errors = []
  · have hrun := (run_of_noErrors disk herrors).1
    cases hbuilds : (o.buildConfig disk).value with
    | error e =>
        rw [hbuilds] at hrun
        exact Or.inr ⟨.configuration hbuilds, hrun⟩
    | ok c =>
        rw [hbuilds] at hrun
        dsimp only at hrun
        cases hvalid : c.validate with
        | error e =>
            rw [hvalid] at hrun
            exact Or.inr ⟨.validation hbuilds hvalid, hrun⟩
        | ok _ => exact Or.inl ⟨c, herrors, hbuilds, hvalid⟩
  · exact Or.inr ⟨.options herrors, value_run_of_errors herrors⟩

theorem Accepts.unique {c' : Config} (h : Accepts o disk c) (h' : Accepts o disk c') : c = c' :=
  Except.ok.inj (h.builds.symm.trans h'.builds)

/-- The plugins of every run keep to the types of the points, so no run of the command breaks
off. -/
theorem exists_failure {fault : Fault}
    (h : (generator c disk).generate.value.1 = .error fault) : ∃ f, fault = .failed f := by
  have hdisciplined := Generator.isDisciplined_of_failsUnnamed (g := generator c disk)
    fun p hp => absurd hp List.not_mem_nil
  cases fault with
  | failed f => exact ⟨f, rfl⟩
  | thrown message =>
      obtain ⟨-, point, ⟨r, hinstalled, hmistypes⟩, -⟩ := hdisciplined.breaksOff message h
      refine absurd hmistypes (Plugin.not_mistypes_of_isTyped hinstalled (fun p hp => ?_) point)
      rcases List.mem_append.mp (List.mem_filter.mp hp).1 with hp | hp
      · exact Plugin.isTyped_builtin p hp
      · cases hp

/-- With an accepted configuration only the generation can fail. -/
theorem Accepts.fails_iff (h : Accepts o disk c) :
    Fails o disk ↔
      c.skip = false ∧ ∃ fault, (generator c disk).generate.value.1 = .error fault := by
  constructor
  · rintro (herrors | herror | ⟨hbuilds, herror⟩ | ⟨haccepts, hskip, herror⟩)
    · exact absurd h.noErrors herrors
    · rw [h.builds] at herror
      cases herror
    · obtain rfl := Except.ok.inj (h.builds.symm.trans hbuilds)
      rw [h.valid] at herror
      cases herror
    · obtain rfl := h.unique haccepts
      exact ⟨hskip, _, herror⟩
  · rintro ⟨hskip, fault, herror⟩
    obtain ⟨f, rfl⟩ := exists_failure herror
    exact .pipeline h hskip herror

theorem Accepts.reportsErrors_iff (h : Accepts o disk c) :
    ReportsErrors o disk ↔
      Event.hasErrors (runConfig c disk).events = true ∧ c.skip = false ∧ c.failOnError = true := by
  rw [← h.run_eq.2]
  constructor
  · rintro ⟨hreported, c', haccepts, hskip, hfail⟩
    obtain rfl := h.unique haccepts
    exact ⟨hreported, hskip, hfail⟩
  · rintro ⟨hreported, hskip, hfail⟩
    exact ⟨hreported, c, h, hskip, hfail⟩

/-! ## Runs with a configuration -/

theorem value_runConfig_skip (h : c.skip = true) :
    (runConfig c disk).value = (exitSuccess, disk) := by
  unfold runConfig
  rw [if_pos h]
  rfl

/-- A run that is not skipped reports the diagnostics of the generation. -/
theorem hasErrors_runConfig (h : c.skip = false) :
    Event.hasErrors (runConfig c disk).events =
      Event.hasErrors (generator c disk).generate.events := by
  unfold runConfig
  rw [if_neg (by simp [h])]
  dsimp only
  rw [Traced.events_bind, Event.hasErrors_append]
  split
  · exact Bool.or_false _
  · rw [Traced.events_bind, Event.hasErrors_append]
    split <;> exact Bool.or_false _

/-- It ends as the generation does. -/
theorem value_runConfig_of_notSkipped (h : c.skip = false) :
    (runConfig c disk).value =
      (match (generator c disk).generate.value.1 with
        | .ok _ =>
            if Event.hasErrors (runConfig c disk).events && c.failOnError then exitAnalysisErrors
            else exitSuccess
        | .error _ => exitFailure,
        (generator c disk).generate.value.2) := by
  have hreport : ∀ report, (generator c disk).generate.value.1 = .ok report →
      report.analysisErrors = Event.hasErrors (generator c disk).generate.events :=
    fun report => Generator.analysisErrors_generate
  rw [hasErrors_runConfig h]
  cases hanswer : (generator c disk).generate.value with
  | mk result after =>
      rw [hanswer] at hreport
      unfold generator at hanswer
      unfold runConfig
      rw [if_neg (by simp [h])]
      dsimp only
      rw [Traced.value_bind, hanswer]
      cases result with
      | error fault => rfl
      | ok report =>
          rw [← hreport report rfl]
          dsimp only
          rw [Traced.value_bind]
          split <;> rfl

/-- With an accepted configuration the code is that of a failure, of errors that count, or of
success. -/
theorem Accepts.exitCode (h : Accepts o disk c) :
    (Fails o disk ∧ (run o disk).value.1 = exitFailure) ∨
      (¬ Fails o disk ∧ ReportsErrors o disk ∧
        (run o disk).value.1 = exitAnalysisErrors) ∨
      (¬ Fails o disk ∧ ¬ ReportsErrors o disk ∧
        (run o disk).value.1 = exitSuccess) := by
  rw [h.run_eq.1, h.fails_iff, h.reportsErrors_iff]
  cases hskip : c.skip with
  | true =>
      rw [value_runConfig_skip hskip]
      simp
  | false =>
      rw [value_runConfig_of_notSkipped hskip]
      cases (generator c disk).generate.value.1 with
      | error f => exact Or.inl ⟨⟨rfl, f, rfl⟩, rfl⟩
      | ok report =>
          cases Event.hasErrors (runConfig c disk).events <;> cases c.failOnError <;> simp

/-- An accepted configuration changes the disk by rendering only. -/
theorem Accepts.disk_run (h : Accepts o disk c) (hrendering : ¬ ComesToRendering c disk) :
    (run o disk).value.2 = disk := by
  rw [h.run_eq.1]
  cases hskip : c.skip with
  | true => rw [value_runConfig_skip hskip]
  | false =>
      rw [value_runConfig_of_notSkipped hskip]
      exact Generator.disk_generate fun p hp => hrendering ⟨hskip, p, hp⟩

/-- A run changes the disk by rendering only. -/
theorem disk_run (h : ¬ ∃ c, Accepts o disk c ∧ ComesToRendering c disk) :
    (run o disk).value.2 = disk := by
  rcases accepts_or_fails o disk with ⟨c, haccepts⟩ | ⟨-, hrun⟩
  · exact haccepts.disk_run fun hrendering => h ⟨c, haccepts, hrendering⟩
  · rw [hrun]

theorem exitCode_cases (o : CommandOptions) (disk : Disk) :
    (Fails o disk ∧ (run o disk).value.1 = exitFailure) ∨
      (¬ Fails o disk ∧ ReportsErrors o disk ∧ (run o disk).value.1 = exitAnalysisErrors) ∨
      (¬ Fails o disk ∧ ¬ ReportsErrors o disk ∧ (run o disk).value.1 = exitSuccess) := by
  rcases accepts_or_fails o disk with ⟨c, haccepts⟩ | ⟨hfails, hrun⟩
  · exact haccepts.exitCode
  · exact Or.inl ⟨hfails, by rw [hrun]⟩

/-! ## Runs with a logger -/

/-- Every path that does not lead to a log file reads as before, and no directory is created or
removed. -/
structure LeavesFiles (logs : List Text) (before after : Disk) : Prop where
  reads : ∀ path, (∀ log ∈ logs, ∀ place, before.LeadsTo log place → ¬ before.LeadsTo path place) →
    after.read? path = before.read? path
  directories : ∀ path, after.isDirectory path = before.isDirectory path

theorem leavesFiles_of_keepsBut {logs : List Text} {after : Disk} (h : disk.KeepsBut logs after) :
    LeavesFiles logs disk after :=
  ⟨fun _ hpath => h.read?_eq hpath, fun path => Disk.isDirectory_eq h path⟩

/-- Without rendering only files of the logger change, up to when it is flushed. -/
theorem keepsBut_runLogged (clock : Log.Clock) (logger : Log.Logger) {out : Log.Outlet}
    (h : ¬ ∃ c, Accepts o out.disk c ∧ ComesToRendering c out.disk) :
    out.disk.KeepsBut logger.files (runLogged clock o logger out).2.2.disk ∧
      out.disk.KeepsBut logger.files
        ((runLogged clock o logger out).2.1.flush (runLogged clock o logger out).2.2).2.disk := by
  have hlogged := logger.keepsBut_flush_logAll clock
    (Event.records (run o out.disk).events) { out with disk := (run o out.disk).value.2 }
  rw [disk_run h] at hlogged
  simpa only [runLogged, disk_run h] using hlogged

/-- An option that is not known, and a log file below the directory that a run writes to if it is
not told otherwise. -/
def refusedArgs : List Text := ["--log-file=docs/log.txt", "--bogus"]

/-- The disk that a process finds when its logger is set up. -/
def diskWithLog (args : List Text) (env : Text) (disk : Disk) : Disk :=
  (Log.Logger.fresh.init (.ofArgs args env) { disk := disk }).2.disk

/-- A process that does not come to rendering changes at most its log file. -/
theorem leavesFiles_process (clock : Log.Clock) (args : List Text) (env : Text) (disk : Disk)
    (h : ¬ ∃ c, Accepts (.ofArgs args) (diskWithLog args env disk) c ∧
      ComesToRendering c (diskWithLog args env disk)) :
    LeavesFiles [(Log.Options.ofArgs args env).logFile] disk
      (process clock args env disk).disk := by
  obtain ⟨hfiles, hinit⟩ := Log.Logger.init_fresh (.ofArgs args env) { disk := disk }
  refine leavesFiles_of_keepsBut (hinit.trans ?_)
  unfold process
  dsimp only
  split
  · exact .refl _ _
  · exact (keepsBut_runLogged clock _ h).2.mono hfiles

end Command

end CrossDoc
