import CrossDoc.Proofs.TypedPoints

/-!
# The work in a stage

What a run reports itself is told apart from what the code it calls reports.
The events of a stage fit it: they announce nothing, log no error of the run
and call extensions of that stage only, and a call without an answer makes the
stage fail.  A failure names the stage, as long as extensions leave the naming
of the stage to the run.  A point that some plugin mistypes is never called:
the stage that asks for it breaks off.  All eight stages work like that.
-/

namespace CrossDoc

/-- The stage in which a run calls the extensions of a point. -/
def Point.stage : Point → Stage
  | .symbolTranslator | .fileTranslator => .translate
  | .merger => .merge
  | .moduleTransformer => .transformModule
  | .pageCreator => .createPages
  | .pageTransformer => .transformPages
  | .renderer => .render

/-- The stage in which a run asks for the implementations of a point. -/
def Point.askedIn (p : Point) : Stage :=
  match p.cardinality with
  | .single => .plugins
  | .multi => p.stage

/-! ## What an event tells -/

namespace Event

/-- The stage that the run announces. -/
def announced? : Event → Option Text
  | .notice .progress text => some text
  | _ => none

/-- The error that the run itself logs. -/
def loggedError? : Event → Option Text
  | .relayed _ => none
  | e => (e.record?.filter fun r => Log.Level.error ≤ r.level).map (·.message)

def announcement (s : Stage) : Event := .notice .progress s.name

/-- The event is one of the work in a stage: it announces nothing, it is no
error of the run, and if it is a call, then that of an extension of the stage
whose point is not among the mistyped ones; a call without an answer makes the
stage fail. -/
def Fits (mistyped : Point → Prop) (s : Stage) (fails : Prop) : Event → Prop
  | .record r => ¬ .error ≤ r.level
  | .notice .progress _ | .notice .error _ => False
  | .call point answered =>
      (∃ p : Point, p.name = point ∧ p.stage = s ∧ ¬ mistyped p) ∧ (answered = false → fails)
  | .notice .debug _ | .notice .info _ | .notice .warn _ => True
  | .diagnostic _ | .snapshot _ | .relayed _ => True

variable {mistyped : Point → Prop} {s : Stage} {fails : Prop} {e : Event}

theorem Fits.announced?_eq (h : e.Fits mistyped s fails) : e.announced? = none := by
  cases e with
  | notice kind => cases kind <;> first | rfl | cases h
  | _ => rfl

theorem Fits.loggedError?_eq (h : e.Fits mistyped s fails) : e.loggedError? = none := by
  cases e with
  | record r => simpa [loggedError?, record?, Fits] using h
  | notice kind => cases kind <;> first | rfl | cases h
  | _ => rfl

theorem Fits.of_call {p : Point} {answered : Bool}
    (h : (Event.call p.name answered).Fits mistyped s fails) : p.stage = s ∧ ¬ mistyped p := by
  obtain ⟨⟨q, hname, hq⟩, -⟩ := h
  exact Point.name_inj hname ▸ hq

theorem Fits.mono {fails' : Prop} (h : e.Fits mistyped s fails) (hf : fails → fails') :
    e.Fits mistyped s fails' := by
  cases e with
  | call point answered => exact ⟨h.1, fun ha => hf (h.2 ha)⟩
  | notice kind => cases kind <;> exact h
  | _ => exact h

theorem fits_relay (e : Event) : e.relay.Fits mistyped s fails := by
  cases e <;> exact trivial

end Event

/-! ## Reports without calls -/

namespace Traced

variable {α β ε : Type}

/-- Whatever the stage, nothing is reported that does not fit it. -/
def IsQuiet (t : Traced α) : Prop :=
  ∀ e ∈ t.events, ∀ mistyped s fails, e.Fits mistyped s fails

theorem isQuiet_pure (a : α) : (pure a : Traced α).IsQuiet := by
  intro e he
  cases he

theorem isQuiet_log {level : Log.Level} {module message : Text} (h : level < .error) :
    (log level module message).IsQuiet := by
  intro e he mistyped s fails
  rw [List.mem_singleton.mp he]
  exact Nat.not_le.mpr h

theorem isQuiet_logDebug (module message : Text) : (log .debug module message).IsQuiet :=
  isQuiet_log (by decide)

theorem isQuiet_debug (message : Text) : (notice .debug message).IsQuiet := by
  intro e he mistyped s fails
  rw [List.mem_singleton.mp he]
  exact trivial

theorem isQuiet_relay (t : Traced α) : t.relay.IsQuiet := by
  intro e he mistyped s fails
  obtain ⟨e, -, rfl⟩ := List.mem_map.mp he
  exact e.fits_relay

theorem IsQuiet.bind {t : Traced α} {f : α → Traced β} (h : t.IsQuiet)
    (hf : (f t.value).IsQuiet) : (t >>= f).IsQuiet := by
  intro e he
  rw [events_bind] at he
  rcases List.mem_append.mp he with he | he
  · exact h e he
  · exact hf e he

theorem isQuiet_forM {xs : List α} {f : α → Traced Unit} (h : ∀ x ∈ xs, (f x).IsQuiet) :
    (xs.forM f).IsQuiet := by
  induction xs with
  | nil => exact isQuiet_pure ()
  | cons x rest ih =>
      exact (h x List.mem_cons_self).bind (ih fun y hy => h y (List.mem_cons_of_mem x hy))

theorem IsQuiet.run_lift {t : Traced α} (h : t.IsQuiet) :
    (liftM t : ExceptT ε Traced α).run.IsQuiet := by
  intro e he
  rw [events_run_lift] at he
  exact h e he

theorem IsQuiet.run_bind {x : ExceptT ε Traced α} {next : α → ExceptT ε Traced β}
    (h : x.run.IsQuiet) (hn : ∀ a, x.run.value = .ok a → (next a).run.IsQuiet) :
    (x >>= next).run.IsQuiet := by
  intro e he
  rw [events_run_bind] at he
  rcases List.mem_append.mp he with he | he
  · exact h e he
  · split at he
    · next a ha => exact hn a ha e he
    · cases he

theorem isQuiet_run_forM {xs : List α} {f : α → Traced Unit} (h : ∀ x, (f x).IsQuiet) :
    (xs.forM fun x => (liftM (f x) : ExceptT ε Traced Unit)).run.IsQuiet := by
  induction xs with
  | nil => exact isQuiet_pure _
  | cons x rest ih => exact (h x).run_lift.run_bind fun _ _ => ih

end Traced

namespace Registry

variable {α : Type}

theorem isQuiet_reportAll : ∀ texts : List Text, (reportAll texts).IsQuiet
  | [] => Traced.isQuiet_pure ()
  | t :: rest => (Traced.isQuiet_logDebug _ t).bind (isQuiet_reportAll rest)

theorem isQuiet_resolvePoints (rs : List (Registration α)) :
    ∀ points : List Text, (resolvePoints rs points).run.IsQuiet
  | [] => Traced.isQuiet_pure _
  | point :: rest => by
      rw [resolvePoints]
      refine (isQuiet_reportAll _).run_lift.run_bind fun _ _ => ?_
      split
      · exact Traced.isQuiet_pure _
      · exact (isQuiet_resolvePoints rs rest).run_bind fun _ _ => Traced.isQuiet_pure _

theorem isQuiet_build (rs : List (Registration α)) : (build rs).run.IsQuiet := by
  unfold build
  split
  · exact Traced.isQuiet_pure _
  · exact (isQuiet_resolvePoints rs _).run_bind fun _ _ => Traced.isQuiet_pure _

end Registry

namespace Plugin

theorem isQuiet_warnAll : ∀ texts : List Text, (warnAll texts).IsQuiet
  | [] => Traced.isQuiet_pure ()
  | t :: rest => (Traced.isQuiet_log (by decide)).bind (isQuiet_warnAll rest)

theorem isQuiet_order (ps : List Plugin) : (order ps).run.IsQuiet := by
  unfold order
  split
  · exact Traced.isQuiet_pure _
  · refine (isQuiet_warnAll _).run_lift.run_bind fun _ _ => ?_
    dsimp only
    split <;> exact Traced.isQuiet_pure _

theorem isQuiet_registrations (c : Config) :
    ∀ ps : List Plugin, (registrations c ps).run.IsQuiet
  | [] => Traced.isQuiet_pure _
  | p :: rest => by
      rw [registrations]
      refine (Traced.isQuiet_relay _).run_lift.run_bind fun _ _ => ?_
      split
      · exact Traced.isQuiet_pure _
      · refine (Traced.isQuiet_logDebug _ _).run_lift.run_bind fun _ _ => ?_
        exact (isQuiet_registrations c rest).run_bind fun _ _ => Traced.isQuiet_pure _

theorem isQuiet_freeze (rs : List (Registration Extension)) : (freeze rs).run.IsQuiet := by
  refine (Registry.isQuiet_build rs).run_lift.run_bind fun _ _ => ?_
  split <;> exact Traced.isQuiet_pure _

theorem isQuiet_installAll (ps : List Plugin) (c : Config) : (installAll ps c).run.IsQuiet :=
  (isQuiet_order ps).run_bind fun _ _ =>
    (isQuiet_registrations c _).run_bind fun rs _ => isQuiet_freeze rs

end Plugin

/-! ## Failures without a stage -/

/-- The failure names no stage. -/
def Fault.IsUnnamed : Fault → Prop
  | .failed f => f.stage = []
  | .thrown _ => True

/-- Whenever the implementation fails, it leaves the stage to the run or breaks off. -/
def Point.FailsUnnamed : (p : Point) → p.Interface → Prop
  | .symbolTranslator, run | .fileTranslator, run =>
      ∀ a c fault, (run a c).value = .error fault → fault.IsUnnamed
  | .merger, run => ∀ ms c fault, (run ms c).value = .error fault → fault.IsUnnamed
  | .moduleTransformer, run => ∀ m c fault, (run m c).value = .error fault → fault.IsUnnamed
  | .pageCreator, run => ∀ m c fault, (run m c).value = .error fault → fault.IsUnnamed
  | .pageTransformer, run => ∀ t c fault, (run t c).value = .error fault → fault.IsUnnamed
  | .renderer, run => ∀ t c disk fault, (run t c disk).value.1 = .error fault → fault.IsUnnamed

/-- One that no stage can call does not fail. -/
def Extension.FailsUnnamed : Extension → Prop
  | .of p run => p.FailsUnnamed run
  | .foreign _ _ => True

/-- All that the plugin proposes fails without a stage. -/
def Plugin.FailsUnnamed (p : Plugin) : Prop :=
  ∀ c proposals, (p.install c).value = .ok proposals → ∀ q ∈ proposals, q.impl.FailsUnnamed

/-- All that the registry holds fails without a stage. -/
def Registry.FailsUnnamed (r : Registry Extension) : Prop :=
  ∀ point, ∀ e ∈ r.entries point, e.impl.FailsUnnamed

/-- The failure is of the configuration or names the stage. -/
def Failure.Names (s : Stage) (f : Failure) : Prop := f.kind = .stage → f.stage = s.name

/-- The fault is one of the stage: a failure that names it, or that the stage asks for a point that
is mistyped. -/
def Fault.IsOf (mistyped : Point → Prop) (s : Stage) : Fault → Prop
  | .failed f => f.Names s
  | .thrown message => Fault.thrown message = badCast ∧ ∃ p : Point, p.askedIn = s ∧ mistyped p

theorem Fault.IsUnnamed.during {fault : Fault} (h : fault.IsUnnamed) (s : Stage) :
    (fault.during s.name).Names s := by
  cases fault with
  | thrown message => exact fun _ => rfl
  | failed f =>
      intro hk
      have hf : f.stage = [] := h
      by_cases hs : f.kind = .stage
      · simp only [Fault.during, hs, hf, and_self, if_true]
      · simp only [Fault.during, hs, false_and, if_false] at hk

theorem Fault.IsUnnamed.inJob {fault : Fault} (h : fault.IsUnnamed) (s : Stage) :
    (fault.inJob s.name).Names s := by
  cases fault with
  | thrown message => exact fun _ => rfl
  | failed f =>
      have hf : f.stage = [] := h
      intro hk
      simp only [Fault.inJob, hf, if_true]

/-! ### The built-in plugins -/

theorem DocModule.isUnnamed_applyIncludes {disk : Disk} {p : Platform} {fault : Fault} :
    ∀ {paths : List Text} {m : DocModule},
      (m.applyIncludes disk p paths).run.value = .error fault → fault.IsUnnamed
  | [], _, h => by cases h
  | path :: rest, m, h => by
      rw [applyIncludes] at h
      split at h
      · cases h
        rfl
      · rw [Traced.value_run_bind, Traced.value_run_lift] at h
        exact isUnnamed_applyIncludes h

theorem DocModule.isUnnamed_applyAllIncludes {disk : Disk} {fault : Fault} :
    ∀ {passes : List AnalyzedPass} {m : DocModule},
      (m.applyAllIncludes disk passes).run.value = .error fault → fault.IsUnnamed
  | [], _, h => by cases h
  | a :: rest, m, h => by
      rw [applyAllIncludes, Traced.value_run_bind] at h
      split at h
      · exact isUnnamed_applyAllIncludes h
      · next hincludes =>
        cases h
        exact isUnnamed_applyIncludes hincludes

theorem BaseTransform.isUnnamed_apply {t : BaseTransform} {m : DocModule} {c : RunContext}
    {fault : Fault} (h : (t.apply m c).value = .error fault) : fault.IsUnnamed := by
  cases t with
  | moduleDocumentation => exact DocModule.isUnnamed_applyAllIncludes h
  | _ => cases h

theorem Assembly.isUnnamed_ofGroups {a : AnalyzedPass} {c : RunContext} {fault : Fault}
    (h : (ofGroups a c).value = .error fault) : fault.IsUnnamed := by
  unfold ofGroups at h
  split at h
  · cases h
    rfl
  · cases h

theorem Assembly.isUnnamed_ofFiles {a : AnalyzedPass} {c : RunContext} {fault : Fault}
    (h : (ofFiles a c).value = .error fault) : fault.IsUnnamed := by
  unfold ofFiles at h
  split at h
  · cases h
    rfl
  · cases h

namespace Plugin

theorem isUnnamed_mergeModules {ms : List DocModule} {c : RunContext} {fault : Fault}
    (h : (mergeModules ms c).value = .error fault) : fault.IsUnnamed := by
  match ms with
  | [] =>
      cases h
      rfl
  | [m] => cases h
  | m :: m' :: rest => cases h

theorem isUnnamed_renderMarkdown {t : PageTree} {c : RunContext} {disk : Disk} {fault : Fault}
    (h : (renderMarkdown t c disk).value.1 = .error fault) : fault.IsUnnamed := by
  unfold renderMarkdown at h
  rw [Traced.value_bind] at h
  split at h
  · cases h
  · cases h
    rfl

theorem failsUnnamed_core : core.FailsUnnamed := by
  intro c proposals h
  cases h
  simp only [List.forall_mem_cons, List.not_mem_nil, false_implies, implies_true, and_true]
  refine ⟨?_, ?_, ?_, ?_⟩
  · exact fun a c fault => Assembly.isUnnamed_ofGroups
  · exact fun a c fault => Assembly.isUnnamed_ofFiles
  · exact fun ms c fault => isUnnamed_mergeModules
  · intro m c fault hf
    cases hf

theorem failsUnnamed_base : base.FailsUnnamed := by
  intro c proposals h
  cases h
  intro q hq
  rcases List.mem_append.mp hq with hq | hq
  · obtain ⟨t, -, rfl⟩ := List.mem_map.mp hq
    exact fun m c fault => BaseTransform.isUnnamed_apply
  · obtain ⟨t, -, rfl⟩ := List.mem_map.mp hq
    intro tree c fault hf
    cases hf

theorem failsUnnamed_markdown : markdown.FailsUnnamed := by
  intro c proposals h q hq
  unfold markdown at h
  dsimp only at h
  split at h
  · cases h
    obtain rfl := List.mem_singleton.mp hq
    exact fun t c disk fault => isUnnamed_renderMarkdown
  · cases h
    cases hq

theorem failsUnnamed_builtin : ∀ p ∈ builtin, p.FailsUnnamed := by
  simp only [builtin, List.forall_mem_cons, List.not_mem_nil, false_implies, implies_true, and_true]
  exact ⟨failsUnnamed_core, failsUnnamed_base, failsUnnamed_markdown⟩

theorem failsUnnamed_installAll {ps : List Plugin} {c : Config} {r : Registry Extension}
    (hps : ∀ p ∈ ps, p.FailsUnnamed) (h : (installAll ps c).run.value = .ok r) :
    r.FailsUnnamed := by
  intro point e he
  obtain ⟨p, hp, proposals, hproposals, q, hq, -, rfl⟩ := exists_proposal_of_mem_entries h he
  exact hps p hp c proposals hproposals q hq

end Plugin

/-! ## Work in a stage -/

namespace Generator

variable {α β γ : Type} {mistyped : Point → Prop} {s : Stage}

theorem exists_error {ε : Type} {x : Except ε α} (h : x.isOk = false) : ∃ e, x = .error e := by
  cases x with
  | ok a => cases h
  | error e => exact ⟨e, rfl⟩

theorem not_exists_error {ε : Type} {x : Except ε α} {a : α} (h : x = .ok a) :
    ¬ ∃ e, x = .error e := by
  rintro ⟨e, he⟩
  rw [h] at he
  cases he

/-- The events fit the stage, and a fault is one of the stage. -/
structure WorksIn (mistyped : Point → Prop) (s : Stage) (t : Traced (Except Fault α)) : Prop where
  fits : ∀ e ∈ t.events, e.Fits mistyped s (∃ f, t.value = .error (.failed f))
  isOf : ∀ fault, t.value = .error fault → fault.IsOf mistyped s

theorem WorksIn.fits_error {t : Traced (Except Fault α)} {fault : Fault}
    (h : WorksIn mistyped s t) (ht : t.value = .error fault) :
    ∀ e ∈ t.events, e.Fits mistyped s (∃ f, fault = .failed f) := by
  refine fun e he => (h.fits e he).mono ?_
  rintro ⟨f, hf⟩
  exact ⟨f, Except.error.inj (ht.symm.trans hf)⟩

theorem WorksIn.fits_ok {t : Traced (Except Fault α)} {a : α}
    (h : WorksIn mistyped s t) (ht : t.value = .ok a) :
    ∀ e ∈ t.events, e.Fits mistyped s False := by
  refine fun e he => (h.fits e he).mono ?_
  rintro ⟨f, hf⟩
  rw [ht] at hf
  cases hf

theorem worksIn_pure (a : α) : WorksIn mistyped s (pure a : StageM α).run where
  fits e he := by cases he
  isOf fault h := by cases h

theorem worksIn_throw {fault : Fault} (h : fault.IsOf mistyped s) :
    WorksIn mistyped s (throw fault : StageM α).run where
  fits e he := by cases he
  isOf fault' h' := by
    cases h'
    exact h

theorem WorksIn.bind {x : StageM α} {next : α → StageM β} (h : WorksIn mistyped s x.run)
    (hn : ∀ a, x.run.value = .ok a → WorksIn mistyped s (next a).run) :
    WorksIn mistyped s (x >>= next).run := by
  cases hx : x.run.value with
  | error fault =>
      have hvalue : (x >>= next).run.value = .error fault := by rw [Traced.value_run_bind, hx]
      constructor
      · intro e he
        rw [Traced.events_run_bind, hx, List.append_nil] at he
        refine (h.fits_error hx e he).mono ?_
        rintro ⟨f, rfl⟩
        exact ⟨f, hvalue⟩
      · intro fault' hfault'
        obtain rfl := Except.error.inj (hvalue.symm.trans hfault')
        exact h.isOf fault hx
  | ok a =>
      have hvalue : (x >>= next).run.value = (next a).run.value := by rw [Traced.value_run_bind, hx]
      constructor
      · intro e he
        rw [Traced.events_run_bind, hx] at he
        rcases List.mem_append.mp he with he | he
        · exact (h.fits_ok hx e he).mono False.elim
        · exact ((hn a hx).fits e he).mono fun hf => hvalue ▸ hf
      · rw [hvalue]
        exact (hn a hx).isOf

/-- Before a stage goes on it may report, where a call that fails ends it. -/
theorem WorksIn.lift_bind {t : Traced α} {next : α → StageM β}
    (h : WorksIn mistyped s (next t.value).run)
    (ht : ∀ e ∈ t.events, e.Fits mistyped s (∃ f, (next t.value).run.value = .error (.failed f))) :
    WorksIn mistyped s ((liftM t : StageM α) >>= next).run := by
  constructor
  · intro e he
    rw [Traced.events_run_bind, Traced.events_run_lift] at he
    rcases List.mem_append.mp he with he | he
    · exact ht e he
    · exact h.fits e he
  · exact h.isOf

theorem WorksIn.quiet_bind {t : Traced α} {next : α → StageM β} (ht : t.IsQuiet)
    (h : WorksIn mistyped s (next t.value).run) :
    WorksIn mistyped s ((liftM t : StageM α) >>= next).run :=
  h.lift_bind fun e he => ht e he mistyped s _

theorem fits_bind {t : Traced α} {f : α → Traced β} {fails : Prop}
    (ht : ∀ e ∈ t.events, e.Fits mistyped s fails)
    (hf : ∀ e ∈ (f t.value).events, e.Fits mistyped s fails) :
    ∀ e ∈ (t >>= f).events, e.Fits mistyped s fails := by
  rw [Traced.events_bind]
  exact List.forall_mem_append.mpr ⟨ht, hf⟩

theorem fits_quiet_bind {t : Traced α} {f : α → Traced β} {fails : Prop} (ht : t.IsQuiet)
    (hf : ∀ e ∈ (f t.value).events, e.Fits mistyped s fails) :
    ∀ e ∈ (t >>= f).events, e.Fits mistyped s fails :=
  fits_bind (fun e he => ht e he mistyped s fails) hf

theorem fits_call {p : Point} (hp : p.stage = s) (hm : ¬ mistyped p) {answers : α → Bool}
    {t : Traced α} {fails : Prop} (hf : answers t.value = false → fails) :
    ∀ e ∈ (p.call answers t).events, e.Fits mistyped s fails := by
  intro e he
  rcases List.mem_cons.mp he with rfl | he
  · exact ⟨⟨p, rfl, hp, hm⟩, hf⟩
  · exact t.isQuiet_relay e he mistyped s fails

theorem worksIn_call (p : Point) (hp : p.stage = s) (hm : ¬ mistyped p)
    {answer : Traced (Except Fault α)}
    (h : ∀ fault, answer.value = .error fault → fault.IsUnnamed) :
    WorksIn mistyped s (call s p answer).run := by
  unfold call
  have hvalue : (p.call Except.isOk answer).value = answer.value := rfl
  refine WorksIn.lift_bind ?_ (fits_call hp hm ?_)
  · rw [hvalue]
    split
    · exact worksIn_pure _
    · next fault hfault => exact worksIn_throw ((h fault hfault).during s)
  · intro ha
    obtain ⟨fault, hfault⟩ := exists_error ha
    rw [hvalue, hfault]
    exact ⟨_, rfl⟩

/-! ### The stages -/

theorem isQuiet_setupReport (p : Pass) : (setupReport p).IsQuiet := by
  refine (Traced.isQuiet_logDebug _ _).bind ?_
  refine (Traced.isQuiet_forM fun _ _ => Traced.isQuiet_debug _).bind ?_
  exact Traced.isQuiet_forM fun _ _ => Traced.isQuiet_debug _

theorem worksIn_analyzePass (analyzer : Analyzer) (position : Nat) (p : Pass) :
    WorksIn mistyped .setup (analyzePass analyzer position p).run := by
  refine .quiet_bind (isQuiet_setupReport p) (.quiet_bind (Traced.isQuiet_relay _) ?_)
  split
  · exact worksIn_pure _
  · exact worksIn_throw fun _ => rfl
  · exact worksIn_throw fun _ => rfl

theorem worksIn_analyzeFrom (analyzer : Analyzer) : ∀ (position : Nat) (ps : List Pass),
    WorksIn mistyped .setup (analyzeFrom analyzer position ps).run
  | _, [] => worksIn_pure _
  | position, p :: rest =>
      (worksIn_analyzePass analyzer position p).bind fun _ _ =>
        (worksIn_analyzeFrom analyzer (position + 1) rest).bind fun _ _ => worksIn_pure _

theorem worksIn_setup (g : Generator) : WorksIn mistyped .setup g.setup.run := by
  unfold setup
  split
  · exact .quiet_bind (Traced.isQuiet_debug _) (worksIn_analyzeFrom _ _ _)
  · exact worksIn_analyzeFrom _ _ _

theorem isQuiet_installPlugins (g : Generator) : g.installPlugins.run.IsQuiet := by
  unfold installPlugins
  refine (Plugin.isQuiet_installAll _ _).run_lift.run_bind fun _ _ => ?_
  split
  · exact Traced.isQuiet_pure _
  · refine (Traced.isQuiet_run_forM fun _ => Traced.isQuiet_logDebug _ _).run_bind fun _ _ => ?_
    split <;> exact Traced.isQuiet_pure _

theorem worksIn_installPlugins (g : Generator) :
    WorksIn g.Mistypes .plugins g.installPlugins.run := by
  refine ⟨fun e he => g.isQuiet_installPlugins e he _ _ _, fun fault hfault => ?_⟩
  rcases g.installPlugins_cases with ⟨r, hvalue, -⟩ |
    ⟨⟨r, hinstalled, p, hp, e, he, htype⟩, hvalue⟩ | ⟨-, f, hkind, hvalue⟩
  · rw [hvalue] at hfault
    cases hfault
  · obtain rfl := Except.error.inj (hvalue.symm.trans hfault)
    refine ⟨rfl, p, ?_, r, hinstalled, e, he ▸ List.mem_singleton_self e, htype⟩
    rw [Point.askedIn, Point.cardinality_of_mem_singles hp]
  · obtain rfl := Except.error.inj (hvalue.symm.trans hfault)
    intro hstage
    rw [hkind] at hstage
    cases hstage

variable {g : Generator} {r : Registry Extension} {c : RunContext}

theorem failsUnnamed_of_mem {p : Point} {run : p.Interface} {e : RegistryEntry Extension}
    (hr : r.FailsUnnamed) (he : e ∈ r.entries p.name) (himpl : e.impl = .of p run) :
    p.FailsUnnamed run := by
  have hunnamed := hr p.name e he
  rwa [himpl] at hunnamed

/-- A checked registry has the implementation of a single point, which fails without a stage. -/
theorem IsReady.exists_unnamed (h : g.IsReady r) (hr : r.FailsUnnamed) {p : Point}
    (hp : p ∈ Point.singles) : ∃ run, (single r p).run = pure (.ok run) ∧ p.FailsUnnamed run := by
  obtain ⟨run, hrun, e, he, himpl⟩ := h.exists_single hp
  exact ⟨run, hrun, failsUnnamed_of_mem hr he himpl⟩

/-- A chain breaks off when it is mistyped, and else its implementations fail without a stage. -/
theorem IsReady.chain_cases (h : g.IsReady r) (hr : r.FailsUnnamed) (p : Point) :
    (g.Mistypes p ∧ (chain r p).run = pure (.error badCast)) ∨
      (¬ g.Mistypes p ∧ ∃ ts, (chain r p).run = pure (.ok ts) ∧
        ∀ t ∈ ts, p.FailsUnnamed t.2) := by
  rw [h.mistypes_iff]
  by_cases hm : r.Mistypes p
  · exact Or.inl ⟨hm, chain_of_mistypes hm⟩
  · obtain ⟨ts, hts, hmap⟩ := exists_chain h.installed hm
    refine Or.inr ⟨hm, ts, hts, fun t ht => ?_⟩
    have hmem := List.mem_map_of_mem (f := fun t : Text × p.Interface =>
      (t.1, Extension.of p t.2)) ht
    rw [hmap] at hmem
    obtain ⟨e, he, heq⟩ := List.mem_map.mp hmem
    exact failsUnnamed_of_mem hr he (Prod.mk.inj heq).2

/-- A translation answers with the modules of both translators. -/
theorem value_translatePass (a : AnalyzedPass)
    (symbols files : AnalyzedPass → RunContext → Traced (Except Fault DocModule)) :
    (translatePass c a symbols files).value =
      (do return (← (symbols a c).value, ← (files a c).value)) := by
  simp only [translatePass, Traced.value_bind, Point.value_call]
  cases (symbols a c).value with
  | error fault => rfl
  | ok m =>
      simp only [Traced.value_bind, Point.value_call]
      cases (files a c).value <;> rfl

/-- A translation breaks off after the first of its calls that fails. -/
theorem fits_translatePass (a : AnalyzedPass)
    (symbols files : AnalyzedPass → RunContext → Traced (Except Fault DocModule))
    (hsymbols : ¬ mistyped .symbolTranslator) (hfiles : ¬ mistyped .fileTranslator) :
    ∀ e ∈ (translatePass c a symbols files).events,
      e.Fits mistyped .translate
        (∃ fault, (translatePass c a symbols files).value = .error fault) := by
  rw [value_translatePass]
  unfold translatePass
  refine fits_quiet_bind (Traced.isQuiet_logDebug _ _) (fits_bind (fits_call rfl hsymbols ?_) ?_)
  · intro ha
    obtain ⟨fault, hfault⟩ := exists_error ha
    rw [hfault]
    exact ⟨fault, rfl⟩
  · rw [Point.value_call]
    cases (symbols a c).value with
    | error fault => exact fun e he => by cases he
    | ok m =>
        refine fits_bind (fits_call rfl hfiles ?_) ?_
        · intro ha
          obtain ⟨fault, hfault⟩ := exists_error ha
          rw [hfault]
          exact ⟨fault, rfl⟩
        · split <;> exact fun e he => by cases he

theorem isUnnamed_translatePass {a : AnalyzedPass}
    {symbols files : AnalyzedPass → RunContext → Traced (Except Fault DocModule)} {fault : Fault}
    (hs : ∀ fault, (symbols a c).value = .error fault → fault.IsUnnamed)
    (hf : ∀ fault, (files a c).value = .error fault → fault.IsUnnamed)
    (h : (translatePass c a symbols files).value = .error fault) : fault.IsUnnamed := by
  simp only [translatePass, Traced.value_bind, Point.value_call] at h
  split at h
  · next hvalue =>
    cases h
    exact hs _ hvalue
  · simp only [Traced.value_bind, Point.value_call] at h
    split at h
    · next hvalue =>
      cases h
      exact hf _ hvalue
    · cases h

/-- Jobs that fit a stage do so one after the other, up to one that fails. -/
theorem fits_runFrom {jobs : List (Traced (Except Fault α))} (stage : Text)
    (h : ∀ job ∈ jobs, ∀ e ∈ job.events, e.Fits mistyped s (∃ fault, job.value = .error fault)) :
    ∀ index, ∀ e ∈ (Pool.runFrom stage index jobs).events,
      e.Fits mistyped s ((Pool.runFrom stage index jobs).value.2 ≠ none) := by
  induction jobs with
  | nil => exact fun _ e he => by cases he
  | cons job rest ih =>
      intro index
      have hjob := h job List.mem_cons_self
      unfold Pool.runFrom
      rw [Traced.value_bind]
      cases hv : job.value with
      | error fault =>
          refine fits_bind (fun e he => (hjob e he).mono fun _ => Option.some_ne_none _) ?_
          rw [hv]
          exact fits_quiet_bind (Traced.isQuiet_logDebug _ _) fun e he => by cases he
      | ok a =>
          refine fits_bind (fun e he => (hjob e he).mono fun hf =>
            absurd hf (not_exists_error hv)) ?_
          rw [hv]
          refine fits_bind ?_ fun e he => by cases he
          exact ih (fun j hj => h j (List.mem_cons_of_mem job hj)) (index + 1)

/-- The failure of a run of jobs is that of one of them. -/
theorem exists_job_of_runFrom {stage : Text} {f : Failure} :
    ∀ {jobs : List (Traced (Except Fault α))} {index : Nat},
      (Pool.runFrom stage index jobs).value.2 = some f →
        ∃ job ∈ jobs, ∃ fault, job.value = .error fault ∧ f = fault.inJob stage
  | [], _, h => by cases h
  | job :: rest, index, h => by
      unfold Pool.runFrom at h
      rw [Traced.value_bind] at h
      split at h
      · obtain ⟨j, hj, hfault⟩ := exists_job_of_runFrom (Option.some.inj (congrArg some h))
        exact ⟨j, List.mem_cons_of_mem job hj, hfault⟩
      · next fault hfault =>
        cases h
        exact ⟨job, List.mem_cons_self, fault, hfault, rfl⟩

theorem answer_poolRun (limit : Nat) (stage : Text) (jobs : List (Traced (Except Fault α))) :
    (Pool.run limit stage jobs).value.answer =
      match (Pool.runFrom stage 0 jobs).value.2 with
      | none => .ok (Pool.runFrom stage 0 jobs).value.1
      | some failure => .error failure := by
  simp only [Pool.run, Traced.value_bind]
  split <;> next hv => rw [hv]; rfl

theorem fits_poolRun {limit : Nat} {stage : Text} {jobs : List (Traced (Except Fault α))}
    (h : ∀ job ∈ jobs, ∀ e ∈ job.events, e.Fits mistyped s (∃ fault, job.value = .error fault)) :
    ∀ e ∈ (Pool.run limit stage jobs).events,
      e.Fits mistyped s (∃ f, (Pool.run limit stage jobs).value.answer = .error f) := by
  rw [answer_poolRun]
  unfold Pool.run
  refine fits_quiet_bind (Traced.isQuiet_logDebug _ _) (fits_bind ?_ ?_)
  · intro e he
    refine (fits_runFrom stage h 0 e he).mono fun hf => ?_
    obtain ⟨f, hf⟩ := Option.ne_none_iff_exists'.mp hf
    exact ⟨f, by rw [hf]⟩
  · split <;> exact fun e he => by cases he

theorem worksIn_translate (h : g.IsReady r) (hr : r.FailsUnnamed) :
    WorksIn g.Mistypes .translate (translate r c).run := by
  obtain ⟨symbols, hsymbols, hs⟩ := h.exists_unnamed hr (p := .symbolTranslator) (by decide)
  obtain ⟨files, hfiles, hf⟩ := h.exists_unnamed hr (p := .fileTranslator) (by decide)
  unfold translate
  rw [Traced.run_bind_of_pure hsymbols, Traced.run_bind_of_pure hfiles]
  refine WorksIn.lift_bind ?_ ?_
  · rw [answer_poolRun]
    cases hfailure : (Pool.runFrom Stage.translate.name 0
        (c.passes.map fun a => translatePass c a symbols files)).value.2 with
    | none => exact worksIn_pure _
    | some failure =>
        refine worksIn_throw ?_
        obtain ⟨job, hjob, fault, hfault, rfl⟩ := exists_job_of_runFrom hfailure
        obtain ⟨a, -, rfl⟩ := List.mem_map.mp hjob
        exact (isUnnamed_translatePass (hs a c) (hf a c) hfault).inJob .translate
  · intro e he
    refine (fits_poolRun ?_ e he).mono ?_
    · intro job hjob
      obtain ⟨a, -, rfl⟩ := List.mem_map.mp hjob
      exact fits_translatePass a symbols files (h.not_mistypes (by decide))
        (h.not_mistypes (by decide))
    · rintro ⟨f, hanswer⟩
      refine ⟨f, ?_⟩
      rw [hanswer]
      rfl

theorem worksIn_merge (h : g.IsReady r) (hr : r.FailsUnnamed) (ms : List DocModule) :
    WorksIn g.Mistypes .merge (merge r c ms).run := by
  obtain ⟨run, hrun, hunnamed⟩ := h.exists_unnamed hr (p := .merger) (by decide)
  unfold merge
  rw [Traced.run_bind_of_pure hrun]
  exact worksIn_call .merger rfl (h.not_mistypes (by decide)) (hunnamed ms c)

theorem worksIn_createPages (h : g.IsReady r) (hr : r.FailsUnnamed) (m : DocModule) :
    WorksIn g.Mistypes .createPages (createPages r c m).run := by
  obtain ⟨run, hrun, hunnamed⟩ := h.exists_unnamed hr (p := .pageCreator) (by decide)
  unfold createPages
  rw [Traced.run_bind_of_pure hrun]
  exact worksIn_call .pageCreator rfl (h.not_mistypes (by decide)) (hunnamed m c)

/-- A chain works in its stage, transform by transform. -/
theorem worksIn_applyChain (point : Point) (hpoint : point.stage = s) (hm : ¬ mistyped point)
    (module : Text) :
    ∀ {transforms : List (Text × (α → RunContext → Traced (Except Fault α)))},
      (∀ t ∈ transforms, ∀ a fault, (t.2 a c).value = .error fault → fault.IsUnnamed) →
        ∀ a, WorksIn mistyped s (applyChain s point module c transforms a).run
  | [], _, a => worksIn_pure a
  | t :: rest, h, a => by
      refine .quiet_bind (Traced.isQuiet_logDebug _ _) ?_
      refine (worksIn_call point hpoint hm (h t List.mem_cons_self a)).bind fun next _ => ?_
      exact worksIn_applyChain point hpoint hm module
        (fun u hu => h u (List.mem_cons_of_mem t hu)) next

theorem worksIn_transformModule (h : g.IsReady r) (hr : r.FailsUnnamed) (m : DocModule) :
    WorksIn g.Mistypes .transformModule (transformModule r c m).run := by
  unfold transformModule
  rcases h.chain_cases hr .moduleTransformer with ⟨hm, hchain⟩ | ⟨hm, ts, hchain, hunnamed⟩
  · rw [Traced.run_bind_of_pure_error hchain]
    exact worksIn_throw ⟨rfl, .moduleTransformer, rfl, hm⟩
  · rw [Traced.run_bind_of_pure hchain]
    exact worksIn_applyChain .moduleTransformer rfl hm _ (fun t ht m => hunnamed t ht m c) m

theorem worksIn_transformPages (h : g.IsReady r) (hr : r.FailsUnnamed) (t : PageTree) :
    WorksIn g.Mistypes .transformPages (transformPages r c t).run := by
  unfold transformPages
  rcases h.chain_cases hr .pageTransformer with ⟨hm, hchain⟩ | ⟨hm, ts, hchain, hunnamed⟩
  · rw [Traced.run_bind_of_pure_error hchain]
    exact worksIn_throw ⟨rfl, .pageTransformer, rfl, hm⟩
  · rw [Traced.run_bind_of_pure hchain]
    exact worksIn_applyChain .pageTransformer rfl hm _ (fun t ht tree => hunnamed t ht tree c) t

/-- A computation without the second part of its value. -/
def first (t : Traced (α × β)) : Traced α := ⟨t.value.1, t.events⟩

theorem worksIn_render (h : g.IsReady r) (hr : r.FailsUnnamed) (t : PageTree) :
    WorksIn g.Mistypes .render (first (render r c t)) := by
  obtain ⟨run, hrun, hunnamed⟩ := h.exists_unnamed hr (p := .renderer) (by decide)
  have hcall : ∀ e ∈ (Point.renderer.call (·.1.isOk) (run t c c.disk)).events, e.Fits g.Mistypes
      .render (∃ fault, (run t c c.disk).value.1 = .error fault) :=
    fits_call rfl (h.not_mistypes (by decide)) exists_error
  unfold first render
  rw [hrun, Traced.events_bind, Traced.value_bind, Traced.events_pure, List.nil_append]
  dsimp only [pure]
  rw [Traced.events_bind, Traced.value_bind, Point.value_call]
  split
  · next disk hvalue =>
    have hok : (run t c c.disk).value.1 = .ok () := by rw [hvalue]
    refine ⟨List.forall_mem_append.mpr ⟨fun e he =>
      (hcall e he).mono fun hf => absurd hf (not_exists_error hok), ?_⟩, ?_⟩
    · exact fun e he => by cases he
    · intro fault hf
      cases hf
  · next fault disk hvalue =>
    have hfault : (run t c c.disk).value.1 = .error fault := by rw [hvalue]
    refine ⟨List.forall_mem_append.mpr ⟨fun e he => (hcall e he).mono fun _ => ⟨_, rfl⟩, ?_⟩, ?_⟩
    · exact fun e he => by cases he
    · intro fault' hf
      cases hf
      exact (hunnamed t c c.disk fault hfault).during .render

end Generator

end CrossDoc
