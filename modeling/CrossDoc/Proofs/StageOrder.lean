import CrossDoc.Proofs.StageWork

/-!
# How a run goes through its stages

A run announces a stage, works in it, and either goes on to the next one or
fails.  `Works` states this of a list of events.  From it follows in which
order a run announces its stages and calls extensions, what it calls after a
failure, and which failure it ends with and logs.  The only way out besides is
a point that some plugin mistypes: the run breaks off where it asks for it.
-/

namespace CrossDoc

namespace Generator

variable {α β : Type} {mistyped : Point → Prop} {s : Stage}

/-! ## Going through stages -/

/-- How a result fails or breaks off. -/
def fault? : Except Fault α → Option Fault
  | .ok _ => none
  | .error fault => some fault

theorem eq_error_of_fault? {x : Except Fault α} {fault : Fault} (h : fault? x = some fault) :
    x = .error fault := by
  cases x with
  | ok a => cases h
  | error fault' => rw [Option.some.inj h]

/-- The events of the work in a stage and in those that follow it, and the fault, if there is one,
with which the work ends. -/
inductive Works (mistyped : Point → Prop) :
    Stage → List Stage → List Event → Option Fault → Prop where
  | ends {s : Stage} {es : List Event} (fits : ∀ e ∈ es, e.Fits mistyped s False) :
      Works mistyped s [] es none
  | fails {s : Stage} {rest : List Stage} {es : List Event} {fault : Fault}
      (fits : ∀ e ∈ es, e.Fits mistyped s (∃ f, fault = .failed f))
      (isOf : fault.IsOf mistyped s) : Works mistyped s rest es (some fault)
  | enters {s next : Stage} {rest : List Stage} {es more : List Event} {fault : Option Fault}
      (fits : ∀ e ∈ es, e.Fits mistyped s False) (further : Works mistyped next rest more fault) :
      Works mistyped s (next :: rest) (es ++ .announcement next :: more) fault

/-- The computation goes on in a stage and then through those that follow it. -/
def GoesThrough (mistyped : Point → Prop) (s : Stage) (rest : List Stage)
    (t : Traced (Except Fault α)) : Prop :=
  Works mistyped s rest t.events (fault? t.value)

variable {rest : List Stage}

theorem Works.prepend {es fs : List Event} {fault : Option Fault}
    (h : Works mistyped s rest fs fault) (hes : ∀ e ∈ es, e.Fits mistyped s False) :
    Works mistyped s rest (es ++ fs) fault := by
  cases h with
  | ends fits => exact .ends (List.forall_mem_append.mpr ⟨hes, fits⟩)
  | fails fits isOf =>
      exact .fails (List.forall_mem_append.mpr
        ⟨fun e he => (hes e he).mono False.elim, fits⟩) isOf
  | enters fits further =>
      rw [← List.append_assoc]
      exact .enters (List.forall_mem_append.mpr ⟨hes, fits⟩) further

theorem goesThrough_pure (a : α) : GoesThrough mistyped s [] (pure a : StageM α).run :=
  .ends fun e he => by cases he

theorem goesThrough_throw {fault : Fault} (h : fault.IsOf mistyped s) :
    GoesThrough mistyped s rest (throw fault : StageM α).run :=
  .fails (fun e he => by cases he) h

theorem goesThrough_bind {x : StageM α} {next : α → StageM β} (h : WorksIn mistyped s x.run)
    (hn : ∀ a, x.run.value = .ok a → GoesThrough mistyped s rest (next a).run) :
    GoesThrough mistyped s rest (x >>= next).run := by
  unfold GoesThrough
  cases hx : x.run.value with
  | error fault =>
      rw [Traced.events_run_bind, Traced.value_run_bind, hx, List.append_nil]
      exact .fails (h.fits_error hx) (h.isOf fault hx)
  | ok a =>
      rw [Traced.events_run_bind, Traced.value_run_bind, hx]
      exact (hn a hx).prepend (h.fits_ok hx)

theorem goesThrough_enter {next : Stage} {further : Unit → StageM α}
    (h : GoesThrough mistyped next rest (further ()).run) :
    GoesThrough mistyped s (next :: rest) (enter next >>= further).run :=
  Works.enters (fun _ he => absurd he List.not_mem_nil) h

theorem goesThrough_prepare (g : Generator) (hg : ∀ p ∈ g.plugins, p.FailsUnnamed) :
    ∃ es, g.prepare.run.events = .announcement .setup :: es ∧
      Works g.Mistypes .setup
        [.plugins, .translate, .merge, .transformModule, .createPages, .transformPages]
        es (fault? g.prepare.run.value) := by
  refine ⟨_, rfl, ?_⟩
  refine goesThrough_bind g.worksIn_setup fun passes _ => goesThrough_enter ?_
  refine goesThrough_bind g.worksIn_installPlugins fun r hinstalled => ?_
  have h := isReady_of_installPlugins hinstalled
  have hr := Plugin.failsUnnamed_installAll hg h.installed
  dsimp only
  split
  · exact goesThrough_throw fun hk => by cases hk
  · refine goesThrough_enter (goesThrough_bind (worksIn_translate h hr) fun ms _ => ?_)
    refine goesThrough_enter (goesThrough_bind (worksIn_merge h hr ms) fun merged _ => ?_)
    refine goesThrough_enter
      (goesThrough_bind (worksIn_transformModule h hr merged) fun m _ => ?_)
    refine goesThrough_enter (goesThrough_bind (worksIn_createPages h hr m) fun created _ => ?_)
    refine goesThrough_enter
      (goesThrough_bind (worksIn_transformPages h hr created) fun t _ => ?_)
    exact goesThrough_pure _

theorem WorksIn.works {t : Traced (Except Fault α)} (h : WorksIn mistyped s t) :
    Works mistyped s [] t.events (fault? t.value) := by
  cases ht : t.value with
  | error fault => exact .fails (h.fits_error ht) (h.isOf fault ht)
  | ok a => exact .ends (h.fits_ok ht)

/-- Work that fails leaves out all stages that would follow. -/
theorem Works.fails_append {es : List Event} {fault : Option Fault}
    (h : Works mistyped s rest es fault) (hf : fault ≠ none) (more : List Stage) :
    Works mistyped s (rest ++ more) es fault := by
  induction h with
  | ends => exact absurd rfl hf
  | fails fits isOf => exact .fails fits isOf
  | enters fits _ ih => exact .enters fits (ih hf)

/-- Work that is done can go on with a further stage. -/
theorem Works.andThen {es fs : List Event} {next : Stage} {more : List Stage}
    {fault result : Option Fault} (h : Works mistyped s rest es fault) (hf : fault = none)
    (hn : Works mistyped next more fs result) :
    Works mistyped s (rest ++ next :: more) (es ++ .announcement next :: fs) result := by
  induction h with
  | ends fits => exact .enters fits hn
  | fails => cases hf
  | enters fits _ ih =>
      rw [List.append_assoc]
      exact .enters fits (ih hf)

/-- The stages after the first one. -/
def laterStages : List Stage :=
  [.plugins, .translate, .merge, .transformModule, .createPages, .transformPages, .render]

/-- What is ready for rendering has come through all stages before. -/
theorem stages_of_prepare {g : Generator} {p : Prepared} (h : g.prepare.run.value = .ok p) :
    ∃ passes ms merged m created, g.setup.run.value = .ok passes ∧
      g.installPlugins.run.value = .ok p.registry ∧ g.config.passes ≠ [] ∧
      p.context = ⟨g.config, passes, g.disk⟩ ∧
      (translate p.registry p.context).run.value = .ok ms ∧
      (merge p.registry p.context ms).run.value = .ok merged ∧
      (transformModule p.registry p.context merged).run.value = .ok m ∧
      (createPages p.registry p.context m).run.value = .ok created ∧
      (transformPages p.registry p.context created).run.value = .ok p.tree := by
  obtain ⟨-, -, h⟩ := Traced.exists_of_value_run_bind h
  obtain ⟨passes, hsetup, h⟩ := Traced.exists_of_value_run_bind h
  obtain ⟨-, -, h⟩ := Traced.exists_of_value_run_bind h
  obtain ⟨r, hr, h⟩ := Traced.exists_of_value_run_bind h
  dsimp only at h
  split at h
  · cases h
  · next hpasses =>
    obtain ⟨-, -, h⟩ := Traced.exists_of_value_run_bind h
    obtain ⟨ms, htranslate, h⟩ := Traced.exists_of_value_run_bind h
    obtain ⟨-, -, h⟩ := Traced.exists_of_value_run_bind h
    obtain ⟨merged, hmerge, h⟩ := Traced.exists_of_value_run_bind h
    obtain ⟨-, -, h⟩ := Traced.exists_of_value_run_bind h
    obtain ⟨m, htransform, h⟩ := Traced.exists_of_value_run_bind h
    obtain ⟨-, -, h⟩ := Traced.exists_of_value_run_bind h
    obtain ⟨created, hcreate, h⟩ := Traced.exists_of_value_run_bind h
    obtain ⟨-, -, h⟩ := Traced.exists_of_value_run_bind h
    obtain ⟨t, hpages, h⟩ := Traced.exists_of_value_run_bind h
    cases h
    exact ⟨passes, ms, merged, m, created, hsetup, hr, fun hnil => hpasses (hnil ▸ rfl), rfl,
      htranslate, hmerge, htransform, hcreate, hpages⟩

/-- What is ready for rendering has the registry of the run. -/
theorem registry_of_prepare {g : Generator} {p : Prepared} (h : g.prepare.run.value = .ok p) :
    g.installPlugins.run.value = .ok p.registry := by
  obtain ⟨-, -, -, -, -, -, hr, -⟩ := stages_of_prepare h
  exact hr

theorem goesThrough_runStages (g : Generator) (hg : ∀ p ∈ g.plugins, p.FailsUnnamed) :
    ∃ es, g.runStages.events = .announcement .setup :: es ∧
      Works g.Mistypes .setup laterStages es (fault? g.runStages.value.1) := by
  obtain ⟨es, hevents, hworks⟩ := g.goesThrough_prepare hg
  unfold runStages
  rw [Traced.events_bind, Traced.value_bind, hevents]
  cases hp : g.prepare.run.value with
  | error fault =>
      rw [hp] at hworks
      refine ⟨es, List.append_nil _, ?_⟩
      exact hworks.fails_append (Option.some_ne_none fault) [.render]
  | ok p =>
      rw [hp] at hworks
      have h := isReady_of_installPlugins (registry_of_prepare hp)
      have hr := Plugin.failsUnnamed_installAll hg h.installed
      have hrender := (worksIn_render (c := p.context) h hr p.tree).works
      have hall := hworks.andThen rfl hrender
      dsimp only
      rw [Traced.events_bind, Traced.value_bind, Traced.events_bind, Traced.value_bind]
      refine ⟨es ++ .announcement .render :: (render p.registry p.context p.tree).events, ?_, ?_⟩
      · split <;> simp [Traced.events_pure, Traced.notice, Traced.emit, Event.announcement]
      · unfold first at hall
        split
        · next hvalue =>
          rw [hvalue] at hall
          exact hall
        · next hvalue =>
          rw [hvalue] at hall
          exact hall

/-! ## What a run shows -/

variable {es : List Event} {fault : Option Fault}

theorem announced_of_fits {fails : Prop} (h : ∀ e ∈ es, e.Fits mistyped s fails) :
    es.filterMap Event.announced? = [] :=
  List.filterMap_eq_nil_iff.mpr fun e he => (h e he).announced?_eq

theorem loggedErrors_of_fits {fails : Prop} (h : ∀ e ∈ es, e.Fits mistyped s fails) :
    es.filterMap Event.loggedError? = [] :=
  List.filterMap_eq_nil_iff.mpr fun e he => (h e he).loggedError?_eq

theorem announced?_announcement (next : Stage) :
    (Event.announcement next).announced? = some next.name := rfl

theorem announced_enter (next : Stage) (more : List Event)
    (h : es.filterMap Event.announced? = []) :
    (es ++ .announcement next :: more).filterMap Event.announced? =
      next.name :: more.filterMap Event.announced? := by
  rw [List.filterMap_append, h]
  rfl

/-- What is announced after the start of a stage are the stages that follow it, up to some stage,
and all of them if nothing fails. -/
theorem Works.announced (h : Works mistyped s rest es fault) :
    ∃ n ≤ rest.length, es.filterMap Event.announced? = (rest.take n).map Stage.name ∧
      (fault = none → n = rest.length) := by
  induction h with
  | ends fits => exact ⟨0, Nat.le_refl 0, announced_of_fits fits, fun _ => rfl⟩
  | fails fits => exact ⟨0, Nat.zero_le _, announced_of_fits fits, fun hf => by cases hf⟩
  | enters fits _ ih =>
      obtain ⟨n, hn, hannounced, hall⟩ := ih
      refine ⟨n + 1, Nat.succ_le_succ hn, ?_, fun hf => congrArg Nat.succ (hall hf)⟩
      rw [announced_enter _ _ (announced_of_fits fits), hannounced]
      rfl

/-- A fault is one of the stage that was announced last. -/
theorem Works.isOf_last {fault' : Fault} (h : Works mistyped s rest es fault)
    (hf : fault = some fault') :
    ∃ last : Stage, (s.name :: es.filterMap Event.announced?).getLast? = some last.name ∧
      fault'.IsOf mistyped last := by
  induction h with
  | ends => cases hf
  | fails fits isOf =>
      cases hf
      rw [announced_of_fits fits]
      exact ⟨_, rfl, isOf⟩
  | enters fits _ ih =>
      rw [announced_enter _ _ (announced_of_fits fits), List.getLast?_cons_cons]
      exact ih hf

theorem Works.logsNoError (h : Works mistyped s rest es fault) :
    es.filterMap Event.loggedError? = [] := by
  induction h with
  | ends fits => exact loggedErrors_of_fits fits
  | fails fits => exact loggedErrors_of_fits fits
  | enters fits _ ih =>
      rw [List.filterMap_append, List.filterMap_cons_none rfl, ih, List.append_nil]
      exact loggedErrors_of_fits fits

/-- An event among others and a different one is on one side of that. -/
theorem append_cons_cases {e mark : Event} {more before after : List Event} (hne : mark ≠ e)
    (h : es ++ mark :: more = before ++ e :: after) :
    (∃ mid, es = before ++ e :: mid ∧ after = mid ++ mark :: more) ∨
      ∃ mid, before = es ++ mark :: mid ∧ more = mid ++ e :: after := by
  rcases List.append_eq_append_iff.mp h with ⟨mid, hbefore, hmid⟩ | ⟨mid, hes, hmid⟩
  · cases mid with
    | nil => exact absurd (List.cons.inj hmid).1 hne
    | cons a mid =>
        obtain ⟨rfl, hmore⟩ := List.cons.inj hmid
        exact Or.inr ⟨mid, hbefore, hmore⟩
  · cases mid with
    | nil => exact absurd (List.cons.inj hmid).1.symm hne
    | cons a mid =>
        obtain ⟨rfl, hafter⟩ := List.cons.inj hmid
        exact Or.inl ⟨mid, hes, hafter⟩

theorem announcement_ne_call {next : Stage} {point : Text} {answered : Bool} :
    Event.announcement next ≠ .call point answered := by
  intro h
  cases h

/-- The stage of a call is the running one or has been announced since. -/
theorem Works.call_announced {p : Point} {answered : Bool} {after : List Event}
    (h : Works mistyped s rest es fault) : ∀ {before : List Event},
      es = before ++ .call p.name answered :: after →
        p.stage = s ∨ .announcement p.stage ∈ before := by
  induction h with
  | ends fits =>
      rintro before rfl
      exact Or.inl (fits (.call p.name answered) (by simp)).of_call.1
  | fails fits =>
      rintro before rfl
      exact Or.inl (fits (.call p.name answered) (by simp)).of_call.1
  | enters fits _ ih =>
      intro before hes
      rcases append_cons_cases announcement_ne_call hes with ⟨mid, rfl, -⟩ | ⟨mid, rfl, hmore⟩
      · exact Or.inl (fits (.call p.name answered) (by simp)).of_call.1
      · right
        rcases ih hmore with hnext | hmid
        · simp [hnext]
        · simp [hmid]

/-- After a call that fails, only work of its stage follows, and that fails. -/
theorem Works.call_fails {p : Point} {after : List Event} (h : Works mistyped s rest es fault) :
    ∀ {before : List Event}, es = before ++ .call p.name false :: after →
      (∃ f, fault = some (.failed f)) ∧ ∀ e ∈ after, e.Fits mistyped p.stage True := by
  induction h with
  | ends fits =>
      rintro before rfl
      exact ((fits (.call p.name false) (by simp)).2 rfl).elim
  | fails fits =>
      rintro before rfl
      have hcall := fits (.call p.name false) (by simp)
      obtain ⟨f, hf⟩ := hcall.2 rfl
      refine ⟨⟨f, congrArg some hf⟩, fun e he => ?_⟩
      rw [hcall.of_call.1]
      exact (fits e (by simp [he])).mono fun _ => trivial
  | enters fits _ ih =>
      intro before hes
      rcases append_cons_cases announcement_ne_call hes with ⟨mid, rfl, -⟩ | ⟨mid, -, hmore⟩
      · exact ((fits (.call p.name false) (by simp)).2 rfl).elim
      · exact ih hmore

/-- What is called is an extension of a point of the run that no plugin mistypes. -/
theorem Works.point_of_call {point : Text} {answered : Bool} (h : Works mistyped s rest es fault)
    (he : .call point answered ∈ es) : ∃ p : Point, p.name = point ∧ ¬ mistyped p := by
  induction h with
  | ends fits =>
      obtain ⟨p, hp, -, hm⟩ := (fits _ he).1
      exact ⟨p, hp, hm⟩
  | fails fits =>
      obtain ⟨p, hp, -, hm⟩ := (fits _ he).1
      exact ⟨p, hp, hm⟩
  | enters fits _ ih =>
      rcases List.mem_append.mp he with he | he
      · obtain ⟨p, hp, -, hm⟩ := (fits _ he).1
        exact ⟨p, hp, hm⟩
      · rcases List.mem_cons.mp he with he | he
        · cases he
        · exact ih he

/-- Work in a stage without points calls nothing. -/
theorem not_call_of_fits {fails : Prop} (h : ∀ e ∈ es, e.Fits mistyped s fails)
    (hs : ∀ p : Point, p.stage ≠ s) (point : Text) (answered : Bool) :
    .call point answered ∉ es := by
  intro hcall
  obtain ⟨⟨p, -, hp, -⟩, -⟩ := h _ hcall
  exact hs p hp

theorem stage_ne_setup (p : Point) : p.stage ≠ .setup := by
  cases p <;> decide

theorem stage_ne_plugins (p : Point) : p.stage ≠ .plugins := by
  cases p <;> decide

/-! ## The whole run -/

/-- The errors that a run logs because of how it ends. -/
def logged : Option Fault → List Text
  | some (.failed f) => [f.toText]
  | some (.thrown _) | none => []

/-- A run that keeps to its stages, where plugins mistype some points. -/
structure IsDisciplined (mistyped : Point → Prop) (events : List Event)
    (result : Except Fault Report) : Prop where
  /-- The stages are announced in their order, at least the first one, and all of them if the run
  succeeds. -/
  announces : ∃ n, 0 < n ∧ n ≤ Stage.all.length ∧
    events.filterMap Event.announced? = (Stage.all.take n).map Stage.name ∧
    (∀ report, result = .ok report → n = Stage.all.length)
  /-- Only extensions of the points of a run are called, of those that are not mistyped, and none of
  them before its stage is announced. -/
  callsAnnounced : ∀ point answered before after, events = before ++ .call point answered :: after →
    ∃ p : Point, p.name = point ∧ ¬ mistyped p ∧ .announcement p.stage ∈ before
  /-- An extension that fails makes the run fail, and none of another stage is called after it. -/
  callsNoLater : ∀ (p : Point) before after, events = before ++ .call p.name false :: after →
    (∃ f, result = .error (.failed f)) ∧
      ∀ (q : Point) answered, .call q.name answered ∈ after → q.stage = p.stage
  /-- The run itself logs one error if it fails, the text of its failure, and else none. -/
  logsFailure : events.filterMap Event.loggedError? = logged (fault? result)
  /-- The failure of a stage names the stage that was announced last. -/
  namesStage : ∀ f, result = .error (.failed f) → f.kind = .stage →
    (events.filterMap Event.announced?).getLast? = some f.stage
  /-- The run breaks off only in the stage that asks for a mistyped point. -/
  breaksOff : ∀ message, result = .error (.thrown message) → Fault.thrown message = badCast ∧
    ∃ p, mistyped p ∧ (events.filterMap Event.announced?).getLast? = some p.askedIn.name

/-- What a run reports when it is at its end: nothing but how it ends. -/
structure Closes (ending : List Event) (fault : Option Fault) : Prop where
  announcesNothing : ending.filterMap Event.announced? = []
  callsNothing : ∀ point answered, .call point answered ∉ ending
  logs : ending.filterMap Event.loggedError? = logged fault

/-- The events of a run: its work, with reports before it and an ending behind. -/
def framed (reports es ending : List Event) : List Event :=
  reports ++ .announcement .setup :: (es ++ ending)

section Framed

variable {t : Traced α} {ending : List Event}

theorem announced_framed (hquiet : t.IsQuiet) (hcloses : Closes ending fault) :
    (framed t.events es ending).filterMap Event.announced? =
      Stage.setup.name :: es.filterMap Event.announced? := by
  have hreports := announced_of_fits fun e he => hquiet e he (fun _ => False) .setup False
  rw [framed, announced_enter _ _ hreports, List.filterMap_append, hcloses.announcesNothing,
    List.append_nil]

theorem loggedErrors_framed (hquiet : t.IsQuiet) (hcloses : Closes ending fault)
    (h : es.filterMap Event.loggedError? = []) :
    (framed t.events es ending).filterMap Event.loggedError? = logged fault := by
  rw [framed, List.filterMap_append, List.filterMap_cons_none rfl, List.filterMap_append, h,
    loggedErrors_of_fits fun e he => hquiet e he (fun _ => False) .setup False, hcloses.logs]
  rfl

/-- A call is neither among the reports before the work nor in the ending. -/
theorem call_framed {point : Text} {answered : Bool} {before after : List Event}
    (hquiet : t.IsQuiet) (hcloses : Closes ending fault)
    (h : framed t.events es ending = before ++ .call point answered :: after) :
    ∃ mid after', before = t.events ++ .announcement .setup :: mid ∧
      es = mid ++ .call point answered :: after' ∧ after = after' ++ ending := by
  rcases append_cons_cases announcement_ne_call h with ⟨mid, hreports, -⟩ | ⟨mid, hbefore, hmid⟩
  · refine absurd ?_ (not_call_of_fits (fun e he => hquiet e he (fun _ => False) .setup False)
      stage_ne_setup point answered)
    rw [hreports]
    exact List.mem_append_right _ List.mem_cons_self
  · rcases List.append_eq_append_iff.mp hmid with ⟨more, -, hending⟩ | ⟨more, hes, hafter⟩
    · refine absurd ?_ (hcloses.callsNothing point answered)
      rw [hending]
      exact List.mem_append_right _ List.mem_cons_self
    · cases more with
      | nil =>
          refine absurd ?_ (hcloses.callsNothing point answered)
          rw [← List.nil_append ending, ← hafter]
          exact List.mem_cons_self
      | cons a more =>
          obtain ⟨rfl, hmore⟩ := List.cons.inj hafter
          exact ⟨mid, more, hbefore, hes, hmore⟩

end Framed

/-- Work through all stages makes a disciplined run. -/
theorem Works.isDisciplined {t : Traced α} {ending : List Event} {result : Except Fault Report}
    (h : Works mistyped .setup laterStages es (fault? result)) (hquiet : t.IsQuiet)
    (hcloses : Closes ending (fault? result)) :
    IsDisciplined mistyped (framed t.events es ending) result where
  announces := by
    obtain ⟨n, hn, hannounces, hall⟩ := h.announced
    refine ⟨n + 1, Nat.succ_pos n, Nat.succ_le_succ hn, ?_, ?_⟩
    · rw [announced_framed hquiet hcloses, hannounces]
      rfl
    · rintro report rfl
      exact congrArg Nat.succ (hall rfl)
  callsAnnounced point answered before after hevents := by
    obtain ⟨mid, after', rfl, hes, -⟩ := call_framed hquiet hcloses hevents
    obtain ⟨p, rfl, hm⟩ := h.point_of_call (hes ▸ List.mem_append_right _ List.mem_cons_self)
    refine ⟨p, rfl, hm, ?_⟩
    rcases h.call_announced hes with hsetup | hmid
    · simp [hsetup]
    · simp [hmid]
  callsNoLater p before after hevents := by
    obtain ⟨mid, after', -, hes, rfl⟩ := call_framed hquiet hcloses hevents
    obtain ⟨⟨f, hf⟩, hfits⟩ := h.call_fails hes
    refine ⟨⟨f, eq_error_of_fault? hf⟩, fun q answered hq => ?_⟩
    rcases List.mem_append.mp hq with hq | hq
    · exact (hfits _ hq).of_call.1
    · exact absurd hq (hcloses.callsNothing _ _)
  logsFailure := loggedErrors_framed hquiet hcloses h.logsNoError
  namesStage f hf hkind := by
    subst hf
    obtain ⟨last, hlast, hisOf⟩ := h.isOf_last rfl
    rw [announced_framed hquiet hcloses, hlast, hisOf hkind]
  breaksOff message hmessage := by
    subst hmessage
    obtain ⟨last, hlast, hcast, p, hasked, hm⟩ := h.isOf_last rfl
    rw [announced_framed hquiet hcloses, hlast]
    exact ⟨hcast, p, hm, by rw [hasked]⟩

theorem isQuiet_reportDisabled (g : Generator) : g.reportDisabled.IsQuiet := by
  refine Traced.isQuiet_forM fun p _ => ?_
  split
  · exact Traced.isQuiet_logDebug _ _
  · exact Traced.isQuiet_pure _

/-- A run ends with one event about its failure or its completion, and with none if it breaks
off. -/
theorem exists_ending (g : Generator) :
    ∃ ending, g.generate.events = g.reportDisabled.events ++ (g.runStages.events ++ ending) ∧
      fault? g.generate.value.1 = fault? g.runStages.value.1 ∧
      Closes ending (fault? g.runStages.value.1) := by
  unfold generate
  rw [Traced.events_bind, Traced.value_bind, Traced.events_bind, Traced.value_bind]
  obtain ⟨⟨result, disk⟩, events⟩ := g.runStages
  match result with
  | .error (.failed f) =>
      refine ⟨[.notice .error f.toText], rfl, rfl, rfl, fun point answered h => ?_, rfl⟩
      cases List.mem_singleton.mp h
  | .error (.thrown message) =>
      exact ⟨[], rfl, rfl, rfl, fun _ _ => List.not_mem_nil, rfl⟩
  | .ok report =>
      refine ⟨[.record (closing (Event.warnings events) (Event.errors events))], rfl, rfl, rfl,
        fun point answered h => ?_, ?_⟩
      · cases List.mem_singleton.mp h
      · have hlevel : ¬ .error ≤ (closing (Event.warnings events) (Event.errors events)).level := by
          unfold closing
          dsimp only
          split <;> decide
        simpa [Event.loggedError?, Event.record?, fault?, logged] using hlevel

/-- A run that is not ready for rendering fails without touching the disk. -/
theorem runStages_of_prepare_error {g : Generator} {fault : Fault}
    (h : g.prepare.run.value = .error fault) :
    g.runStages.value = (.error fault, g.disk) ∧ g.runStages.events = g.prepare.run.events := by
  unfold runStages
  rw [Traced.value_bind, Traced.events_bind, h]
  exact ⟨rfl, List.append_nil _⟩

/-- A run that succeeds finds all its points typed. -/
theorem not_mistypes_of_ok {g : Generator} {report : Report}
    (h : g.generate.value.1 = .ok report) (p : Point) : ¬ g.Mistypes p := by
  obtain ⟨-, -, hfault, -⟩ := g.exists_ending
  cases hprepare : g.prepare.run.value with
  | error fault =>
      rw [h, (runStages_of_prepare_error hprepare).1] at hfault
      cases hfault
  | ok prepared =>
      obtain ⟨-, -, merged, m, created, -, hinstall, -, -, -, -, htransform, -, hpages⟩ :=
        stages_of_prepare hprepare
      have hready := isReady_of_installPlugins hinstall
      by_cases hp : p ∈ Point.singles
      · exact hready.not_mistypes hp
      · rw [hready.mistypes_iff]
        intro hm
        have hchain := chain_of_mistypes hm
        cases p with
        | moduleTransformer =>
            unfold transformModule at htransform
            rw [Traced.run_bind_of_pure_error hchain] at htransform
            cases htransform
        | pageTransformer =>
            unfold transformPages at hpages
            rw [Traced.run_bind_of_pure_error hchain] at hpages
            cases hpages
        | _ => exact hp (by decide)

theorem isDisciplined_of_failsUnnamed {g : Generator} (h : ∀ p ∈ g.extraPlugins, p.FailsUnnamed) :
    IsDisciplined g.Mistypes g.generate.events g.generate.value.1 := by
  have hplugins : ∀ p ∈ g.plugins, p.FailsUnnamed := by
    intro p hp
    rcases List.mem_append.mp (List.mem_filter.mp hp).1 with hp | hp
    · exact Plugin.failsUnnamed_builtin p hp
    · exact h p hp
  obtain ⟨es, hevents, hworks⟩ := g.goesThrough_runStages hplugins
  obtain ⟨ending, hgenerate, hfault, hcloses⟩ := g.exists_ending
  rw [← hfault] at hworks hcloses
  rw [hgenerate, hevents]
  exact hworks.isDisciplined g.isQuiet_reportDisabled hcloses

/-! ### Runs that end before anything is called -/

/-- The run announces just some stages, calls nothing and ends with a fault. -/
structure EndsUncalled (events : List Event) (result : Except Fault Report)
    (announced : List Stage) (fault : Fault) : Prop where
  announces : events.filterMap Event.announced? = announced.map Stage.name
  callsNothing : ∀ point answered, .call point answered ∉ events
  ends : result = .error fault

/-- A run that cannot be made ready for its first call shows the reports of the stages so far. -/
theorem endsUncalled_of_prepare {g : Generator} {fault : Fault} {announced : List Stage}
    (hvalue : g.prepare.run.value = .error fault)
    (hannounces : g.prepare.run.events.filterMap Event.announced? = announced.map Stage.name)
    (hcalls : ∀ point answered, .call point answered ∉ g.prepare.run.events) :
    EndsUncalled g.generate.events g.generate.value.1 announced fault := by
  have hquiet : ∀ e ∈ g.reportDisabled.events, e.Fits g.Mistypes .setup False :=
    fun e he => g.isQuiet_reportDisabled e he _ _ _
  obtain ⟨ending, hevents, hfault, hcloses⟩ := g.exists_ending
  obtain ⟨hrun, hrunEvents⟩ := runStages_of_prepare_error hvalue
  rw [hrunEvents] at hevents
  rw [hrun] at hfault
  constructor
  · rw [hevents, List.filterMap_append, List.filterMap_append, hannounces,
      hcloses.announcesNothing, List.append_nil, announced_of_fits hquiet, List.nil_append]
  · intro point answered hmem
    rw [hevents] at hmem
    rcases List.mem_append.mp hmem with hmem | hmem
    · exact not_call_of_fits hquiet stage_ne_setup point answered hmem
    · rcases List.mem_append.mp hmem with hmem | hmem
      · exact hcalls point answered hmem
      · exact hcloses.callsNothing point answered hmem
  · exact eq_error_of_fault? hfault

theorem value_enter_bind {next : Unit → StageM α} :
    (enter s >>= next).run.value = (next ()).run.value := rfl

theorem events_enter_bind {next : Unit → StageM α} :
    (enter s >>= next).run.events = .announcement s :: (next ()).run.events := rfl

theorem run_throw_bind {fault : Fault} {next : α → StageM β} :
    ((throw fault : StageM α) >>= next).run = pure (.error fault) := rfl

theorem prepare_of_setup_error {g : Generator} {fault : Fault}
    (h : g.setup.run.value = .error fault) :
    g.prepare.run.value = .error fault ∧
      g.prepare.run.events = .announcement .setup :: g.setup.run.events := by
  unfold prepare
  rw [value_enter_bind, events_enter_bind, Traced.value_run_bind, Traced.events_run_bind, h,
    List.append_nil]
  exact ⟨rfl, rfl⟩

/-- After the setup a run needs plugins and a pass to go on. -/
theorem prepare_of_unready {g : Generator} {passes : List AnalyzedPass} {fault : Fault}
    (h : g.setup.run.value = .ok passes)
    (hunready : g.installPlugins.run.value = .error fault ∨
      g.config.passes = [] ∧ fault = .failed noPasses ∧ ∃ r, g.installPlugins.run.value = .ok r) :
    g.prepare.run.value = .error fault ∧ g.prepare.run.events =
      .announcement .setup ::
        (g.setup.run.events ++ .announcement .plugins :: g.installPlugins.run.events) := by
  unfold prepare
  rw [value_enter_bind, events_enter_bind, Traced.value_run_bind, Traced.events_run_bind, h]
  dsimp only
  rw [value_enter_bind, events_enter_bind, Traced.value_run_bind, Traced.events_run_bind]
  rcases hunready with hplugins | ⟨hpasses, rfl, r, hplugins⟩
  · rw [hplugins, List.append_nil]
    exact ⟨rfl, rfl⟩
  · rw [hplugins]
    dsimp only
    rw [if_pos (List.isEmpty_iff.mpr hpasses), run_throw_bind, Traced.events_pure, List.append_nil]
    exact ⟨rfl, rfl⟩

/-- A run whose passes cannot be analyzed ends in its first stage. -/
theorem endsUncalled_of_setup_error {g : Generator} {fault : Fault}
    (h : g.setup.run.value = .error fault) :
    EndsUncalled g.generate.events g.generate.value.1 [.setup] fault := by
  have hsetup : WorksIn g.Mistypes .setup g.setup.run := g.worksIn_setup
  obtain ⟨hvalue, hevents⟩ := prepare_of_setup_error h
  refine endsUncalled_of_prepare hvalue ?_ fun point answered hmem => ?_
  · rw [hevents, List.filterMap_cons_some (announced?_announcement _),
      announced_of_fits hsetup.fits]
    rfl
  · rw [hevents] at hmem
    rcases List.mem_cons.mp hmem with hmem | hmem
    · cases hmem
    · exact not_call_of_fits hsetup.fits stage_ne_setup point answered hmem

/-- A run that has no plugins or no passes to go on with ends in its second stage. -/
theorem endsUncalled_of_unready {g : Generator} {passes : List AnalyzedPass} {fault : Fault}
    (h : g.setup.run.value = .ok passes)
    (hunready : g.installPlugins.run.value = .error fault ∨
      g.config.passes = [] ∧ fault = .failed noPasses ∧ ∃ r, g.installPlugins.run.value = .ok r) :
    EndsUncalled g.generate.events g.generate.value.1 [.setup, .plugins] fault := by
  have hsetup : WorksIn g.Mistypes .setup g.setup.run := g.worksIn_setup
  have hplugins := g.worksIn_installPlugins.fits
  obtain ⟨hvalue, hevents⟩ := prepare_of_unready h hunready
  refine endsUncalled_of_prepare hvalue ?_ fun point answered hmem => ?_
  · rw [hevents, List.filterMap_cons_some (announced?_announcement _),
      announced_enter _ _ (announced_of_fits hsetup.fits), announced_of_fits hplugins]
    rfl
  · rw [hevents] at hmem
    rcases List.mem_cons.mp hmem with hmem | hmem
    · cases hmem
    · rcases List.mem_append.mp hmem with hmem | hmem
      · exact not_call_of_fits hsetup.fits stage_ne_setup point answered hmem
      · rcases List.mem_cons.mp hmem with hmem | hmem
        · cases hmem
        · exact not_call_of_fits hplugins stage_ne_plugins point answered hmem

/-- Without a pass, or where some single point is not filled once, the configuration cannot be run,
unless another single point is filled with another type. -/
theorem exists_unready {g : Generator} (htyped : ¬ g.Misfills)
    (h : g.config.passes = [] ∨
      ∀ r, (Plugin.installAll g.plugins g.config).run.value = .ok r →
        ∃ p ∈ Point.singles, (r.entries p.name).length ≠ 1) :
    ∃ f : Failure, f.kind = .configuration ∧
      (g.installPlugins.run.value = .error (.failed f) ∨
        g.config.passes = [] ∧ Fault.failed f = .failed noPasses ∧
          ∃ r, g.installPlugins.run.value = .ok r) := by
  rcases g.installPlugins_cases with ⟨r, hvalue, hready⟩ | ⟨hmisfills, -⟩ | ⟨-, f, hkind, hvalue⟩
  · rcases h with hempty | hunfilled
    · exact ⟨noPasses, rfl, Or.inr ⟨hempty, rfl, r, hvalue⟩⟩
    · obtain ⟨p, hp, hlength⟩ := hunfilled r hready.installed
      obtain ⟨e, he, -⟩ := hready.filled p hp
      exact absurd (by rw [he, List.length_singleton]) hlength
  · exact absurd hmisfills htyped
  · exact ⟨f, hkind, Or.inl hvalue⟩

/-- A run with a transform that refuses every module. -/
def refusedRun : Generator where
  config := { passes := [{}] }
  analyzer _ _ _ := pure (.ok (some {}))
  extraPlugins := [{
    name := "refusing"
    install := fun _ => pure (.ok [Point.moduleTransformer.propose "refuse" fun _ _ =>
      pure (.error (.failed (.ofStage [] "refused")))]) }]

/-- A run without passes whose only renderer is of a type of its own. -/
def foreignRun : Generator where
  config := { format := "plain" }
  analyzer _ _ _ := pure (.ok none)
  extraPlugins := [{
    name := "plain"
    install := fun _ => pure (.ok [{
      point := Point.renderer.name
      cardinality := .single
      name := "renderer"
      impl := .foreign "PlainRenderer" fun p => by cases p <;> decide }]) }]

end Generator

end CrossDoc
