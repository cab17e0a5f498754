import CrossDoc.Proofs.TypedPoints

/-!
# Chains of transforms

A chain hands the answer of each transform on to the next one, so it is a left
fold; the first transform that fails ends it, and what stands behind that one
has no part in it.  The transforms of a run stand in the order in which their
plugins are installed, and those of one plugin in the order of its proposals;
so do the implementations of any other point, whatever their type.
-/

namespace CrossDoc

/-- An extension is called. -/
def Event.isCall : Event → Bool
  | .call _ _ => true
  | _ => false

theorem Traced.filter_isCall_relay {α : Type} (t : Traced α) :
    t.relay.events.filter Event.isCall = [] := by
  refine List.filter_eq_nil_iff.mpr fun e he => ?_
  obtain ⟨e, -, rfl⟩ := List.mem_map.mp he
  cases e <;> exact Bool.false_ne_true

namespace Generator

variable {α : Type} {s : Stage} {point : Point} {module : Text} {c : RunContext}

/-- A transform, under the id of its registration. -/
abbrev Transform (α : Type) := Text × (α → RunContext → Traced (Except Fault α))

/-- How a stage fails with a fault of an extension. -/
def failing (s : Stage) (fault : Fault) : Fault := .failed (fault.during s.name)

/-- What a transform answers in a stage. -/
def answer (s : Stage) (c : RunContext) (a : α) (t : Transform α) : Except Fault α :=
  (t.2 a c).value.mapError (failing s)

theorem value_call (answer : Traced (Except Fault α)) :
    (call s point answer).run.value = answer.value.mapError (failing s) := by
  unfold call
  rw [Traced.value_run_bind, Traced.value_run_lift]
  dsimp only
  rw [Point.value_call]
  cases answer.value <;> rfl

theorem events_call (answer : Traced (Except Fault α)) :
    (call s point answer).run.events =
      .call point.name answer.value.isOk :: answer.relay.events := by
  have hcall : (point.call Except.isOk answer).events =
      .call point.name answer.value.isOk :: answer.relay.events := rfl
  unfold call
  rw [Traced.events_run_bind, Traced.events_run_lift, Traced.value_run_lift, hcall]
  dsimp only
  rw [Point.value_call]
  cases answer.value <;> exact List.append_nil _

/-- The events of one transform: the chain says which one it is, and calls it. -/
def applied (point : Point) (module : Text) (c : RunContext) (a : α) (t : Transform α) :
    List Event :=
  .record ⟨.debug, module, "applying " ++ t.1⟩ :: .call point.name (t.2 a c).value.isOk ::
    (t.2 a c).relay.events

theorem value_applyChain_cons (t : Transform α) (rest : List (Transform α)) (a : α) :
    (applyChain s point module c (t :: rest) a).run.value =
      match answer s c a t with
      | .ok b => (applyChain s point module c rest b).run.value
      | .error f => .error f := by
  rw [applyChain, Traced.value_run_bind, Traced.value_run_lift]
  dsimp only
  rw [Traced.value_run_bind, value_call, answer]
  cases (t.2 a c).value <;> rfl

theorem events_applyChain_cons (t : Transform α) (rest : List (Transform α)) (a : α) :
    (applyChain s point module c (t :: rest) a).run.events = applied point module c a t ++
      match answer s c a t with
      | .ok b => (applyChain s point module c rest b).run.events
      | .error _ => [] := by
  rw [applyChain, Traced.events_run_bind, Traced.events_run_lift, Traced.value_run_lift]
  dsimp only
  rw [Traced.events_run_bind, value_call, events_call, answer, applied]
  cases (t.2 a c).value <;> rfl

/-- A chain is the left fold of its transforms. -/
theorem value_applyChain : ∀ (ts : List (Transform α)) (a : α),
    (applyChain s point module c ts a).run.value = ts.foldlM (answer s c) a
  | [], _ => rfl
  | t :: rest, a => by
      rw [value_applyChain_cons, List.foldlM_cons]
      cases answer s c a t with
      | error f => rfl
      | ok b => exact value_applyChain rest b

/-- A fold of transforms fails, but it does not break off. -/
theorem foldlM_answer_ne_thrown (message : Text) : ∀ (ts : List (Transform α)) (a : α),
    ts.foldlM (answer s c) a ≠ .error (.thrown message)
  | [], _ => by
      rintro ⟨⟩
  | t :: rest, a => by
      rw [List.foldlM_cons, answer]
      cases (t.2 a c).value with
      | error fault => rintro ⟨⟩
      | ok b => exact foldlM_answer_ne_thrown message rest b

/-- What stands behind a transform that fails does not matter. -/
theorem applyChain_of_error {u : Transform α} {f : Fault} :
    ∀ {earlier : List (Transform α)} {a b : α}, earlier.foldlM (answer s c) a = .ok b →
      answer s c b u = .error f → ∀ later,
        (applyChain s point module c (earlier ++ u :: later) a).run =
          (applyChain s point module c (earlier ++ [u]) a).run
  | [], a, b, hearlier, hu, later => by
      cases hearlier
      apply Traced.ext
      · rw [List.nil_append, List.nil_append, value_applyChain_cons, value_applyChain_cons, hu]
      · rw [List.nil_append, List.nil_append, events_applyChain_cons, events_applyChain_cons, hu]
  | t :: rest, a, b, hearlier, hu, later => by
      rw [List.foldlM_cons] at hearlier
      cases ht : answer s c a t with
      | error f' =>
          rw [ht] at hearlier
          cases hearlier
      | ok a' =>
          rw [ht] at hearlier
          have hrest := applyChain_of_error hearlier hu later
          apply Traced.ext
          · simp only [List.cons_append, value_applyChain_cons, ht, hrest]
          · simp only [List.cons_append, events_applyChain_cons, ht, hrest]

/-- How a chain calls its transforms: those before the first failure answer. -/
def calls (point : Point) (answered : Nat) (failed : Bool) : List Event :=
  List.replicate answered (.call point.name true) ++ if failed then [.call point.name false] else []

theorem filter_isCall_applied (a : α) (t : Transform α) :
    (applied point module c a t).filter Event.isCall =
      [.call point.name (t.2 a c).value.isOk] := by
  rw [applied, List.filter_cons_of_neg (by simp [Event.isCall]),
    List.filter_cons_of_pos (by rfl), Traced.filter_isCall_relay]

theorem isOk_answer (a : α) (t : Transform α) :
    (t.2 a c).value.isOk = (answer s c a t).isOk := by
  unfold answer
  cases (t.2 a c).value <;> rfl

/-- A chain that goes through calls each of its transforms. -/
theorem filter_isCall_applyChain_ok : ∀ {ts : List (Transform α)} {a b : α},
    ts.foldlM (answer s c) a = .ok b →
      (applyChain s point module c ts a).run.events.filter Event.isCall =
          calls point ts.length false
  | [], _, _, _ => rfl
  | t :: rest, a, b, h => by
      rw [List.foldlM_cons] at h
      rw [events_applyChain_cons]
      cases ht : answer s c a t with
      | error f =>
          rw [ht] at h
          cases h
      | ok a' =>
          rw [ht] at h
          rw [List.filter_append, filter_isCall_applied, isOk_answer (s := s), ht]
          exact congrArg (_ :: ·) (filter_isCall_applyChain_ok h)

/-- A chain that fails calls its transforms up to the one that fails. -/
theorem filter_isCall_applyChain_error {u : Transform α} {f : Fault}
    {later : List (Transform α)} :
    ∀ {earlier : List (Transform α)} {a b : α}, earlier.foldlM (answer s c) a = .ok b →
      answer s c b u = .error f →
        (applyChain s point module c (earlier ++ u :: later) a).run.events.filter Event.isCall =
          calls point earlier.length true
  | [], a, b, hearlier, hu => by
      cases hearlier
      rw [List.nil_append, events_applyChain_cons, hu, List.append_nil, filter_isCall_applied,
        isOk_answer (s := s), hu]
      rfl
  | t :: rest, a, b, h, hu => by
      rw [List.foldlM_cons] at h
      rw [List.cons_append, events_applyChain_cons]
      cases ht : answer s c a t with
      | error f' =>
          rw [ht] at h
          cases h
      | ok a' =>
          rw [ht] at h
          rw [List.filter_append, filter_isCall_applied, isOk_answer (s := s), ht]
          exact congrArg (_ :: ·) (filter_isCall_applyChain_error h hu)

/-- The computation hands a value through some transforms: its answer is their left fold, it calls
them one after the other, and nothing that stands behind a transform that fails has a part in it. -/
structure FoldsThrough (s : Stage) (point : Point) (module : Text) (c : RunContext)
    (ts : List (Transform α)) (a : α) (t : Traced (Except Fault α)) : Prop where
  folds : t.value = ts.foldlM (answer s c) a
  callsAll : ∀ b, ts.foldlM (answer s c) a = .ok b →
    t.events.filter Event.isCall = calls point ts.length false
  stops : ∀ earlier u later b f, ts = earlier ++ u :: later →
    earlier.foldlM (answer s c) a = .ok b → answer s c b u = .error f →
      t.value = .error f ∧ t.events.filter Event.isCall = calls point earlier.length true ∧
        ∀ others, t = (applyChain s point module c (earlier ++ u :: others) a).run

theorem applyChain_foldsThrough (ts : List (Transform α)) (a : α) :
    FoldsThrough s point module c ts a (applyChain s point module c ts a).run where
  folds := value_applyChain ts a
  callsAll b h := filter_isCall_applyChain_ok h
  stops earlier u later b f hts hearlier hu := by
    subst hts
    refine ⟨?_, filter_isCall_applyChain_error hearlier hu, fun others => ?_⟩
    · rw [value_applyChain, List.foldlM_append, hearlier]
      show (u :: later).foldlM (answer s c) b = _
      rw [List.foldlM_cons, hu]
      rfl
    · rw [applyChain_of_error hearlier hu later, applyChain_of_error hearlier hu others]

/-! ## In the order of the plugins -/

/-- The transforms of a model are all that is registered for it, in order. -/
theorem transformModule_foldsThrough {ps : List Plugin} {config : Config} {r : Registry Extension}
    (hr : (Plugin.installAll ps config).run.value = .ok r) (c : RunContext) (m : DocModule)
    (h : ∀ e ∈ r.entries Point.moduleTransformer.name, e.type = Point.moduleTransformer.type) :
    ∃ ts : List (Transform DocModule),
      ts.map (fun t => (t.1, Extension.of .moduleTransformer t.2)) =
        (r.entries Point.moduleTransformer.name).map (fun e => (e.id, e.impl)) ∧
      FoldsThrough .transformModule .moduleTransformer "transform" c ts m
        (transformModule r c m).run := by
  obtain ⟨ts, hts, hmap⟩ := exists_chain (p := .moduleTransformer) hr
    fun ⟨e, he, htype⟩ => htype (h e he)
  refine ⟨ts, hmap, ?_⟩
  unfold transformModule
  rw [Traced.run_bind_of_pure hts]
  exact applyChain_foldsThrough ts m

/-- If one of them is no transform of models, none is applied. -/
theorem transformModule_of_mistypes {r : Registry Extension} (c : RunContext) (m : DocModule)
    (h : r.Mistypes .moduleTransformer) :
    (transformModule r c m).run = ⟨.error badCast, []⟩ := by
  unfold transformModule
  exact Traced.run_bind_of_pure_error (chain_of_mistypes h) _

/-- A plugin with one transform for each text: it adds the text to the name of the module, or fails
on an empty one.  Each text is also registered on a point that no run has. -/
def namingPlugin (name : Text) (after before texts : List Text) : Plugin where
  name := name
  after := after
  before := before
  install _ := pure (.ok (texts.flatMap fun text => [
    Point.moduleTransformer.propose text fun m _ =>
      if text.isEmpty then pure (.error (.failed (.ofStage [] "nothing to add")))
      else pure (.ok { m with name := m.name ++ text }),
    { point := "emphasis"
      cardinality := .multi
      name := text
      impl := .foreign "Emphasis" fun p => by cases p <;> decide }]))

/-- The last plugin goes before the first one, which also waits for one that is not there. -/
def namingPlugins : List Plugin :=
  [namingPlugin "a" ["absent"] [] ["x", "y", "", "z"], namingPlugin "b" ["c"] [] [],
    namingPlugin "c" [] ["a"] ["u", "v"]]

/-- A plugin with something else in place of its transforms. -/
def countingPlugin : Plugin where
  name := "words"
  install _ := pure (.ok [{
    point := Point.moduleTransformer.name
    cardinality := .multi
    name := "count"
    impl := .foreign "WordCount" fun p => by cases p <;> decide }])

end Generator

end CrossDoc
