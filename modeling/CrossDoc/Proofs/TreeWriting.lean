import CrossDoc.Plugin.Builtin

/-!
# Writing a page tree

What there is to do for a page tree is a list of steps: the root page first, then each
page before the pages below it.  They are performed in this order until one of them
fails.  Visiting all pages and doing nothing from the first failure on comes to the same.
-/

namespace CrossDoc

/-! ## What there is to do -/

namespace PageTree

/-- What there is to do for a page: its content is rendered and written, unless the page has its
own strategy. -/
def operation (t : PageTree) (p : Page) (above : List Text) : List WriteStep :=
  match p.kind, p.strategy.kind with
  | .rendererSpecific, .write => [.write p.targetPath p.strategy.payload]
  | .rendererSpecific, .copy => [.copy p.strategy.payload p.targetPath]
  | .rendererSpecific, .nothing => []
  | _, _ => [.write (t.pagePath p above) (p.content.toMarkdown t (t.pagePath p above))]

mutual

/-- What there is to do for a page and then for all below it, where `above` are the names of the
pages above it. -/
def operationsOf (t : PageTree) (above : List Text) : Page → List WriteStep
  | ⟨kind, name, ids, platforms, content, children, targetPath, strategy⟩ =>
      t.operation ⟨kind, name, ids, platforms, content, children, targetPath, strategy⟩ above ++
        t.operationsOfAll (above ++ [name]) children

def operationsOfAll (t : PageTree) (above : List Text) : List Page → List WriteStep
  | [] => []
  | p :: rest => t.operationsOf above p ++ t.operationsOfAll above rest

end

/-- What there is to do for a tree. -/
def operations (t : PageTree) : List WriteStep :=
  .write t.rootPath (t.content.toMarkdown t t.rootPath) :: t.operationsOfAll [] t.children

/-- The step for a page that the walk has come to. -/
def visitStep? (t : PageTree) (e : Page × List Text) : Option WriteStep :=
  t.pageStep? e.1 (t.pagePath e.1 e.2)

variable (t : PageTree)

theorem toList_visitStep? (p : Page) (above : List Text) :
    (t.visitStep? (p, above)).toList = t.operation p above := by
  unfold visitStep? pageStep? operation pagePath
  cases p.kind <;> cases p.strategy.kind <;> rfl

theorem filterMap_cons_visitStep? (p : Page) (above : List Text) (es : List (Page × List Text)) :
    ((p, above) :: es).filterMap t.visitStep? =
      t.operation p above ++ es.filterMap t.visitStep? := by
  rw [List.filterMap_cons, ← toList_visitStep?]
  cases t.visitStep? (p, above) <;> rfl

mutual

theorem filterMap_walk (above : List Text) : ∀ p : Page,
    (p.walk above).filterMap t.visitStep? = t.operationsOf above p
  | ⟨kind, name, ids, platforms, content, children, targetPath, strategy⟩ => by
      rw [Page.walk, filterMap_cons_visitStep?, filterMap_walkAll (above ++ [name]) children,
        operationsOf]

theorem filterMap_walkAll (above : List Text) : ∀ ps : List Page,
    (Page.walkAll above ps).filterMap t.visitStep? = t.operationsOfAll above ps
  | [] => rfl
  | p :: rest => by
      rw [Page.walkAll, List.filterMap_append, filterMap_walk above p,
        filterMap_walkAll above rest, operationsOfAll]

end

theorem steps_eq_operations : t.steps = t.operations := by
  rw [steps, pathed, List.filterMap_map, operations, ← filterMap_walkAll]
  rfl

end PageTree

/-! ## Taking down what is performed -/

namespace Writer

variable {σ : Type} {w : Writer σ} {step : WriteStep} {steps rest : List WriteStep} {s s₁ s₂ : σ}

/-- A writer that takes down the steps it is asked for, each before it performs it. -/
def recording (w : Writer σ) : Writer (σ × List WriteStep) where
  write path content r :=
    let (answer, s) := w.write path content r.1
    (answer, s, r.2 ++ [.write path content])
  copy source path r :=
    let (answer, s) := w.copy source path r.1
    (answer, s, r.2 ++ [.copy source path])

theorem perform_recording (w : Writer σ) (step : WriteStep) (s : σ) (record : List WriteStep) :
    w.recording.perform step (s, record) =
      ((w.perform step s).1, (w.perform step s).2, record ++ [step]) := by
  cases step <;> rfl

/-- All steps succeed, one after the other, and lead from one state to another one. -/
inductive Succeeds (w : Writer σ) : List WriteStep → σ → σ → Prop
  | nil {s : σ} : Succeeds w [] s s
  | cons {step : WriteStep} {rest : List WriteStep} {s s₁ s₂ : σ}
      (first : w.perform step s = (.ok (), s₁)) (next : Succeeds w rest s₁ s₂) :
      Succeeds w (step :: rest) s s₂

/-- From a state, the steps are performed in their order up to and including the first one that
fails, and none after it: which ones are performed, the answer and the last state. -/
inductive Performs (w : Writer σ) (steps : List WriteStep) (s : σ) :
    List WriteStep → Except Text Nat → σ → Prop
  | all {s₁ : σ} (succeeds : w.Succeeds steps s s₁) : Performs w steps s steps (.ok steps.length) s₁
  | upTo {done rest : List WriteStep} {step : WriteStep} {s₁ s₂ : σ} {message : Text}
      (split : steps = done ++ step :: rest) (succeeds : w.Succeeds done s s₁)
      (fails : w.perform step s₁ = (.error message, s₂)) :
      Performs w steps s (done ++ [step]) (.error message) s₂

theorem Performs.cons {performed : List WriteStep} {answer : Except Text Nat}
    (first : w.perform step s = (.ok (), s₁)) (h : w.Performs rest s₁ performed answer s₂) :
    w.Performs (step :: rest) s (step :: performed) (answer.map (· + 1)) s₂ := by
  cases h with
  | all succeeds => exact .all (.cons first succeeds)
  | upTo split succeeds fails => exact .upTo (by rw [split]; rfl) (.cons first succeeds) fails

theorem Performs.stop {message : Text} (fails : w.perform step s = (.error message, s₁)) :
    w.Performs (step :: rest) s [step] (.error message) s₁ :=
  .upTo (List.nil_append (step :: rest)).symm .nil fails

/-- After some steps that are done already, steps are performed up to the first that fails. -/
theorem exists_performs (w : Writer σ) (count : Nat) (steps : List WriteStep) (s : σ)
    (record : List WriteStep) :
    ∃ performed answer s₁, w.Performs steps s performed answer s₁ ∧
      (w.performAll count steps s).value = (answer.map (count + ·), s₁) ∧
      (w.recording.performAll count steps (s, record)).value =
        (answer.map (count + ·), s₁, record ++ performed) := by
  induction steps generalizing count s record with
  | nil => exact ⟨[], .ok 0, s, .all .nil, rfl, by rw [List.append_nil]; rfl⟩
  | cons step rest ih =>
      rw [performAll, performAll, perform_recording]
      rcases hstep : w.perform step s with ⟨_ | _, s₁⟩
      · next message => exact ⟨[step], .error message, s₁, .stop hstep, rfl, rfl⟩
      · -- The rest counts on from one more, so its answer is one more than what it did itself.
        obtain ⟨performed, answer, s₂, hperforms, hvalue, hrecord⟩ :=
          ih (count + 1) s₁ (record ++ [step])
        have hcount : answer.map (count + 1 + ·) = (answer.map (· + 1)).map (count + ·) := by
          cases answer
          · rfl
          · next n => exact congrArg Except.ok (by show count + 1 + n = count + (n + 1); omega)
        rw [hcount] at hvalue hrecord
        rw [List.append_assoc, List.singleton_append] at hrecord
        exact ⟨step :: performed, answer.map (· + 1), s₂, .cons hstep hperforms, hvalue, hrecord⟩

/-! ## Visiting all pages -/

/-- What a visit of the pages has come to. -/
structure Visit (σ : Type) where
  state : σ
  files : Nat := 0
  failure : Option Text := none

namespace Visit

def answer (v : Visit σ) : Except Text Nat :=
  match v.failure with
  | some message => .error message
  | none => .ok v.files

/-- What a step leaves; after a failure it is not performed. -/
def perform (w : Writer σ) (v : Visit σ) (step : WriteStep) : Visit σ :=
  match v.failure with
  | some _ => v
  | none =>
      match w.perform step v.state with
      | (.ok (), s) => { state := s, files := v.files + 1 }
      | (.error message, s) => { state := s, files := v.files, failure := some message }

/-- What the walk leaves that comes to a page. -/
def page (w : Writer σ) (t : PageTree) (v : Visit σ) (e : Page × List Text) : Visit σ :=
  (t.visitStep? e).elim v (v.perform w)

/-- Writes the root page and then visits all pages. -/
def tree (w : Writer σ) (t : PageTree) (s : σ) : Visit σ :=
  t.walk.foldl (page w t)
    (perform w { state := s } (.write t.rootPath (t.content.toMarkdown t t.rootPath)))

theorem foldl_page (w : Writer σ) (t : PageTree) (es : List (Page × List Text)) (v : Visit σ) :
    es.foldl (page w t) v = (es.filterMap t.visitStep?).foldl (perform w) v := by
  induction es generalizing v with
  | nil => rfl
  | cons e rest ih =>
      rw [List.foldl_cons, ih, List.filterMap_cons, page]
      cases t.visitStep? e <;> rfl

/-- After a failure no step is performed. -/
theorem foldl_perform_failed {v : Visit σ} {message : Text} (h : v.failure = some message)
    (steps : List WriteStep) : steps.foldl (perform w) v = v := by
  induction steps with
  | nil => rfl
  | cons step rest ih => rw [List.foldl_cons, perform, h, ih]

theorem foldl_perform (w : Writer σ) (steps : List WriteStep) (count : Nat) (s : σ) :
    let v := steps.foldl (perform w) { state := s, files := count }
    (w.performAll count steps s).value = (v.answer, v.state) := by
  induction steps generalizing count s with
  | nil => rfl
  | cons step rest ih =>
      rw [List.foldl_cons, performAll, perform]
      dsimp only
      rcases w.perform step s with ⟨_ | _, s₁⟩
      · rw [foldl_perform_failed rfl]
        rfl
      · exact ih (count + 1) s₁

end Visit

/-- Writing a tree comes to the same as a walk over all pages that takes down the first failure and
does nothing after it. -/
theorem writeTree_eq_visit (w : Writer σ) (t : PageTree) (s : σ) :
    (w.writeTree t s).value = ((Visit.tree w t s).answer, (Visit.tree w t s).state) := by
  have hsteps : t.steps = .write t.rootPath (t.content.toMarkdown t t.rootPath) ::
      t.walk.filterMap t.visitStep? := by
    rw [PageTree.steps, PageTree.pathed, List.filterMap_map]
    rfl
  rw [writeTree, Visit.foldl_perform, hsteps, List.foldl_cons, ← Visit.foldl_page]
  rfl

/-- **Writing stops at the first failure.**  Whatever a writer answers, what there is to do for a
page tree is done in its order up to the first failure, which is the answer, or to the end, where
the answer is how much there was to do; and so it is when all pages are visited.  For the stage that
writes to the disk, the message is that of a failure of the stage. -/
theorem writeTree_stopsAtFailure (t : PageTree) :
    (∀ {σ : Type} (w : Writer σ) (s : σ), ∃ performed answer s₁,
      w.Performs t.operations s performed answer s₁ ∧
        (w.writeTree t s).value = (answer, s₁) ∧
        (w.recording.writeTree t (s, [])).value = (answer, s₁, performed) ∧
        ((Visit.tree w t s).answer, (Visit.tree w t s).state) = (answer, s₁)) ∧
      ∀ (c : RunContext) (disk : Disk), (Plugin.renderMarkdown t c disk).value =
        match ((Disk.writer c.config.outputDir).writeTree t disk).value with
        | (.ok _, disk) => (.ok (), disk)
        | (.error message, disk) => (.error (.failed (.ofStage [] message)), disk) := by
  refine ⟨fun w s => ?_, fun c disk => ?_⟩
  · obtain ⟨performed, answer, s₁, hperforms, hvalue, hrecord⟩ :=
      exists_performs w 0 t.operations s []
    have hanswer : answer.map (0 + ·) = answer := by
      cases answer
      · rfl
      · next n => exact congrArg Except.ok (Nat.zero_add n)
    rw [hanswer] at hvalue hrecord
    have hwritten : (w.writeTree t s).value = (answer, s₁) := by
      rw [writeTree, t.steps_eq_operations, hvalue]
    refine ⟨performed, answer, s₁, hperforms, hwritten, ?_, ?_⟩
    · rw [writeTree, t.steps_eq_operations, hrecord, List.nil_append]
    · rw [← writeTree_eq_visit, hwritten]
  · unfold Plugin.renderMarkdown
    rw [Traced.value_bind]
    rcases ((Disk.writer c.config.outputDir).writeTree t disk).value with ⟨_ | _, _⟩ <;> rfl

example :
    let t : PageTree :=
      { name := "m"
        children := [⟨.rendererSpecific, "style", [], [], {}, [], "s.css", ⟨.copy, "gone.css"⟩⟩,
          { name := "p" }] }
    let written := (MemoryFiles.writer.writeTree t {}).value
    written.1 = .error "cannot read 'gone.css'" ∧
      written.2.files.map Prod.fst = [("m/index.md" : Text)] :=
  ⟨by rfl, by rfl⟩

end Writer

end CrossDoc
