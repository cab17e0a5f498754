import CrossDoc.Decl.Tree
import CrossDoc.Log.Record

/-!
# Traced computations

A run reports what it does while it works: log records, notices of the
pipeline and diagnostics of the analysis.  A `Traced` value carries these
events in their order, so that a stage is an ordinary function and its report
is part of its result.  Counts and error flags are read off the events.
-/

namespace CrossDoc

/-- How bad a diagnostic of the analysis is. -/
inductive Severity where
  | info
  | warning
  | error
deriving DecidableEq, Repr, Inhabited

def Severity.name : Severity → Text
  | .info => "info"
  | .warning => "warning"
  | .error => "error"

/-- Something the analysis has to say about its input.  It never ends a run. -/
structure Diagnostic where
  severity : Severity := .info
  message : Text := []
  location : Option SourceLocation := none
deriving DecidableEq, Repr, Inhabited

/-- The line `severity: file:line: message`; line zero and a missing location
are left out. -/
def Diagnostic.toText (d : Diagnostic) : Text :=
  let place : Text := match d.location with
    | none => []
    | some at_ =>
        at_.file ++ (if 0 < at_.line then ":" ++ Text.ofNat at_.line else []) ++ ": "
  d.severity.name ++ ": " ++ place ++ d.message

/-- The notices of the pipeline. -/
inductive NoticeKind where
  /-- A stage begins. -/
  | progress
  | debug
  | info
  | warn
  | error
deriving DecidableEq, Repr, Inhabited

/-- What is reported during a run. -/
inductive Event where
  | record (r : Log.Record)
  | notice (kind : NoticeKind) (text : Text)
  | diagnostic (d : Diagnostic)
  /-- An extension for the point of this name is called, and answers or fails. -/
  | call (point : Text) (answered : Bool)
  /-- An extension shows the module it was given. -/
  | snapshot (m : DocModule)
  /-- An analysis, a plugin or an extension reports something, not the run that calls it. -/
  | relayed (e : Event)
deriving Repr, Inhabited

namespace Event

/-- The module under which notices are logged. -/
def noticeModule : Text := "docgen"

def noticeLevel : NoticeKind → Log.Level
  | .progress => .info
  | .debug => .debug
  | .info => .info
  | .warn => .warn
  | .error => .error

/-- The log record of an event.  Diagnostics are logged as information,
whatever their severity. -/
def record? : Event → Option Log.Record
  | .record r => some r
  | .notice kind text => some ⟨noticeLevel kind, noticeModule, text⟩
  | .diagnostic d => some ⟨.info, noticeModule, d.toText⟩
  | .call _ _ | .snapshot _ => none
  | .relayed e => e.record?

def isNotice (kind : NoticeKind) : Event → Bool
  | .notice k _ => k == kind
  | .relayed e => e.isNotice kind
  | _ => false

def isErrorDiagnostic : Event → Bool
  | .diagnostic d => d.severity == .error
  | .relayed e => e.isErrorDiagnostic
  | _ => false

/-- The event as one of the code that reports it.  What an extension shows is
no report and stays as it is. -/
def relay : Event → Event
  | .snapshot m => .snapshot m
  | e => .relayed e

end Event

/-- The log records of some events. -/
def Event.records (es : List Event) : List Log.Record := es.filterMap Event.record?

/-- The number of warnings among some events. -/
def Event.warnings (es : List Event) : Nat := es.countP (Event.isNotice .warn)

/-- The number of error notices among some events. -/
def Event.errors (es : List Event) : Nat := es.countP (Event.isNotice .error)

/-- Some diagnostic among the events is an error. -/
def Event.hasErrors (es : List Event) : Bool := es.any Event.isErrorDiagnostic

/-- A value and the events of its computation. -/
@[ext]
structure Traced (α : Type) where
  value : α
  events : List Event := []
deriving Inhabited

namespace Traced

instance : Monad Traced where
  pure a := ⟨a, []⟩
  bind t f :=
    let u := f t.value
    ⟨u.value, t.events ++ u.events⟩

theorem events_pure {α : Type} (a : α) : (pure a : Traced α).events = [] := rfl

theorem value_bind {α β : Type} (t : Traced α) (f : α → Traced β) :
    (t >>= f).value = (f t.value).value := rfl

theorem events_bind {α β : Type} (t : Traced α) (f : α → Traced β) :
    (t >>= f).events = t.events ++ (f t.value).events := rfl

/-- The answer of two fallible steps, one after the other. -/
theorem value_run_bind {ε α β : Type} (x : ExceptT ε Traced α) (next : α → ExceptT ε Traced β) :
    (x >>= next).run.value =
      match x.run.value with
      | .ok a => (next a).run.value
      | .error e => .error e := by
  rw [ExceptT.run_bind, value_bind]
  cases x.run.value <;> rfl

/-- Two steps succeed if the first one does and the second one on its answer. -/
theorem exists_of_value_run_bind {ε α β : Type} {x : ExceptT ε Traced α}
    {next : α → ExceptT ε Traced β} {b : β} (h : (x >>= next).run.value = .ok b) :
    ∃ a, x.run.value = .ok a ∧ (next a).run.value = .ok b := by
  rw [value_run_bind] at h
  split at h
  · next a ha => exact ⟨a, ha, h⟩
  · cases h

theorem events_run_bind {ε α β : Type} (x : ExceptT ε Traced α) (next : α → ExceptT ε Traced β) :
    (x >>= next).run.events = x.run.events ++
      match x.run.value with
      | .ok a => (next a).run.events
      | .error _ => [] := by
  rw [ExceptT.run_bind, events_bind]
  cases x.run.value <;> rfl

theorem value_run_lift {ε α : Type} (t : Traced α) :
    (liftM t : ExceptT ε Traced α).run.value = .ok t.value := rfl

theorem events_run_lift {ε α : Type} (t : Traced α) :
    (liftM t : ExceptT ε Traced α).run.events = t.events := List.append_nil _

theorem value_run_forM_lift {ε α : Type} (f : α → Traced Unit) : ∀ xs : List α,
    (xs.forM fun x => (liftM (f x) : ExceptT ε Traced Unit)).run.value = .ok ()
  | [] => rfl
  | x :: rest => by
      show ((liftM (f x) : ExceptT ε Traced Unit) >>= fun _ =>
        rest.forM fun x => (liftM (f x) : ExceptT ε Traced Unit)).run.value = .ok ()
      rw [value_run_bind, value_run_lift]
      exact value_run_forM_lift f rest

/-- What follows a step that only answers. -/
theorem run_bind_of_pure {ε α β : Type} {x : ExceptT ε Traced α} {a : α}
    (h : x.run = pure (.ok a)) (next : α → ExceptT ε Traced β) :
    (x >>= next).run = (next a).run := by
  rw [ExceptT.run_bind, h]
  rfl

theorem run_bind_of_pure_error {ε α β : Type} {x : ExceptT ε Traced α} {e : ε}
    (h : x.run = pure (.error e)) (next : α → ExceptT ε Traced β) :
    (x >>= next).run = pure (.error e) := by
  rw [ExceptT.run_bind, h]
  rfl

def emit (e : Event) : Traced Unit := ⟨(), [e]⟩

def log (level : Log.Level) (module message : Text) : Traced Unit :=
  emit (.record ⟨level, module, message⟩)

def notice (kind : NoticeKind) (text : Text) : Traced Unit := emit (.notice kind text)

/-- Runs code that reports for itself. -/
def relay {α : Type} (t : Traced α) : Traced α := ⟨t.value, t.events.map Event.relay⟩

theorem value_relay {α : Type} (t : Traced α) : t.relay.value = t.value := rfl

/-- Reports diagnostics one after the other. -/
def diagnose (ds : List Diagnostic) : Traced Unit := ⟨(), ds.map Event.diagnostic⟩

end Traced

end CrossDoc
