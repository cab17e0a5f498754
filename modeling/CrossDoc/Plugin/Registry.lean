import CrossDoc.Precedence
import CrossDoc.Run.Failure
import CrossDoc.Trace

/-!
# The extension registry

Plugins register implementations on named extension points.  A *single* point
wants exactly one, a *multi* point takes any number in an order.

`Registry.build` checks that the registrations of a point agree on its
cardinality and type and have distinct ids, drops the registrations that
another one overrides, and orders the rest: in order of registration, as far as
the demands "after this" and "before that" allow.  An id or the name of a
plugin refers to a registration.

Whoever resolves a point names the type of its implementations.  One that was
registered with another type makes that break off: it is no failure of a run.
-/

namespace CrossDoc

inductive Cardinality where
  /-- Exactly one implementation. -/
  | single
  /-- Any number of implementations, in order. -/
  | multi
deriving DecidableEq, Repr, Inhabited

def Cardinality.name : Cardinality → Text
  | .single => "single"
  | .multi => "multi"

/-- An implementation proposed for a point. -/
structure Registration (α : Type) where
  point : Text
  cardinality : Cardinality
  /-- The type of the implementation. -/
  type : Text
  /-- The registering plugin. -/
  plugin : Text
  /-- The name of the plugin, a slash, and the name of the extension. -/
  id : Text
  impl : α
  after : List Text := []
  before : List Text := []
  /-- The registrations this one replaces. -/
  overrides : List Text := []

/-- An implementation that stays. -/
structure RegistryEntry (α : Type) where
  id : Text
  plugin : Text
  /-- The type of the implementation. -/
  type : Text
  impl : α

/-- With what the use of an implementation as one of another type breaks off. -/
def badCast : Fault := .thrown "bad any_cast"

/-- The implementation of an entry as one of a type. -/
def RegistryEntry.cast {α : Type} (type : Text) (e : RegistryEntry α) : Except Fault α :=
  if e.type = type then .ok e.impl else .error badCast

/-- The points with their implementations in order. -/
structure Registry (α : Type) where
  points : List (Text × List (RegistryEntry α)) := []

/-- What can be wrong with registrations. -/
inductive RegistryError where
  | cardinalityClash (point : Text) (first second : Cardinality)
  | typeClash (point firstId secondId : Text)
  | duplicateId (id point : Text)
  | cycle (point : Text) (ids : List Text)
  | notSingle (point : Text)
  | notOne (point : Text) (ids : List Text)
deriving DecidableEq, Repr, Inhabited

namespace RegistryError

def message : RegistryError → Text
  | .cardinalityClash point first second =>
      "extension point '" ++ point ++ "' is declared both " ++ first.name ++ " and " ++
        second.name
  | .typeClash point firstId secondId =>
      "extension point '" ++ point ++ "' is declared with two different types (" ++ firstId ++
        ", " ++ secondId ++ ")"
  | .duplicateId id point =>
      "duplicate registration '" ++ id ++ "' on extension point '" ++ point ++ "'"
  | .cycle point ids =>
      "ordering cycle on extension point '" ++ point ++ "' between " ++ Text.joinFilled ", " ids
  | .notSingle point => "extension point '" ++ point ++ "' is not a single point"
  | .notOne point ids =>
      let found : Text := if ids.isEmpty then [] else " (" ++ Text.join ", " ids ++ ")"
      "extension point '" ++ point ++ "' requires exactly one implementation, found " ++
        Text.ofNat ids.length ++ found

/-- Registrations that do not fit are an error of the configuration. -/
def toFailure (e : RegistryError) : Failure := .ofConfiguration e.message

end RegistryError

namespace Registration

variable {α : Type}

/-- A reference names the registration or its plugin. -/
def isNamed (r : Registration α) (reference : Text) : Bool :=
  reference == r.id || reference == r.plugin

def entry (r : Registration α) : RegistryEntry α := ⟨r.id, r.plugin, r.type, r.impl⟩

/-! ## Agreement -/

/-- What is wrong with a registration after those of its point. -/
def clash? (earlier : List (Registration α)) (r : Registration α) : Option RegistryError :=
  match earlier with
  | [] => none
  | first :: _ =>
      if first.cardinality ≠ r.cardinality then
        some (.cardinalityClash r.point first.cardinality r.cardinality)
      else if first.type ≠ r.type then some (.typeClash r.point first.id r.id)
      else if earlier.any fun e => e.id == r.id then some (.duplicateId r.id r.point)
      else none

/-- The first registration that does not fit those before it. -/
def firstClash? (earlier : List (Registration α)) :
    List (Registration α) → Option RegistryError
  | [] => none
  | r :: rest =>
      match clash? (earlier.filter fun e => e.point == r.point) r with
      | some e => some e
      | none => firstClash? (earlier ++ [r]) rest

/-- The points in order of their first registration. -/
def pointNames (rs : List (Registration α)) : List Text := (rs.map (·.point)).eraseDups

/-! ## Overriding

Registrations of one point have distinct ids, so an id tells them apart. -/

/-- The first registration overrides the second. -/
def replaces (r other : Registration α) : Bool :=
  r.id != other.id && r.overrides.any other.isNamed

/-- The registrations that no other one overrides. -/
def survivors (group : List (Registration α)) : List (Registration α) :=
  group.filter fun r => !(group.any fun other => other.replaces r)

/-- What is said about overridden registrations. -/
def overrideReports (group : List (Registration α)) : List Text :=
  group.flatMap fun r =>
    r.overrides.flatMap fun target =>
      (group.filter fun other => r.id != other.id && other.isNamed target).map fun other =>
        r.id ++ " overrides " ++ other.id

/-! ## Order -/

/-- The positions of the registrations that a reference of the one at
`position` names. -/
def targets (kept : List (Registration α)) (position : Nat) (reference : Text) : List Nat :=
  (kept.zipIdx.filter fun e => e.2 != position && e.1.isNamed reference).map Prod.snd

/-- The demands of the registration at a position: which goes before which. -/
def demands (kept : List (Registration α)) (position : Nat) (r : Registration α) :
    List (Nat × Nat) :=
  (r.after.flatMap fun t => (targets kept position t).map fun i => (i, position)) ++
    r.before.flatMap fun t => (targets kept position t).map fun i => (position, i)

/-- All demands of the registrations of a point. -/
def precedence (kept : List (Registration α)) : Precedence :=
  (kept.zipIdx.flatMap fun e => demands kept e.2 e.1).foldl
    (fun p e => p.addEdge e.1 e.2) (.ofSize kept.length)

/-- What is said about references that name nothing. -/
def orderReports (point : Text) (kept : List (Registration α)) : List Text :=
  kept.zipIdx.flatMap fun e =>
    ((e.1.after ++ e.1.before).filter fun t => (targets kept e.2 t).isEmpty).map fun t =>
      e.1.id ++ ": ordering reference '" ++ t ++ "' matches nothing on '" ++ point ++ "'"

/-- The registrations at some positions. -/
def pick (kept : List (Registration α)) (positions : List Nat) : List (Registration α) :=
  positions.filterMap fun i => kept[i]?

/-- The implementations of a point in order. -/
def resolve (point : Text) (group : List (Registration α)) :
    Except RegistryError (List (RegistryEntry α)) :=
  let kept := survivors group
  let p := precedence kept
  if p.isResolved then .ok ((pick kept p.order).map entry)
  else .error (.cycle point ((pick kept p.unresolved).map (·.id)))

/-- What is said while the implementations of a point are put in order. -/
def reports (point : Text) (group : List (Registration α)) : List Text :=
  overrideReports group ++ orderReports point (survivors group)

end Registration

namespace Registry

variable {α : Type}

def reportAll : List Text → Traced Unit
  | [] => pure ()
  | t :: rest => do
      Traced.log .debug "plugin" t
      reportAll rest

/-- Resolves points one after the other. -/
def resolvePoints (rs : List (Registration α)) :
    List Text → ExceptT RegistryError Traced (List (Text × List (RegistryEntry α)))
  | [] => pure []
  | point :: rest => do
      let group := rs.filter fun r => r.point == point
      reportAll (Registration.reports point group)
      match Registration.resolve point group with
      | .error e => throw e
      | .ok entries => return (point, entries) :: (← resolvePoints rs rest)

/-- Builds the registry of some registrations. -/
def build (rs : List (Registration α)) : ExceptT RegistryError Traced (Registry α) := do
  match Registration.firstClash? [] rs with
  | some e => throw e
  | none => return ⟨← resolvePoints rs (Registration.pointNames rs)⟩

/-- The implementations of a point in order; none if nothing is registered. -/
def entries (r : Registry α) (point : Text) : List (RegistryEntry α) :=
  ((r.points.find? fun e => e.1 == point).map Prod.snd).getD []

/-- The only implementation of a single point, which is of a type. -/
def resolveSingle (r : Registry α) (point : Text) (cardinality : Cardinality) (type : Text) :
    Except Fault α :=
  if cardinality ≠ .single then .error (.failed (RegistryError.notSingle point).toFailure)
  else match r.entries point with
    | [e] => e.cast type
    | es => .error (.failed (RegistryError.notOne point (es.map (·.id))).toFailure)

/-- All implementations of a point in order, which are of a type. -/
def resolveAll (r : Registry α) (point type : Text) : Except Fault (List α) :=
  (r.entries point).mapM (·.cast type)

def ids (r : Registry α) (point : Text) : List Text := (r.entries point).map (·.id)

/-- The points with a registration, in ascending order. -/
def pointNames (r : Registry α) : List Text := (r.points.map Prod.fst).mergeSort Text.le

end Registry

end CrossDoc
