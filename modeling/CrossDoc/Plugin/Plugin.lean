import CrossDoc.Plugin.Extension

/-!
# Plugins

A plugin has a name, demands on the order of installation, and extensions that
it proposes for a configuration.  Installing plugins in their order gives the
registry of a run.
-/

namespace CrossDoc

/-- An extension that a plugin proposes for a point. -/
structure Proposal where
  /-- The name of the point, one of a run or any other. -/
  point : Text
  /-- What the plugin takes the point for. -/
  cardinality : Cardinality
  /-- The name of the extension inside its plugin. -/
  name : Text
  impl : Extension
  after : List Text := []
  before : List Text := []
  overrides : List Text := []

/-- The proposal of an implementation for a point of a run. -/
def Point.propose (p : Point) (name : Text) (run : p.Interface) : Proposal :=
  { point := p.name, cardinality := p.cardinality, name := name, impl := .of p run }

/-- A plugin. -/
structure Plugin where
  name : Text
  /-- Plugins that are installed before this one. -/
  after : List Text := []
  /-- Plugins that are installed after this one. -/
  before : List Text := []
  /-- The extensions for a configuration, or why there are none. -/
  install : Config → Traced (Except Text (List Proposal))

/-- What can be wrong with plugins. -/
inductive PluginError where
  | installedTwice (name : Text)
  | cycle (names : List Text)
  | installFailed (name message : Text)
  | registry (e : RegistryError)
deriving DecidableEq, Repr, Inhabited

namespace PluginError

def message : PluginError → Text
  | .installedTwice name => "plugin '" ++ name ++ "' is installed twice"
  | .cycle names => "plugin dependency cycle between " ++ Text.joinFilled ", " names
  | .installFailed name message => "plugin '" ++ name ++ "' failed to install: " ++ message
  | .registry e => e.message

/-- Plugins that cannot be installed are an error of the configuration. -/
def toFailure (e : PluginError) : Failure := .ofConfiguration e.message

end PluginError

namespace Proposal

/-- The registration of a proposal. -/
def register (plugin : Text) (p : Proposal) : Registration Extension where
  point := p.point
  cardinality := p.cardinality
  type := p.impl.type
  plugin := plugin
  id := plugin ++ "/" ++ p.name
  impl := p.impl
  after := p.after
  before := p.before
  overrides := p.overrides

end Proposal

namespace Plugin

/-! ## Order of installation -/

/-- The first name that an earlier plugin has. -/
def repeatedName? (seen : List Text) : List Plugin → Option Text
  | [] => none
  | p :: rest => if seen.contains p.name then some p.name else repeatedName? (p.name :: seen) rest

/-- The position of the plugin of a name. -/
def position? (ps : List Plugin) (name : Text) : Option Nat := ps.findIdx? fun p => p.name == name

/-- The demands of the plugin at a position: which goes before which. -/
def demands (ps : List Plugin) (position : Nat) (p : Plugin) : List (Nat × Nat) :=
  (p.after.filterMap fun name => (position? ps name).map fun i => (i, position)) ++
    p.before.filterMap fun name => (position? ps name).map fun i => (position, i)

/-- All demands of the plugins. -/
def precedence (ps : List Plugin) : Precedence :=
  (ps.zipIdx.flatMap fun e => demands ps e.2 e.1).foldl (fun q e => q.addEdge e.1 e.2)
    (.ofSize ps.length)

/-- What is said about plugins that are named but not there. -/
def missingReports (ps : List Plugin) (p : Plugin) : List Text :=
  let missing (names : List Text) := names.filter fun name => (position? ps name).isNone
  let say (relation name : Text) : Text :=
    "plugin '" ++ p.name ++ "' wants to run " ++ relation ++ " '" ++ name ++
      "', which is not installed"
  (missing p.after).map (say "after") ++ (missing p.before).map (say "before")

def warnAll : List Text → Traced Unit
  | [] => pure ()
  | t :: rest => do
      Traced.log .warn "plugin" t
      warnAll rest

/-- The plugins in the order of their installation: the given one, as far as
their demands allow. -/
def order (ps : List Plugin) : ExceptT PluginError Traced (List Plugin) := do
  match repeatedName? [] ps with
  | some name => throw (.installedTwice name)
  | none =>
      warnAll (ps.flatMap (missingReports ps))
      let p := precedence ps
      if p.isResolved then return p.order.filterMap fun i => ps[i]?
      else throw (.cycle (p.unresolved.filterMap fun i => ps[i]?.map (·.name)))

/-! ## Installation -/

/-- The registrations of plugins, one after the other. -/
def registrations (c : Config) :
    List Plugin → ExceptT PluginError Traced (List (Registration Extension))
  | [] => pure []
  | p :: rest => do
      match ← ((p.install c).relay : Traced (Except Text (List Proposal))) with
      | .error message => throw (.installFailed p.name (Text.untilNul message))
      | .ok proposals =>
          Traced.log .debug "plugin"
            ("installed " ++ p.name ++ " (" ++ Text.ofNat proposals.length ++ " extension(s))")
          return proposals.map (Proposal.register p.name) ++ (← registrations c rest)

/-- Builds the registry of some registrations. -/
def freeze (rs : List (Registration Extension)) :
    ExceptT PluginError Traced (Registry Extension) := do
  match ← (Registry.build rs).run with
  | .ok r => return r
  | .error e => throw (.registry e)

/-- Orders and installs plugins. -/
def installAll (ps : List Plugin) (c : Config) :
    ExceptT PluginError Traced (Registry Extension) := do
  freeze (← registrations c (← order ps))

end Plugin

end CrossDoc
