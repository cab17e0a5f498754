import CrossDoc.Refinement.Facts
import CrossDoc.Refinement.Includes
import CrossDoc.Refinement.SourceLinks

/-!
# The base transforms

The transforms that every run applies to the merged module: include files are
read, whatever is suppressed, not exposed or deprecated goes as the options
say, empty packages go, source links are filled in, and undocumented
declarations are reported.  Facts of a platform without a pass are left alone.
-/

namespace CrossDoc

namespace RunContext

/-! ## Tests -/

/-- Suppressed packages and files go. -/
def keepsSuppression (c : RunContext) : KeepTest := fun d p f =>
  match c.passFor? p with
  | none => true
  | some pass =>
      !(pass.optionsFor d.id.package).suppress &&
        !(f.source.any fun at_ => isSuppressedFile pass.suppressedFiles at_.file)

/-- What is not exposed stays only on request. -/
def keepsVisibility (c : RunContext) : KeepTest := fun d p f =>
  f.visibility.isExposed ||
    (c.optionsFor? p d.id.package).all fun o => o.includeNonPublic

/-- What is deprecated goes on request. -/
def keepsDeprecation (c : RunContext) : KeepTest := fun d p f =>
  f.deprecation.isNone || (c.optionsFor? p d.id.package).all fun o => !o.skipDeprecated

/-- A package without members on a platform goes from it. -/
def keepsPackage (c : RunContext) : KeepTest := fun d p _ =>
  d.kind != .package ||
    ((c.passFor? p).all fun pass => !pass.skipEmptyPackages) ||
    d.children.any fun child => (child.facts.find? p).isSome

/-! ## Source links and reports -/

/-- Fills in the address of the source. -/
def linkSource (c : RunContext) : FactsChange := fun _ p f =>
  match c.passFor? p, f.source with
  | some pass, some at_ =>
      let url := SourceLink.resolve pass.sourceLinks at_
      if url.isEmpty then f else { f with sourceUrl := url }
  | _, _ => f

/-- A declaration is reported on a platform when it is exposed and has no
documentation there, unless the options say not to. -/
def isUndocumented (c : RunContext) (d : Declaration) (p : Platform) (f : Facts) : Bool :=
  d.kind != .package && !f.hasDocumentation && f.visibility.isExposed &&
    (c.optionsFor? p d.id.package).any fun o => o.reportUndocumented

def undocumentedMessage (d : Declaration) (p : Platform) : Text :=
  "Undocumented: " ++ d.id.toText ++ " (" ++ p.displayName ++ ")"

/-- The reports on a module, in depth-first order. -/
def undocumented (c : RunContext) (m : DocModule) : List Text :=
  m.declarations.flatMap fun d =>
    (d.facts.entries.filter fun e => c.isUndocumented d e.1 e.2).map fun e =>
      undocumentedMessage d e.1

end RunContext

/-- The base transforms. -/
inductive BaseTransform where
  | moduleDocumentation
  | suppression
  | visibility
  | deprecation
  | emptyPackages
  | sourceLinks
  | undocumented
deriving DecidableEq, Repr, Inhabited

namespace BaseTransform

def name : BaseTransform → Text
  | .moduleDocumentation => "module_documentation"
  | .suppression => "suppression"
  | .visibility => "visibility"
  | .deprecation => "deprecation"
  | .emptyPackages => "empty_packages"
  | .sourceLinks => "source_links"
  | .undocumented => "undocumented"

/-- All of them, in the order in which they are applied. -/
def all : List BaseTransform :=
  [.moduleDocumentation, .suppression, .visibility, .deprecation, .emptyPackages,
    .sourceLinks, .undocumented]

def warnAll : List Text → Traced Unit
  | [] => pure ()
  | t :: rest => do
      Traced.notice .warn t
      warnAll rest

/-- Applies a transform to a module. -/
def apply (t : BaseTransform) (m : DocModule) (c : RunContext) :
    Traced (Except Fault DocModule) :=
  match t with
  | .moduleDocumentation => (m.applyAllIncludes c.disk c.passes).run
  | .suppression => pure (.ok (m.filter c.keepsSuppression))
  | .visibility => pure (.ok (m.filter c.keepsVisibility))
  | .deprecation => pure (.ok (m.filter c.keepsDeprecation))
  | .emptyPackages => pure (.ok (m.filter c.keepsPackage))
  | .sourceLinks => pure (.ok (m.mapFacts c.linkSource))
  | .undocumented => do
      warnAll (c.undocumented m)
      return .ok m

/-- Applies transforms one after the other, up to the first that fails. -/
def applyAll : List BaseTransform → DocModule → RunContext → Traced (Except Fault DocModule)
  | [], m, _ => pure (.ok m)
  | t :: rest, m, c => do
      match ← t.apply m c with
      | .ok next => applyAll rest next c
      | .error e => return .error e

end BaseTransform

end CrossDoc
