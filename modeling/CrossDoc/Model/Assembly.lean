import CrossDoc.Decl.Comment
import CrossDoc.Run.Context

/-!
# From symbols to documentation trees

Each analyzed symbol becomes a declaration that holds the facts of one
platform.  Siblings keep distinct identities: a symbol whose identity an
earlier sibling has is reported and left out together with its members.
-/

namespace CrossDoc

namespace Symbol

/-- The identity of a symbol inside its owner. -/
def declId (owner : DeclId) (kind : Kind) (name discriminator : Text) : DeclId :=
  match kind with
  | .classType | .interfaceType | .objectType | .enumType | .enumEntry | .typeAlias =>
      owner.withClass name
  | .function => owner.withCallable name discriminator
  | .package | .property => owner.withCallable name []

def idIn (owner : DeclId) (s : Symbol) : DeclId :=
  declId owner s.kind s.name s.discriminator

/-- What the platform of a symbol knows about it. -/
def facts (s : Symbol) : Facts :=
  { signature := s.signature
    visibility := s.visibility
    source := some s.location
    annotations := s.annotations
    deprecation := s.deprecation.map fun message => ⟨message, []⟩ : Facts }.applyComment s.doc

mutual

/-- The declaration of a symbol. -/
def translate (p : Platform) (owner : DeclId) : Symbol → Declaration
  | ⟨kind, keyword, name, tail, visibility, deprecation, annotations, doc, location, members⟩ =>
      let s : Symbol :=
        ⟨kind, keyword, name, tail, visibility, deprecation, annotations, doc, location, members⟩
      let id := s.idIn owner
      { kind := kind
        name := name
        id := id
        parent := some owner
        facts := .singleton p s.facts
        children := translateAll p id [] members }

/-- The declarations of sibling symbols whose identity is not among `seen`
or that of an earlier sibling. -/
def translateAll (p : Platform) (owner : DeclId) (seen : List DeclId) :
    List Symbol → List Declaration
  | [] => []
  | s :: rest =>
      let id := s.idIn owner
      if seen.contains id then translateAll p owner seen rest
      else translate p owner s :: translateAll p owner (id :: seen) rest

end

/-- What is said about a repeated symbol. -/
def duplicate (id : DeclId) (location : SourceLocation) : Diagnostic :=
  ⟨.warning, "duplicate declaration " ++ id.toText ++ " ignored", some location⟩

mutual

/-- The repeated symbols among the members of a symbol, at any depth. -/
def duplicates (owner : DeclId) : Symbol → List Diagnostic
  | ⟨kind, keyword, name, tail, visibility, deprecation, annotations, doc, location, members⟩ =>
      let s : Symbol :=
        ⟨kind, keyword, name, tail, visibility, deprecation, annotations, doc, location, members⟩
      duplicatesAll (s.idIn owner) [] members

/-- The repeated symbols among siblings and below them.  What stands below a
repeated symbol is looked at too, and reported first. -/
def duplicatesAll (owner : DeclId) (seen : List DeclId) : List Symbol → List Diagnostic
  | [] => []
  | s :: rest =>
      let id := s.idIn owner
      duplicates owner s ++ (if seen.contains id then [duplicate id s.location] else []) ++
        duplicatesAll owner (id :: seen) rest

end

end Symbol

namespace DocModule

/-- The package of a name without declarations. -/
def emptyPackage (p : Platform) (name : Text) : Declaration :=
  { kind := .package
    name := name
    id := .ofPackage name
    facts := .singleton p {} }

/-- Changes the package of a name, after adding it at the end if there is
none. -/
def updatePackage (p : Platform) (name : Text) (f : Declaration → Declaration) :
    List Declaration → List Declaration
  | [] => [f (emptyPackage p name)]
  | d :: rest =>
      if d.id.package = name then f d :: rest else d :: updatePackage p name f rest

/-- The identities of the declarations of a package. -/
def childIds (m : DocModule) (package : Text) : List DeclId :=
  match m.findPackage? package with
  | some d => d.children.map (·.id)
  | none => []

/-- Adds symbols to a package; those already there are left out. -/
def addSymbols (p : Platform) (m : DocModule) (package : Text) (symbols : List Symbol) :
    DocModule :=
  let seen := m.childIds package
  let added := Symbol.translateAll p (.ofPackage package) seen symbols
  { m with
    packages := updatePackage p package (fun d => { d with children := d.children ++ added })
      m.packages }

/-- The module of a pass without packages. -/
def ofPass (a : AnalyzedPass) : DocModule :=
  { name := a.pass.moduleName, facts := .singleton a.platform {} }

end DocModule

namespace Assembly

/-- The root package is documented only on request. -/
def skips (pass : Pass) (package : Text) : Bool :=
  package.isEmpty && !pass.includeRootPackage

/-- Adds the symbols of one package to the module of a pass. -/
def addPackage (a : AnalyzedPass) (m : DocModule) (package : Text) (symbols : List Symbol) :
    Traced DocModule := do
  if skips a.pass package then
    if !symbols.isEmpty then
      Traced.log .debug "analysis"
        (a.platform.displayName ++ ": skipping " ++ Text.ofNat symbols.length ++
          " declaration(s) in the root package")
    return m
  else
    Traced.diagnose
      (Symbol.duplicatesAll (.ofPackage package) (m.childIds package) symbols)
    return m.addSymbols a.platform package symbols

/-- Adds symbol groups one after the other. -/
def addGroups (a : AnalyzedPass) : DocModule → List SymbolGroup → Traced DocModule
  | m, [] => pure m
  | m, g :: rest => do addGroups a (← addPackage a m g.package g.symbols) rest

/-- Adds source files one after the other. -/
def addFiles (a : AnalyzedPass) : DocModule → List SourceFile → Traced DocModule
  | m, [] => pure m
  | m, f :: rest => do
      Traced.log .trace "analysis" ("translating " ++ f.path)
      addFiles a (← addPackage a m f.package f.symbols) rest

def missingEnvironment (p : Platform) : Fault :=
  .failed (.ofStage [] ("no analysis environment for " ++ p.displayName))

/-- The module of the symbol groups of a pass. -/
def ofGroups (a : AnalyzedPass) (_ : RunContext) : Traced (Except Fault DocModule) := do
  match a.environment with
  | none => return .error (missingEnvironment a.platform)
  | some e => return .ok (← addGroups a (.ofPass a) e.groups)

/-- The module of the source files of a pass. -/
def ofFiles (a : AnalyzedPass) (_ : RunContext) : Traced (Except Fault DocModule) := do
  match a.environment with
  | none => return .error (missingEnvironment a.platform)
  | some e => return .ok (← addFiles a (.ofPass a) e.files)

end Assembly

end CrossDoc
